import RpiVm.Mmu.Effect

/-!
# The mapping functions refine the table updates

On a table that is laid out in memory, and while the heap stays below
`2 ^ 32`, a mapping function returns exactly when the update of the table value
is defined, and then memory holds the updated value. This is the only place
where the addresses of tables matter.
-/

namespace RpiVm

open CLib

variable {s : State} {pt : BitVec 32}

/-! ## Index computations -/

/-- The first-level lookup addresses the entry that the walk uses. -/
theorem mmuFirstLevelLookup_eq (pt va : BitVec 32) :
    mmuFirstLevelLookup pt va = firstAddr pt (firstIndex va) := by
  have hidx : getFirstLevelTableIdx va = (firstIndex va).setWidth 32 := by
    apply BitVec.eq_of_toNat_eq
    have hva := va.isLt
    simp only [getFirstLevelTableIdx, firstIndex, BitVec.toNat_ushiftRight, BitVec.toNat_setWidth,
      BitVec.extractLsb'_toNat, Nat.shiftRight_eq_div_pow]
    omega
  rw [mmuFirstLevelLookup, firstAddr, hidx]

/-- The second-level index of the code is the one of the walk. -/
theorem getSecondLevelTableIdx_eq (va : BitVec 32) :
    getSecondLevelTableIdx va = (secondIndex va).setWidth 32 := by
  have hmask : (0xFF : BitVec 32) = BitVec.twoPow 32 8 - 1 := by decide
  apply BitVec.eq_of_toNat_eq
  rw [getSecondLevelTableIdx, hmask, toNat_and_twoPow_sub_one _ (by decide)]
  simp only [secondIndex, BitVec.toNat_ushiftRight, BitVec.toNat_setWidth,
    BitVec.extractLsb'_toNat, Nat.shiftRight_eq_div_pow]
  omega

/-- The second-level lookup addresses the entry that the walk uses. -/
theorem mmuSecondLevelLookup_eq (s : State) (pde va : BitVec 32) :
    mmuSecondLevelLookup s pde va =
      secondAddr (coarseBase (s.mem.load32 pde)) (secondIndex va) := by
  have hbase : ∀ w : BitVec 32,
      (CoarsePtDesc.base.get w).setWidth 32 <<< 10 = coarseBase w := by
    intro w
    apply BitVec.eq_of_toNat_eq
    simp only [CoarsePtDesc.base, BitField.get, coarseBase, BitVec.toNat_shiftLeft,
      BitVec.toNat_setWidth, BitVec.toNat_append, BitVec.extractLsb'_toNat, BitVec.toNat_ofNat,
      Nat.shiftRight_eq_div_pow, Nat.shiftLeft_eq, Nat.zero_mod, Nat.or_zero]
    omega
  rw [mmuSecondLevelLookup, secondAddr, getSecondLevelTableIdx_eq]
  simp only [hbase]

/-! ## Sections -/

/-- The check on a printed section descriptor looks at `S`, `C` and `B` only. -/
theorem sectionCheckValid_sectionWord (pa domain flags : BitVec 32) :
    (sectionCheckValid (sectionWord pa domain flags) = .ok () ↔ flagsPrintable flags = true) := by
  have htag := sectionWord_tag pa domain flags
  have hattrs := sectionAttrs_sectionWord pa domain flags
  have hs := congrArg Attrs.s hattrs
  have hc := congrArg Attrs.c hattrs
  have hb := congrArg Attrs.b hattrs
  simp only [sectionAttrs] at hs hc hb
  have himp : (sectionWord pa domain flags).extractLsb' 9 1 = 0 := by
    simp [sectionWord, mkSection]
  have hsuper : (sectionWord pa domain flags).extractLsb' 18 1 = 0 := by
    simp [sectionWord, mkSection]
  have hsbz : (sectionWord pa domain flags).extractLsb' 19 1 = 0 := by
    simp [sectionWord, mkSection]
  simp [sectionCheckValid, bind_eq_ok, BitField.get, htag, himp, hsuper, hsbz, hs, hc, hb,
    flagsPrintable, and_assoc]

/-- The tag that the code reads from a first-level word. -/
theorem tag_get_firstWord (m : Mem) (pt : BitVec 32) (i : BitVec 12) :
    SecDesc.tag.get (m.load32 (firstAddr pt i)) = (firstWord m pt i).extractLsb' 0 2 := rfl

/-- An entry of the table value is unused when its tag is zero. -/
theorem tableOf_eq_fault_iff (m : Mem) (pt : BitVec 32) (i : BitVec 12) :
    tableOf m pt i = .fault ↔ (firstWord m pt i).extractLsb' 0 2 = 0#2 := by
  unfold tableOf decodeFirst
  split_ifs with hsec hcoarse hfault
  · simp [hsec]
  · simp [hcoarse]
  · simp [hfault]
  · simp [hfault]

/-- Storing a section descriptor in an unused entry. -/
theorem storeSection_effect {i : BitVec 12} (h : Layout s.mem pt s.heap.toNat)
    (hfault : (firstWord s.mem pt i).extractLsb' 0 2 = 0#2) (pa domain flags : BitVec 32) :
    MapEffect s (s.store32 (firstAddr pt i) (sectionWord pa domain flags)) pt i ∧
      tableOf (s.store32 (firstAddr pt i) (sectionWord pa domain flags)).mem pt =
        Function.update (tableOf s.mem pt) i
          (.sec (pa.extractLsb' 20 12) (domain.setWidth 4) (flagAttrs flags)) := by
  have hnew : ¬ IsCoarse (sectionWord pa domain flags) := by
    rw [IsCoarse, sectionWord_tag]
    decide
  have hold : ¬ IsCoarse (firstWord s.mem pt i) := by
    rw [IsCoarse, hfault]
    decide
  have hword := firstWord_storeFirst (m := s.mem) (i := i) h.aligned (sectionWord pa domain flags)
  constructor
  · refine ⟨h.storeFirst (fun hc => absurd hc hnew) (fun hc => absurd hc hnew)
      (fun hc => absurd hc hnew), ?_, fun hc => absurd hc hold, Or.inl ⟨rfl, rfl, ?_⟩, ?_, ?_, rfl,
      le_kmallocAlignedEnd _ _ _⟩
    · intro k hk
      exact (hword k).trans (if_neg hk)
    · intro hc
      have heq : firstWord (s.store32 (firstAddr pt i) (sectionWord pa domain flags)).mem pt i =
          sectionWord pa domain flags := (hword i).trans (if_pos rfl)
      rw [heq] at hc
      exact absurd hc hnew
    · intro r hr
      exact storeFirst_agreeOn h.aligned _ (hr _ (Or.inl rfl))
    · exact ⟨[Mem.wordAt (firstAddr pt i)], rfl, fun r hr =>
        ⟨_, Or.inl rfl, by rw [List.mem_singleton.mp hr]; exact wordAt_firstAddr_within h.aligned i⟩⟩
  · rw [State.store32, tableOf_storeFirst h (fun hc => absurd hc hnew)]
    congr 1
    rw [decodeFirst, if_pos (sectionWord_tag pa domain flags), sectionWord_base,
      sectionWord_domain, sectionAttrs_sectionWord]

/-! ## Coarse tables -/

/-- Every entry of a zeroed coarse table is unused. -/
theorem decodeSecond_zero : decodeSecond 0 = .fault := by decide

/-- A fresh coarse table for an unused entry. -/
theorem mkCoarsePageTable_effect {i : BitVec 12} (h : Layout s.mem pt s.heap.toNat)
    (hfit : kmallocAlignedEnd s.heap.toNat 1024 10 < 2 ^ 32)
    (hfault : (firstWord s.mem pt i).extractLsb' 0 2 = 0#2) (domain : BitVec 32) :
    ∃ f s', mkCoarsePageTable s domain = .ok (f, s') ∧
      MapEffect s (s'.store32 (firstAddr pt i) f) pt i ∧
      IsCoarse (firstWord (s'.store32 (firstAddr pt i) f).mem pt i) ∧
      tableOf (s'.store32 (firstAddr pt i) f).mem pt =
        Function.update (tableOf s.mem pt) i (.coarse (domain.setWidth 4) fun _ => .fault) := by
  have h10 : 1#32 <<< 10 = BitVec.twoPow 32 10 := by decide
  obtain ⟨p, s', hok, hp, halloc⟩ :=
    kmallocAligned_allocated (s := s) (256 * 4) (k := 10) (by decide) hfit
  have hsize : roundUpNat (256 * 4 : BitVec 32).toNat 8 = 1024 := by decide
  rw [hsize] at halloc
  have hmod : p.toNat % 1024 = 0 := by rw [hp]; exact roundUpNat_mod _ _
  have hbase : coarseBase (coarseWord p domain) = p := coarseBase_coarseWord domain hmod
  have hcoarse : IsCoarse (coarseWord p domain) := coarseWord_tag p domain
  have hregion : coarseRegion (coarseWord p domain) = ⟨p.toNat, 1024⟩ := by
    rw [coarseRegion, hbase]
  have hle := halloc.le_base
  have hheap := halloc.heap_eq
  obtain ⟨hl', htable⟩ := h.allocated halloc
  have hfirst : ∀ k, firstWord s'.mem pt k = firstWord s.mem pt k := fun k =>
    (firstWord_congr h.aligned (halloc.frame _ (Or.inr (by
      have := h.first_le
      simp only [firstRegion]
      omega)))) k
  -- the new block lies above everything that the table already uses
  have habove : ∀ r, r.base + r.size ≤ s.heap.toNat →
      (coarseRegion (coarseWord p domain)).Disjoint r := by
    intro r hr
    rw [hregion]
    exact Or.inr (by simp only; omega)
  have hold : ¬ IsCoarse (firstWord s.mem pt i) := by
    rw [IsCoarse, hfault]
    decide
  have hword := firstWord_storeFirst (m := s'.mem) (i := i) h.aligned (coarseWord p domain)
  have hwordi : firstWord (s'.store32 (firstAddr pt i) (coarseWord p domain)).mem pt i =
      coarseWord p domain := (hword i).trans (if_pos rfl)
  have hdisj : (coarseRegion (coarseWord p domain)).Disjoint (firstRegion pt) :=
    habove _ h.first_le
  refine ⟨coarseWord p domain, s', ?_, ⟨?_, ?_, fun hc => absurd hc hold, Or.inr ?_, ?_, ?_, ?_, ?_⟩,
    ?_, ?_⟩
  · have htag : (CoarsePtDesc.tag.get (coarseWord p domain) == fldCoarsePtTag) = true :=
      beq_iff_eq.mpr (coarseWord_tag p domain)
    rw [mkCoarsePageTable, h10]
    exact bind_eq_ok.mpr ⟨_, hok, bind_eq_ok.mpr ⟨(), assert_eq_ok.mpr htag, rfl⟩⟩
  · refine hl'.storeFirst (fun _ => ?_) (fun _ => hdisj) (fun _ k _ hk => ?_)
    · rw [hbase]
      omega
    · rw [hfirst k] at hk ⊢
      exact habove _ (h.coarse_le k hk)
  · intro k hk
    exact ((hword k).trans (if_neg hk)).trans (hfirst k)
  · rw [hwordi, hregion, hbase]
    exact ⟨hold, hcoarse, halloc.blocks_eq, hle, hheap⟩
  · intro r hr
    have hr1 := hr _ (Or.inl rfl)
    have hr2 : (⟨p.toNat, 1024⟩ : Region).Disjoint r := by
      have := hr _ (Or.inr ⟨i, by rw [hwordi]; exact hcoarse, rfl⟩)
      rwa [hwordi, hregion] at this
    exact (storeFirst_agreeOn h.aligned _ hr1).trans (halloc.frame r hr2)
  · refine ⟨[Mem.wordAt (firstAddr pt i), ⟨p.toNat, 1024⟩],
      by simp only [State.store32, halloc.stores_eq, List.cons_append, List.nil_append], ?_⟩
    intro r hr
    rcases List.mem_cons.mp hr with rfl | hr
    · exact ⟨_, Or.inl rfl, wordAt_firstAddr_within h.aligned i⟩
    · refine ⟨_, Or.inr ⟨i, by rw [hwordi]; exact hcoarse, rfl⟩, ?_⟩
      rw [hwordi, hregion, List.mem_singleton.mp hr]
      exact ⟨le_rfl, le_rfl⟩
  · exact halloc.heapStart_eq
  · exact (hheap.trans (by rw [hp]; rfl)).le
  · rw [hwordi]
    exact hcoarse
  · rw [State.store32, tableOf_storeFirst hl' (fun _ => hdisj), htable]
    congr 1
    rw [decodeFirst, if_neg (by rw [coarseWord_tag]; decide), if_pos (coarseWord_tag p domain),
      coarseWord_domain]
    congr 1
    funext j
    rw [Mem.load32_eq_zero (secondAddr_add_le _ j)]
    · exact decodeSecond_zero
    · intro x hx
      apply halloc.zero
      have hin := wordAt_secondAddr_within (coarseWord p domain) j
      rw [hregion] at hin
      unfold Region.Within at hin
      unfold Region.Contains at hx ⊢
      omega

/-- The lines shared by the page mappings reach a coarse table exactly when the
entry of the table value can serve as one. -/
theorem ensureCoarse_effect {i : BitVec 12} {d : BitVec 4} {entries : BitVec 8 → SecondLevel}
    (h : Layout s.mem pt s.heap.toNat) (domain : BitVec 32)
    (hfit : tableOf s.mem pt i = .fault → kmallocAlignedEnd s.heap.toNat 1024 10 < 2 ^ 32)
    (hcoarse : (tableOf s.mem pt i).asCoarse (domain.setWidth 4) = some (d, entries)) :
    ∃ s', ensureCoarse s (firstAddr pt i) domain = .ok s' ∧ MapEffect s s' pt i ∧
      IsCoarse (firstWord s'.mem pt i) ∧
      tableOf s'.mem pt = Function.update (tableOf s.mem pt) i (.coarse d entries) := by
  unfold ensureCoarse
  by_cases hfault : (firstWord s.mem pt i).extractLsb' 0 2 = 0#2
  · have hentry := (tableOf_eq_fault_iff s.mem pt i).mpr hfault
    rw [hentry] at hcoarse
    obtain ⟨rfl, rfl⟩ : domain.setWidth 4 = d ∧ (fun _ => SecondLevel.fault) = entries := by
      simpa [FirstLevel.asCoarse] using hcoarse
    obtain ⟨f, s', hok, heffect, his, htable⟩ :=
      mkCoarsePageTable_effect h (hfit hentry) hfault domain
    have htag : CoarsePtDesc.tag.get (s.mem.load32 (firstAddr pt i)) = fldFaultTag := hfault
    refine ⟨_, ?_, heffect, his, htable⟩
    refine bind_eq_ok.mpr ⟨(), assert_eq_ok.mpr (by rw [htag]; decide), ?_⟩
    simp only [htag, beq_self_eq_true, if_true]
    exact bind_eq_ok.mpr ⟨_, hok, rfl⟩
  · by_cases his : IsCoarse (firstWord s.mem pt i)
    · have hentry := tableOf_of_isCoarse his
      have htag : CoarsePtDesc.tag.get (s.mem.load32 (firstAddr pt i)) = fldCoarsePtTag := his
      have hne : (fldCoarsePtTag == fldFaultTag) = false := by decide
      refine ⟨s, ?_, MapEffect.refl h, his, ?_⟩
      · refine bind_eq_ok.mpr ⟨(), assert_eq_ok.mpr (by rw [htag]; decide), ?_⟩
        simp only [htag, hne, Bool.false_eq_true, if_false]
        rfl
      · have heq : tableOf s.mem pt i = .coarse d entries := by
          rw [hentry] at hcoarse ⊢
          simp only [FirstLevel.asCoarse, Option.some.injEq, Prod.mk.injEq] at hcoarse
          rw [hcoarse.1, hcoarse.2]
        rw [← heq, Function.update_eq_self]
    · exfalso
      unfold tableOf decodeFirst at hcoarse
      have htag : ¬ (firstWord s.mem pt i).extractLsb' 0 2 = 0b01#2 := his
      rw [if_neg htag, if_neg hfault] at hcoarse
      split_ifs at hcoarse <;> simp [FirstLevel.asCoarse] at hcoarse

/-- The assertion on the first-level tag: past it, the entry can serve as a
coarse table. -/
theorem asCoarse_isSome_of_ensureCoarse {i : BitVec 12} {domain : BitVec 32} {s' : State}
    (hok : ensureCoarse s (firstAddr pt i) domain = .ok s') (d : BitVec 4) :
    ((tableOf s.mem pt i).asCoarse d).isSome = true := by
  obtain ⟨_, htag, _⟩ := bind_eq_ok.mp hok
  rw [assert_eq_ok, Bool.or_eq_true, beq_iff_eq, beq_iff_eq] at htag
  rcases htag with hfault | his
  · rw [(tableOf_eq_fault_iff s.mem pt i).mpr hfault]
    rfl
  · have his' : IsCoarse (firstWord s.mem pt i) := his
    rw [tableOf_of_isCoarse his']
    rfl

/-! ## Entries of a coarse table -/

/-- The one-bit tag test of a small page sees small pages only. -/
theorem isSm_decodeSecond (w : BitVec 32) :
    (decodeSecond w).isSm = false ↔ (SmPageDesc.tag.get w).setWidth 2 = fldFaultTag := by
  have hzero : ∀ b : BitVec 1, b.setWidth 2 = fldFaultTag ↔ b = 0#1 := by decide
  have hone : ∀ b : BitVec 1, b ≠ 1#1 ↔ b = 0#1 := by decide
  rw [hzero]
  unfold decodeSecond
  by_cases hbit : w.extractLsb' 1 1 = 1#1
  · rw [if_neg (tag_ne_large_of_bit1 hbit), if_pos hbit]
    simp [SecondLevel.isSm, BitField.get, hbit]
  · have hget : SmPageDesc.tag.get w = 0#1 := (hone _).mp hbit
    rw [if_neg hbit, hget]
    split_ifs <;> simp [SecondLevel.isSm]

/-- The two-bit tag test of a large page sees every page. -/
theorem decodeSecond_eq_fault_iff (w : BitVec 32) :
    decodeSecond w = .fault ↔ LgPageDesc.tag.get w = fldFaultTag := by
  have hcases : ∀ b : BitVec 2, b.extractLsb' 1 1 ≠ 1#1 → b ≠ 0b01#2 → b = 0#2 := by decide
  have hbit : (w.extractLsb' 0 2).extractLsb' 1 1 = w.extractLsb' 1 1 := by
    apply BitVec.eq_of_getLsbD_eq
    intro k hk
    obtain rfl : k = 0 := by omega
    simp
  change decodeSecond w = .fault ↔ w.extractLsb' 0 2 = 0#2
  unfold decodeSecond
  constructor
  · intro h
    split_ifs at h with h1 h2
    exact hcases _ (by rwa [hbit]) h1
  · intro h
    have h2 : w.extractLsb' 1 1 ≠ 1#1 := by
      rw [← hbit, h]
      decide
    rw [if_neg (by rw [h]; decide), if_neg h2]

/-- A small page descriptor decodes to the small page asked for. -/
theorem decodeSecond_smPageWord (pa flags : BitVec 32) :
    decodeSecond (smPageWord pa flags) = .sm (pa.extractLsb' 12 20) (flagAttrs flags) := by
  rw [decodeSecond, if_neg (tag_ne_large_of_bit1 (smPageWord_tag pa flags)),
    if_pos (smPageWord_tag pa flags), smPageWord_base, smallAttrs_smPageWord]

/-- A large page descriptor decodes to the large page asked for. -/
theorem decodeSecond_lgPageWord (pa flags : BitVec 32) :
    decodeSecond (lgPageWord pa flags) = .lg (pa.extractLsb' 16 16) (flagAttrs flags) := by
  rw [decodeSecond, if_pos (lgPageWord_tag pa flags), lgPageWord_base, largeAttrs_lgPageWord]

/-- Putting a page in one entry is a function update. -/
theorem putLg_one (entries : BitVec 8 → SecondLevel) (j : BitVec 8) (e : SecondLevel) :
    putLg entries j 1 e = Function.update entries j e := by
  funext k
  rw [putLg, Function.update_apply]
  congr 1
  rw [eq_iff_iff, ← BitVec.toNat_inj]
  omega

/-- One more replica of a large page. -/
theorem putLg_succ (entries : BitVec 8 → SecondLevel) {j : BitVec 8} {n : ℕ}
    (h : j.toNat + n < 256) (e : SecondLevel) :
    putLg entries j (n + 1) e =
      Function.update (putLg entries j n e) (j + BitVec.ofNat 8 n) e := by
  have hidx : (j + BitVec.ofNat 8 n).toNat = j.toNat + n := by
    rw [BitVec.toNat_add, BitVec.toNat_ofNat]
    omega
  funext k
  have hk : k = j + BitVec.ofNat 8 n ↔ k.toNat = j.toNat + n := by rw [← BitVec.toNat_inj, hidx]
  simp only [Function.update_apply, hk, putLg]
  split_ifs <;> first | rfl | omega

/-- The address of `pte[n]` for a large page within a coarse table. -/
theorem pteAt_secondAddr (base : BitVec 32) {j : BitVec 8} {n : ℕ} (h : j.toNat + n < 256) :
    pteAt (secondAddr base j) n = secondAddr base (j + BitVec.ofNat 8 n) := by
  apply BitVec.eq_of_toNat_eq
  have h4 : (4 : BitVec 32).toNat = 4 := rfl
  simp only [pteAt, secondAddr, BitVec.toNat_add, BitVec.toNat_mul, BitVec.toNat_setWidth,
    BitVec.toNat_ofNat, h4]
  omega

/-! ## The three mapping functions -/

/-- A coarse table reached by the shared lines, as the entry functions see it. -/
theorem entries_of_update {s₁ : State} {t : Table} {i : BitVec 12} {d : BitVec 4}
    {entries : BitVec 8 → SecondLevel} (his : IsCoarse (firstWord s₁.mem pt i))
    (htable : tableOf s₁.mem pt = Function.update t i (.coarse d entries)) :
    (firstWord s₁.mem pt i).extractLsb' 5 4 = d ∧ ∀ k,
      decodeSecond (s₁.mem.load32 (secondAddr (coarseBase (firstWord s₁.mem pt i)) k)) =
        entries k := by
  have hentry := tableOf_of_isCoarse his
  rw [htable, Function.update_self] at hentry
  injection hentry with hd hentries
  exact ⟨hd.symm, fun k => (congrFun hentries k).symm⟩

/-- One entry of the coarse table of `i` is replaced. -/
theorem storeEntry_effect {s s₁ : State} {t : Table} {i : BitVec 12} {d : BitVec 4}
    {entries : BitVec 8 → SecondLevel} (heffect : MapEffect s s₁ pt i)
    (his : IsCoarse (firstWord s₁.mem pt i))
    (htable : tableOf s₁.mem pt = Function.update t i (.coarse d entries))
    (j : BitVec 8) (v : BitVec 32) :
    let s₂ := s₁.store32 (secondAddr (coarseBase (firstWord s₁.mem pt i)) j) v
    MapEffect s s₂ pt i ∧ firstWord s₂.mem pt i = firstWord s₁.mem pt i ∧
      tableOf s₂.mem pt =
        Function.update t i (.coarse d (Function.update entries j (decodeSecond v))) := by
  obtain ⟨hd, hentries⟩ := entries_of_update his htable
  refine ⟨heffect.storeSecond his v j, firstWord_storeSecond heffect.layout his v j i, ?_⟩
  rw [State.store32, tableOf_storeSecond heffect.layout his, htable, Function.update_idem, hd]
  simp only [hentries]

/-- The loop that replicates a large page replaces consecutive entries. -/
theorem storeLgPages_effect {s s₁ : State} {t : Table} {i : BitVec 12} {d : BitVec 4}
    {entries : BitVec 8 → SecondLevel} (heffect : MapEffect s s₁ pt i)
    (his : IsCoarse (firstWord s₁.mem pt i))
    (htable : tableOf s₁.mem pt = Function.update t i (.coarse d entries))
    (j : BitVec 8) (v : BitVec 32) (n : ℕ) (hn : j.toNat + n ≤ 256) :
    let s₂ := storeLgPages s₁ (secondAddr (coarseBase (firstWord s₁.mem pt i)) j) v n
    MapEffect s s₂ pt i ∧ firstWord s₂.mem pt i = firstWord s₁.mem pt i ∧
      tableOf s₂.mem pt =
        Function.update t i (.coarse d (putLg entries j n (decodeSecond v))) := by
  induction n with
  | zero =>
    refine ⟨heffect, rfl, ?_⟩
    have hnone : putLg entries j 0 (decodeSecond v) = entries := by
      funext k
      rw [putLg, if_neg (by omega)]
    rw [hnone]
    exact htable
  | succ n ih =>
    obtain ⟨ih1, ih2, ih3⟩ := ih (by omega)
    have his' : IsCoarse (firstWord (storeLgPages s₁
        (secondAddr (coarseBase (firstWord s₁.mem pt i)) j) v n).mem pt i) := by rwa [ih2]
    have hstep := storeEntry_effect ih1 his' ih3 (j + BitVec.ofNat 8 n) v
    rw [ih2, ← pteAt_secondAddr _ (by omega)] at hstep
    rw [putLg_succ entries (by omega)]
    simpa [storeLgPages, List.range_succ, List.foldl_append] using hstep

/-- The heap end that a mapping call reaches, without a bound: only a page in an
unused first-level entry allocates. -/
def MapCall.heapEnd (c : MapCall) (s : State) (pt : BitVec 32) : ℕ :=
  if c.kind ≠ .sec ∧ (firstWord s.mem pt (firstIndex c.va)).extractLsb' 0 2 = 0#2 then
    kmallocAlignedEnd s.heap.toNat 1024 10
  else s.heap.toNat

/-- A mapping call takes at most one coarse table from the heap. -/
theorem MapCall.heapEnd_le (c : MapCall) (s : State) (pt : BitVec 32) :
    c.heapEnd s pt ≤ kmallocAlignedEnd s.heap.toNat 1024 10 := by
  unfold heapEnd
  split_ifs
  · exact le_rfl
  · exact le_kmallocAlignedEnd _ _ _

/-- A mapping call in a first-level entry that is in use takes nothing from the heap. -/
theorem MapCall.heapEnd_lt_of_used {c : MapCall}
    (hused : tableOf s.mem pt (firstIndex c.va) ≠ .fault) : c.heapEnd s pt < 2 ^ 32 := by
  rw [heapEnd, if_neg fun h => hused ((tableOf_eq_fault_iff _ _ _).mpr h.2)]
  exact s.heap.isLt

/-- What `heapEnd` provides to the shared lines of the page mappings. -/
theorem MapCall.fit_of_heapEnd {c : MapCall} (hfit : c.heapEnd s pt < 2 ^ 32)
    (hkind : c.kind ≠ .sec) (hfault : tableOf s.mem pt (firstIndex c.va) = .fault) :
    kmallocAlignedEnd s.heap.toNat 1024 10 < 2 ^ 32 := by
  rwa [heapEnd, if_pos ⟨hkind, (tableOf_eq_fault_iff _ _ _).mp hfault⟩] at hfit

/-- What a mapping function has done when its table update is defined. -/
def MapCall.Refines (c : MapCall) (s : State) (pt : BitVec 32) (t : Table) : Prop :=
  ∃ s', c.exec s pt = .ok s' ∧ MapEffect s s' pt (firstIndex c.va) ∧ tableOf s'.mem pt = t

/-- A returning call of `exec` is a returning call of the function behind it. -/
theorem map_snd_eq_ok {x : Except Panic (BitVec 32 × State)} {s' : State} :
    Prod.snd <$> x = .ok s' ↔ ∃ r, x = .ok (r, s') := by
  cases x with
  | error e => simp [Functor.map, Except.map]
  | ok p => simp [Functor.map, Except.map, Prod.ext_iff, eq_comm]

/-- `mmu_map_section` performs its table update. -/
theorem refines_sec {va pa domain flags : BitVec 32} {t : Table}
    (h : Layout s.mem pt s.heap.toNat)
    (happly : (MapCall.mk .sec va pa domain flags).apply (tableOf s.mem pt) = some t) :
    (MapCall.mk .sec va pa domain flags).Refines s pt t := by
  obtain ⟨hentry, hva, hpa, hprint, happly⟩ := MapCall.apply_sec_eq_some.mp happly
  have hfault := (tableOf_eq_fault_iff _ _ _).mp hentry
  obtain ⟨heffect, htable⟩ := storeSection_effect h hfault pa domain flags
  refine ⟨_, map_snd_eq_ok.mpr ⟨firstAddr pt (firstIndex va), ?_⟩, heffect,
    htable.trans happly⟩
  have htag : (SecDesc.tag.get (s.mem.load32 (firstAddr pt (firstIndex va))) == 0) = true :=
    beq_iff_eq.mpr hfault
  have hload : (s.store32 (firstAddr pt (firstIndex va)) (sectionWord pa domain flags)).mem.load32
      (firstAddr pt (firstIndex va)) = sectionWord pa domain flags :=
    Mem.load32_store32_same _ _ _
  unfold mmuMapSection mmuMapSectionWith
  rw [mmuFirstLevelLookup_eq]
  refine bind_eq_ok.mpr ⟨(), assert_eq_ok.mpr hva, bind_eq_ok.mpr ⟨(), assert_eq_ok.mpr hpa,
    bind_eq_ok.mpr ⟨(), demand_eq_ok.mpr htag, ?_⟩⟩⟩
  have hchecked := (sectionCheckValid_sectionWord pa domain flags).mpr hprint
  rw [← hload] at hchecked
  exact bind_eq_ok.mpr ⟨(), hchecked, rfl⟩

/-- `mmu_map_section` returns only where its table update is defined. -/
theorem apply_isSome_sec {va pa domain flags r : BitVec 32} {s' : State}
    (hok : mmuMapSection s pt va pa domain flags = .ok (r, s')) :
    ((MapCall.mk .sec va pa domain flags).apply (tableOf s.mem pt)).isSome = true := by
  unfold mmuMapSection mmuMapSectionWith at hok
  obtain ⟨_, hva, hok⟩ := bind_eq_ok.mp hok
  obtain ⟨_, hpa, hok⟩ := bind_eq_ok.mp hok
  obtain ⟨_, htag, hok⟩ := bind_eq_ok.mp hok
  rw [assert_eq_ok] at hva hpa
  rw [demand_eq_ok, beq_iff_eq, mmuFirstLevelLookup_eq] at htag
  have hentry := (tableOf_eq_fault_iff s.mem pt (firstIndex va)).mpr htag
  obtain ⟨u, hcheck, _⟩ := bind_eq_ok.mp hok
  have hload : (s.store32 (mmuFirstLevelLookup pt va) (sectionWord pa domain flags)).mem.load32
      (mmuFirstLevelLookup pt va) = sectionWord pa domain flags := Mem.load32_store32_same _ _ _
  have hprint : flagsPrintable flags = true := by
    rw [← sectionCheckValid_sectionWord pa domain flags, ← hload]
    exact hcheck
  exact Option.isSome_iff_exists.mpr
    ⟨_, MapCall.apply_sec_eq_some.mpr ⟨hentry, hva, hpa, hprint, rfl⟩⟩

/-- `mmu_map_sm_page` performs its table update. -/
theorem refines_sm {va pa domain flags : BitVec 32} {t : Table}
    (h : Layout s.mem pt s.heap.toNat)
    (hfit : (MapCall.mk .sm va pa domain flags).heapEnd s pt < 2 ^ 32)
    (happly : (MapCall.mk .sm va pa domain flags).apply (tableOf s.mem pt) = some t) :
    (MapCall.mk .sm va pa domain flags).Refines s pt t := by
  obtain ⟨d, entries, hcoarse, hva, hpa, hfree, happly⟩ :=
    MapCall.apply_sm_eq_some.mp happly
  obtain ⟨s₁, hok, heffect, his, htable⟩ := ensureCoarse_effect h domain
    (MapCall.fit_of_heapEnd hfit (by simp)) hcoarse
  obtain ⟨heffect', _, htable'⟩ :=
    storeEntry_effect heffect his htable (secondIndex va) (smPageWord pa flags)
  have hpte : mmuSecondLevelLookup s₁ (firstAddr pt (firstIndex va)) va =
      secondAddr (coarseBase (firstWord s₁.mem pt (firstIndex va))) (secondIndex va) :=
    mmuSecondLevelLookup_eq _ _ _
  have htag : (SmPageDesc.tag.get (s₁.mem.load32 (secondAddr (coarseBase
      (firstWord s₁.mem pt (firstIndex va))) (secondIndex va)))).setWidth 2 = fldFaultTag := by
    rw [← isSm_decodeSecond, (entries_of_update his htable).2]
    exact hfree
  refine ⟨_, map_snd_eq_ok.mpr ⟨secondAddr (coarseBase (firstWord s₁.mem pt (firstIndex va)))
    (secondIndex va), ?_⟩, heffect', ?_⟩
  · unfold mmuMapSmPage
    simp only [mmuFirstLevelLookup_eq]
    refine bind_eq_ok.mpr ⟨(), assert_eq_ok.mpr hva, bind_eq_ok.mpr ⟨(), assert_eq_ok.mpr hpa,
      bind_eq_ok.mpr ⟨s₁, hok, ?_⟩⟩⟩
    rw [hpte]
    exact bind_eq_ok.mpr ⟨(), assert_eq_ok.mpr (beq_iff_eq.mpr htag), rfl⟩
  · rw [htable', decodeSecond_smPageWord, ← putLg_one]
    exact happly

/-- `mmu_map_sm_page` returns only where its table update is defined. -/
theorem apply_isSome_sm {va pa domain flags r : BitVec 32} {s' : State}
    (h : Layout s.mem pt s.heap.toNat)
    (hfit : (MapCall.mk .sm va pa domain flags).heapEnd s pt < 2 ^ 32)
    (hok : mmuMapSmPage s pt va pa domain flags = .ok (r, s')) :
    ((MapCall.mk .sm va pa domain flags).apply (tableOf s.mem pt)).isSome = true := by
  unfold mmuMapSmPage at hok
  simp only [mmuFirstLevelLookup_eq] at hok
  obtain ⟨_, hva, hok⟩ := bind_eq_ok.mp hok
  obtain ⟨_, hpa, hok⟩ := bind_eq_ok.mp hok
  obtain ⟨s₁, hensure, hok⟩ := bind_eq_ok.mp hok
  obtain ⟨_, htag, _⟩ := bind_eq_ok.mp hok
  rw [assert_eq_ok] at hva hpa
  obtain ⟨⟨d, entries⟩, hcoarse⟩ := Option.isSome_iff_exists.mp
    (asCoarse_isSome_of_ensureCoarse hensure (domain.setWidth 4))
  obtain ⟨s₂, hok₂, _, his, htable⟩ := ensureCoarse_effect h domain
    (MapCall.fit_of_heapEnd hfit (by simp)) hcoarse
  obtain rfl : s₁ = s₂ := Except.ok.inj (hensure.symm.trans hok₂)
  have hfree : (entries (secondIndex va)).isSm = false := by
    rw [← (entries_of_update his htable).2, isSm_decodeSecond]
    rw [assert_eq_ok, beq_iff_eq, mmuSecondLevelLookup_eq] at htag
    exact htag
  exact Option.isSome_iff_exists.mpr
    ⟨_, MapCall.apply_sm_eq_some.mpr ⟨d, entries, hcoarse, hva, hpa, hfree, rfl⟩⟩

/-- The assertion of `mmu_map_lg_page` on sixteen tags, in terms of entries. -/
theorem all_tags_fault_iff {s₁ : State} {base : BitVec 32} {j : BitVec 8}
    {entries : BitVec 8 → SecondLevel} (hj : j.toNat ≤ 240)
    (hentries : ∀ k, decodeSecond (s₁.mem.load32 (secondAddr base k)) = entries k) :
    ((List.range 16).all fun n =>
      LgPageDesc.tag.get (s₁.mem.load32 (pteAt (secondAddr base j) n)) == fldFaultTag) = true ↔
    ∀ k : BitVec 8, j.toNat ≤ k.toNat → k.toNat < j.toNat + 16 → entries k = .fault := by
  have hentry : ∀ n < 16, LgPageDesc.tag.get (s₁.mem.load32 (pteAt (secondAddr base j) n)) =
      fldFaultTag ↔ entries (j + BitVec.ofNat 8 n) = .fault := by
    intro n hn
    rw [pteAt_secondAddr base (by omega), ← decodeSecond_eq_fault_iff, hentries]
  simp only [List.all_eq_true, List.mem_range, beq_iff_eq]
  constructor
  · intro h k hjk hk
    have hidx : j + BitVec.ofNat 8 (k.toNat - j.toNat) = k := by
      apply BitVec.eq_of_toNat_eq
      rw [BitVec.toNat_add, BitVec.toNat_ofNat]
      omega
    rw [← hidx]
    exact (hentry _ (by omega)).mp (h _ (by omega))
  · intro h n hn
    apply (hentry n hn).mpr
    have hidx : (j + BitVec.ofNat 8 n).toNat = j.toNat + n := by
      rw [BitVec.toNat_add, BitVec.toNat_ofNat]
      omega
    exact h _ (by omega) (by omega)

/-- The bound that `mmu_map_lg_page` puts on its first index. -/
theorem le_maxLargePageIdx_iff (va : BitVec 32) :
    getSecondLevelTableIdx va ≤ maxLargePageIdx ↔ (secondIndex va).toNat ≤ 240 := by
  have hj := (secondIndex va).isLt
  rw [getSecondLevelTableIdx_eq, BitVec.le_def, BitVec.toNat_setWidth,
    Nat.mod_eq_of_lt (by omega)]
  rfl

/-- `mmu_map_lg_page` performs its table update. -/
theorem refines_lg {va pa domain flags : BitVec 32} {t : Table}
    (h : Layout s.mem pt s.heap.toNat)
    (hfit : (MapCall.mk .lg va pa domain flags).heapEnd s pt < 2 ^ 32)
    (happly : (MapCall.mk .lg va pa domain flags).apply (tableOf s.mem pt) = some t) :
    (MapCall.mk .lg va pa domain flags).Refines s pt t := by
  obtain ⟨d, entries, hcoarse, hva, hpa, hj, hfree, happly⟩ :=
    MapCall.apply_lg_eq_some.mp happly
  obtain ⟨s₁, hok, heffect, his, htable⟩ := ensureCoarse_effect h domain
    (MapCall.fit_of_heapEnd hfit (by simp)) hcoarse
  obtain ⟨heffect', _, htable'⟩ := storeLgPages_effect heffect his htable (secondIndex va)
    (lgPageWord pa flags) 16 (by omega)
  have hpte : mmuSecondLevelLookup s₁ (firstAddr pt (firstIndex va)) va =
      secondAddr (coarseBase (firstWord s₁.mem pt (firstIndex va))) (secondIndex va) :=
    mmuSecondLevelLookup_eq _ _ _
  have htags := (all_tags_fault_iff hj (entries_of_update his htable).2).mpr hfree
  refine ⟨_, map_snd_eq_ok.mpr ⟨secondAddr (coarseBase (firstWord s₁.mem pt (firstIndex va)))
    (secondIndex va), ?_⟩, heffect', ?_⟩
  · unfold mmuMapLgPage
    simp only [mmuFirstLevelLookup_eq]
    refine bind_eq_ok.mpr ⟨(), assert_eq_ok.mpr hva, bind_eq_ok.mpr ⟨(), assert_eq_ok.mpr hpa,
      bind_eq_ok.mpr ⟨(), assert_eq_ok.mpr ?_, bind_eq_ok.mpr ⟨s₁, hok, ?_⟩⟩⟩⟩
    · exact decide_eq_true ((le_maxLargePageIdx_iff va).mpr hj)
    · rw [hpte]
      exact bind_eq_ok.mpr ⟨(), assert_eq_ok.mpr htags, rfl⟩
  · rw [htable', decodeSecond_lgPageWord]
    exact happly

/-- `mmu_map_lg_page` returns only where its table update is defined. -/
theorem apply_isSome_lg {va pa domain flags r : BitVec 32} {s' : State}
    (h : Layout s.mem pt s.heap.toNat)
    (hfit : (MapCall.mk .lg va pa domain flags).heapEnd s pt < 2 ^ 32)
    (hok : mmuMapLgPage s pt va pa domain flags = .ok (r, s')) :
    ((MapCall.mk .lg va pa domain flags).apply (tableOf s.mem pt)).isSome = true := by
  unfold mmuMapLgPage at hok
  simp only [mmuFirstLevelLookup_eq] at hok
  obtain ⟨_, hva, hok⟩ := bind_eq_ok.mp hok
  obtain ⟨_, hpa, hok⟩ := bind_eq_ok.mp hok
  obtain ⟨_, hidx, hok⟩ := bind_eq_ok.mp hok
  obtain ⟨s₁, hensure, hok⟩ := bind_eq_ok.mp hok
  obtain ⟨_, htags, _⟩ := bind_eq_ok.mp hok
  rw [assert_eq_ok] at hva hpa
  have hj : (secondIndex va).toNat ≤ 240 :=
    (le_maxLargePageIdx_iff va).mp (of_decide_eq_true (assert_eq_ok.mp hidx))
  obtain ⟨⟨d, entries⟩, hcoarse⟩ := Option.isSome_iff_exists.mp
    (asCoarse_isSome_of_ensureCoarse hensure (domain.setWidth 4))
  obtain ⟨s₂, hok₂, _, his, htable⟩ := ensureCoarse_effect h domain
    (MapCall.fit_of_heapEnd hfit (by simp)) hcoarse
  obtain rfl : s₁ = s₂ := Except.ok.inj (hensure.symm.trans hok₂)
  have hpte : mmuSecondLevelLookup s₁ (firstAddr pt (firstIndex va)) va =
      secondAddr (coarseBase (firstWord s₁.mem pt (firstIndex va))) (secondIndex va) :=
    mmuSecondLevelLookup_eq _ _ _
  rw [assert_eq_ok, hpte] at htags
  have hfree := (all_tags_fault_iff hj (entries_of_update his htable).2).mp htags
  exact Option.isSome_iff_exists.mpr
    ⟨_, MapCall.apply_lg_eq_some.mpr ⟨d, entries, hcoarse, hva, hpa, hj, hfree, rfl⟩⟩

/-- A mapping call performs its table update whenever that is defined. -/
theorem MapCall.refines {c : MapCall} {t : Table} (h : Layout s.mem pt s.heap.toNat)
    (hfit : c.heapEnd s pt < 2 ^ 32) (happly : c.apply (tableOf s.mem pt) = some t) :
    c.Refines s pt t := by
  obtain ⟨kind, va, pa, domain, flags⟩ := c
  cases kind with
  | sec => exact refines_sec h happly
  | sm => exact refines_sm h hfit happly
  | lg => exact refines_lg h hfit happly

/-- A mapping call returns exactly when its table update is defined, and then
memory holds the updated table. -/
theorem MapCall.apply_of_exec {c : MapCall} {s' : State} (h : Layout s.mem pt s.heap.toNat)
    (hfit : c.heapEnd s pt < 2 ^ 32) (hok : c.exec s pt = .ok s') :
    c.apply (tableOf s.mem pt) = some (tableOf s'.mem pt) ∧
      MapEffect s s' pt (firstIndex c.va) := by
  have hsome : (c.apply (tableOf s.mem pt)).isSome = true := by
    obtain ⟨kind, va, pa, domain, flags⟩ := c
    obtain ⟨r, hr⟩ := map_snd_eq_ok.mp hok
    cases kind with
    | sec => exact apply_isSome_sec hr
    | sm => exact apply_isSome_sm h hfit hr
    | lg => exact apply_isSome_lg h hfit hr
  obtain ⟨t, ht⟩ := Option.isSome_iff_exists.mp hsome
  obtain ⟨s₂, hok₂, heffect, htable⟩ := MapCall.refines h hfit ht
  obtain rfl : s' = s₂ := Except.ok.inj (hok.symm.trans hok₂)
  exact ⟨by rw [ht, htable], heffect⟩

end RpiVm
