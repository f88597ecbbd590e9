import RpiVm.Mmu.World

/-!
# What a mapping call maps

First on table values: inside the requested range an update translates as
asked, outside it translates as before, and the only entry it can replace is
that of a large page in the way of a small one. Then the same on runs over
memory.
-/

namespace RpiVm

open CLib Transition

/-! ## Addresses and indices -/

/-- A mapping request covers the addresses of its page. -/
def MapCall.Covers (c : MapCall) (x : BitVec 32) : Prop :=
  c.va.toNat ≤ x.toNat ∧ x.toNat < c.va.toNat + c.kind.size

instance (c : MapCall) (x : BitVec 32) : Decidable (c.Covers x) := by
  unfold MapCall.Covers; infer_instance

/-- The first-level index as a quotient. -/
theorem firstIndex_toNat (x : BitVec 32) : (firstIndex x).toNat = x.toNat / 2 ^ 20 := by
  have hx := x.isLt
  simp only [firstIndex, BitVec.extractLsb'_toNat, Nat.shiftRight_eq_div_pow]
  omega

/-- The second-level index as a quotient. -/
theorem secondIndex_toNat (x : BitVec 32) : (secondIndex x).toNat = x.toNat / 2 ^ 12 % 256 := by
  simp only [secondIndex, BitVec.extractLsb'_toNat, Nat.shiftRight_eq_div_pow]

/-- Two addresses share a first-level entry when they lie in one megabyte. -/
theorem firstIndex_eq_iff (x y : BitVec 32) :
    firstIndex x = firstIndex y ↔ x.toNat / 2 ^ 20 = y.toNat / 2 ^ 20 := by
  rw [← BitVec.toNat_inj, firstIndex_toNat, firstIndex_toNat]

/-- Every pair of indices belongs to an address. -/
theorem exists_indices (i : BitVec 12) (j : BitVec 8) : ∃ x : BitVec 32,
    x.toNat = i.toNat * 2 ^ 20 + j.toNat * 2 ^ 12 ∧ firstIndex x = i ∧ secondIndex x = j := by
  have hi := i.isLt
  have hj := j.isLt
  obtain ⟨x, hx⟩ : ∃ x : BitVec 32, x.toNat = i.toNat * 2 ^ 20 + j.toNat * 2 ^ 12 :=
    ⟨BitVec.ofNat 32 (i.toNat * 2 ^ 20 + j.toNat * 2 ^ 12), by rw [BitVec.toNat_ofNat]; omega⟩
  refine ⟨x, hx, BitVec.eq_of_toNat_eq ?_, BitVec.eq_of_toNat_eq ?_⟩
  · rw [firstIndex_toNat, hx]
    omega
  · rw [secondIndex_toNat, hx]
    omega

/-- The value of a word made of a high and a low part. -/
theorem toNat_append_eq {m n : ℕ} (x : BitVec m) (y : BitVec n) :
    (x ++ y).toNat = x.toNat * 2 ^ n + y.toNat := by
  rw [BitVec.toNat_append, ← Nat.shiftLeft_add_eq_or_of_lt y.isLt, Nat.shiftLeft_eq]

/-- The top bits of an aligned physical address with the low bits of an
address in the page. -/
theorem toNat_page_append {m n : ℕ} (hmn : m + n = 32) {va pa o : BitVec 32}
    (hva : va.toNat % 2 ^ n = 0) (hpa : pa.toNat % 2 ^ n = 0) (ho : o.toNat < 2 ^ n) :
    (pa.extractLsb' n m ++ (va + o).extractLsb' 0 n).toNat = (pa + o).toNat := by
  have hpow : 2 ^ m * 2 ^ n = 2 ^ 32 := by rw [← Nat.pow_add, hmn]
  have hdvd : 2 ^ n ∣ 2 ^ 32 := ⟨2 ^ m, by rw [← hpow, Nat.mul_comm]⟩
  have hq : pa.toNat / 2 ^ n < 2 ^ m :=
    (Nat.div_lt_iff_lt_mul (Nat.two_pow_pos n)).mpr (hpow ▸ pa.isLt)
  have hlow : (va + o).toNat % 2 ^ n = o.toNat := by
    rw [BitVec.toNat_add, Nat.mod_mod_of_dvd _ hdvd, Nat.add_mod, hva, Nat.zero_add, Nat.mod_mod,
      Nat.mod_eq_of_lt ho]
  have hpa' : pa.toNat / 2 ^ n * 2 ^ n = pa.toNat := Nat.div_mul_cancel (Nat.dvd_of_mod_eq_zero hpa)
  have hsum : pa.toNat + o.toNat < 2 ^ 32 := by
    have hnext := Nat.mul_le_mul_right (2 ^ n) (Nat.succ_le_of_lt hq)
    rw [hpow, Nat.succ_mul, hpa'] at hnext
    omega
  rw [toNat_append_eq, BitVec.extractLsb'_toNat, BitVec.extractLsb'_toNat,
    Nat.shiftRight_eq_div_pow, Nat.shiftRight_eq_div_pow, Nat.pow_zero, Nat.div_one, hlow,
    Nat.mod_eq_of_lt hq, hpa', BitVec.toNat_add, Nat.mod_eq_of_lt hsum]

/-- Adding an offset below the page size to an aligned address does not wrap. -/
theorem MapCall.Aligned.toNat_add {c : MapCall} (h : c.Aligned) {o : BitVec 32}
    (ho : o.toNat < c.kind.size) : (c.va + o).toNat = c.va.toNat + o.toNat := by
  have hlt := c.va.isLt
  obtain ⟨hva, _⟩ := h
  rw [BitVec.toNat_add]
  apply Nat.mod_eq_of_lt
  cases hkind : c.kind <;> simp only [hkind, PageKind.size] at hva ho <;> omega

/-! ## The three updates -/

/-- The entries that a page mapping finds translate like the first-level entry. -/
theorem FirstLevel.asCoarse_walk {e : FirstLevel} {domain d : BitVec 4}
    {entries : BitVec 8 → SecondLevel} (h : e.asCoarse domain = some (d, entries))
    (x : BitVec 32) : e.walk x = (entries (secondIndex x)).walk d x := by
  cases e with
  | fault =>
    obtain ⟨-, rfl⟩ : domain = d ∧ (fun _ => SecondLevel.fault) = entries := by
      simpa [asCoarse] using h
    rfl
  | coarse d' entries' =>
    obtain ⟨rfl, rfl⟩ : d' = d ∧ entries' = entries := by simpa [asCoarse] using h
    rfl
  | sec => simp [asCoarse] at h
  | reserved => simp [asCoarse] at h

/-- What a page mapping writes, and how many entries of the coarse table it fills. -/
def MapCall.pageEntry (c : MapCall) : SecondLevel × ℕ :=
  if c.kind = .lg then (.lg (c.pa.extractLsb' 16 16) (flagAttrs c.flags), 16)
  else (.sm (c.pa.extractLsb' 12 20) (flagAttrs c.flags), 1)

/-- A defined update is a section in an unused entry, or a page in a coarse
table where entries are unused or, for a small page, belong to a large page. -/
theorem MapCall.apply_cases {c : MapCall} {t t' : Table} (h : c.apply t = some t') :
    (c.kind = .sec ∧ t (firstIndex c.va) = .fault ∧
      t' = Function.update t (firstIndex c.va)
        (.sec (c.pa.extractLsb' 20 12) (c.domain.setWidth 4) (flagAttrs c.flags))) ∨
    (c.kind ≠ .sec ∧ ∃ d entries,
      (t (firstIndex c.va)).asCoarse (c.domain.setWidth 4) = some (d, entries) ∧
      (c.kind = .sm → (entries (secondIndex c.va)).isSm = false) ∧
      (c.kind = .lg → (secondIndex c.va).toNat ≤ 240 ∧ ∀ k : BitVec 8,
        (secondIndex c.va).toNat ≤ k.toNat → k.toNat < (secondIndex c.va).toNat + 16 →
          entries k = .fault) ∧
      t' = Function.update t (firstIndex c.va)
        (.coarse d (putLg entries (secondIndex c.va) c.pageEntry.2 c.pageEntry.1))) := by
  obtain ⟨kind, va, pa, domain, flags⟩ := c
  cases kind with
  | sec =>
    left
    obtain ⟨hfault, _, _, _, rfl⟩ := apply_sec_eq_some.mp h
    exact ⟨rfl, hfault, rfl⟩
  | sm =>
    right
    obtain ⟨d, entries, hcoarse, _, _, hsm, rfl⟩ := apply_sm_eq_some.mp h
    exact ⟨by simp, d, entries, hcoarse, fun _ => hsm, by simp, rfl⟩
  | lg =>
    right
    obtain ⟨d, entries, hcoarse, _, _, hj, hfree, rfl⟩ := apply_lg_eq_some.mp h
    exact ⟨by simp, d, entries, hcoarse, by simp, fun _ => ⟨hj, hfree⟩, rfl⟩

/-- The entries that a page mapping fills are those of the addresses it covers. -/
theorem MapCall.Aligned.covers_iff {c : MapCall} (h : c.Aligned) (hkind : c.kind ≠ .sec)
    (hlg : c.kind = .lg → (secondIndex c.va).toNat ≤ 240) (x : BitVec 32) :
    c.Covers x ↔ firstIndex x = firstIndex c.va ∧
      (secondIndex c.va).toNat ≤ (secondIndex x).toNat ∧
      (secondIndex x).toNat < (secondIndex c.va).toNat + c.pageEntry.2 := by
  obtain ⟨hva, _⟩ := h
  rw [firstIndex_eq_iff, secondIndex_toNat, secondIndex_toNat, Covers, pageEntry]
  rw [secondIndex_toNat] at hlg
  cases hk : c.kind with
  | sec => exact absurd hk hkind
  | sm =>
    simp only [hk, PageKind.size, reduceCtorEq, if_false] at hva ⊢
    omega
  | lg =>
    have hidx := hlg hk
    simp only [hk, PageKind.size, if_true] at hva ⊢
    omega

/-- Inside the requested range, the updated table translates as asked. -/
theorem MapCall.apply_walk_inside {c : MapCall} {t t' : Table} (h : c.apply t = some t')
    (haligned : c.Aligned) {o : BitVec 32} (ho : o.toNat < c.kind.size) :
    ∃ r, t'.walk (c.va + o) = some r ∧ r.pa = c.pa + o ∧ r.attrs = flagAttrs c.flags ∧
      (c.kind = .sec → r.domain = c.domain.setWidth 4) := by
  have hadd := haligned.toNat_add ho
  have hcovers : c.Covers (c.va + o) := ⟨by omega, by omega⟩
  rcases c.apply_cases h with ⟨hkind, _, rfl⟩ | ⟨hkind, d, entries, _, _, hlg, rfl⟩
  · obtain ⟨hva, hpa⟩ := haligned
    rw [hkind] at hva hpa ho
    have hidx : firstIndex (c.va + o) = firstIndex c.va := by
      rw [firstIndex_eq_iff, hadd]
      simp only [PageKind.size] at hva ho
      omega
    refine ⟨_, by rw [Table.walk, hidx, Function.update_self]; rfl, ?_, rfl, fun _ => rfl⟩
    exact BitVec.eq_of_toNat_eq (toNat_page_append (by decide) hva hpa ho)
  · obtain ⟨hidx, hlo, hhi⟩ :=
      (haligned.covers_iff hkind (fun hk => (hlg hk).1) _).mp hcovers
    obtain ⟨hva, hpa⟩ := haligned
    have hwalk : Table.walk (Function.update t (firstIndex c.va)
        (.coarse d (putLg entries (secondIndex c.va) c.pageEntry.2 c.pageEntry.1))) (c.va + o) =
        c.pageEntry.1.walk d (c.va + o) := by
      rw [Table.walk, hidx, Function.update_self, FirstLevel.walk, putLg, if_pos ⟨hlo, hhi⟩]
    cases hk : c.kind with
    | sec => exact absurd hk hkind
    | sm =>
      rw [hk] at hva hpa ho
      refine ⟨_, by rw [hwalk, pageEntry, if_neg (by simp [hk])]; rfl, ?_, rfl, by simp⟩
      exact BitVec.eq_of_toNat_eq (toNat_page_append (by decide) hva hpa ho)
    | lg =>
      rw [hk] at hva hpa ho
      refine ⟨_, by rw [hwalk, pageEntry, if_pos hk]; rfl, ?_, rfl, by simp⟩
      exact BitVec.eq_of_toNat_eq (toNat_page_append (by decide) hva hpa ho)

/-- Outside the requested range, the updated table translates as before. -/
theorem MapCall.apply_walk_outside {c : MapCall} {t t' : Table} (h : c.apply t = some t')
    (haligned : c.Aligned) {x : BitVec 32} (hx : ¬ c.Covers x) : t'.walk x = t.walk x := by
  by_cases hidx : firstIndex x = firstIndex c.va
  · rcases c.apply_cases h with ⟨hkind, _, rfl⟩ | ⟨hkind, d, entries, hcoarse, _, hlg, rfl⟩
    · -- an address in the same megabyte is covered by a section
      exfalso
      apply hx
      have hva := haligned.1
      rw [firstIndex_eq_iff] at hidx
      rw [hkind] at hva
      simp only [PageKind.size] at hva
      simp only [Covers, hkind, PageKind.size]
      omega
    · rw [haligned.covers_iff hkind fun hk => (hlg hk).1] at hx
      have hentry : ¬ ((secondIndex c.va).toNat ≤ (secondIndex x).toNat ∧
          (secondIndex x).toNat < (secondIndex c.va).toNat + c.pageEntry.2) :=
        fun hin => hx ⟨hidx, hin⟩
      rw [Table.walk, Table.walk, hidx, Function.update_self, FirstLevel.asCoarse_walk hcoarse,
        FirstLevel.walk, putLg, if_neg hentry]
  · rcases c.apply_cases h with ⟨_, _, rfl⟩ | ⟨_, _, _, _, _, _, rfl⟩
    · rw [Table.walk, Function.update_of_ne hidx, Table.walk]
    · rw [Table.walk, Function.update_of_ne hidx, Table.walk]

/-- True multiples of the page size pass the alignment assertions. -/
theorem MapCall.Aligned.isAligned {c : MapCall} (h : c.Aligned) :
    match c.kind with
    | .sec => RpiVm.isAligned c.va 20 = true ∧ RpiVm.isAligned c.pa 20 = true
    | .sm => RpiVm.isAligned c.va 12 = true ∧ RpiVm.isAligned c.pa 12 = true
    | .lg => RpiVm.isAligned c.va 16 = true ∧ RpiVm.isAligned c.pa 16 = true := by
  obtain ⟨hva, hpa⟩ := h
  cases hk : c.kind with
  | sec =>
    rw [hk] at hva hpa
    exact ⟨isAligned_of_mod (k := 20) (by decide) (by decide) hva,
      isAligned_of_mod (k := 20) (by decide) (by decide) hpa⟩
  | sm =>
    rw [hk] at hva hpa
    exact ⟨isAligned_of_mod (k := 12) (by decide) (by decide) hva,
      isAligned_of_mod (k := 12) (by decide) (by decide) hpa⟩
  | lg =>
    rw [hk] at hva hpa
    exact ⟨isAligned_of_mod (k := 16) (by decide) (by decide) hva,
      isAligned_of_mod (k := 16) (by decide) (by decide) hpa⟩

/-- An aligned request in an unused first-level entry is accepted. -/
theorem MapCall.Aligned.apply_isSome {c : MapCall} (h : c.Aligned) {t : Table}
    (hfault : t (firstIndex c.va) = .fault)
    (hflags : c.kind = .sec → flagsPrintable c.flags = true) : (c.apply t).isSome = true := by
  have haligned := h.isAligned
  obtain ⟨hva, _⟩ := h
  unfold MapCall.apply
  cases hk : c.kind with
  | sec =>
    rw [hk] at haligned
    simpa [hfault, hflags hk] using haligned
  | sm =>
    rw [hk] at haligned
    simpa [hfault, FirstLevel.asCoarse, SecondLevel.isSm] using haligned
  | lg =>
    have hidx : (secondIndex c.va).toNat ≤ 240 := by
      rw [hk] at hva
      rw [secondIndex_toNat]
      simp only [PageKind.size] at hva
      omega
    rw [hk] at haligned
    simpa [hfault, FirstLevel.asCoarse, hidx] using haligned

/-- An aligned request for a small page is accepted in a coarse table unless a
small page is there. -/
theorem MapCall.Aligned.apply_isSome_sm {c : MapCall} (h : c.Aligned) (hk : c.kind = .sm)
    {t : Table} {d : BitVec 4} {entries : BitVec 8 → SecondLevel}
    (hentry : t (firstIndex c.va) = .coarse d entries)
    (hfree : (entries (secondIndex c.va)).isSm = false) : (c.apply t).isSome = true := by
  have haligned := h.isAligned
  rw [hk] at haligned
  simpa [MapCall.apply, hk, hentry, FirstLevel.asCoarse, hfree] using haligned

/-! ## Translations that an update keeps -/

/-- The large page that a table holds at an address. -/
def Table.largeAt (t : Table) (x : BitVec 32) : Option (BitVec 16 × Attrs) :=
  match t (firstIndex x) with
  | .coarse _ entries =>
    match entries (secondIndex x) with
    | .lg base attrs => some (base, attrs)
    | _ => none
  | _ => none

/-- A request for a small page does not fall on a large page, unless it asks
for what the large page already provides there. -/
def MapCall.SparesLarge (c : MapCall) (t : Table) : Prop :=
  c.kind = .sm → ∀ base attrs, t.largeAt c.va = some (base, attrs) →
    base ++ c.va.extractLsb' 0 16 = c.pa ∧ attrs = flagAttrs c.flags

/-- Every address that translates keeps its physical address and attributes. -/
def Table.Keeps (t t' : Table) : Prop :=
  ∀ x r, t.walk x = some r → ∃ r', t'.walk x = some r' ∧ r'.pa = r.pa ∧ r'.attrs = r.attrs

theorem Table.Keeps.refl (t : Table) : t.Keeps t := fun _ r h => ⟨r, h, rfl, rfl⟩

/-- A covered address translates only where a small page was put on a large one. -/
theorem MapCall.walk_covered {c : MapCall} {t t' : Table} (h : c.apply t = some t')
    (haligned : c.Aligned) {x : BitVec 32} (hx : c.Covers x) {r : Translation}
    (hr : t.walk x = some r) : c.kind = .sm ∧ ∃ base attrs,
      t.largeAt c.va = some (base, attrs) ∧ r.pa = base ++ x.extractLsb' 0 16 ∧
        r.attrs = attrs := by
  rcases c.apply_cases h with ⟨hkind, hfault, _⟩ | ⟨hkind, d, entries, hcoarse, hsm, hlg, _⟩
  · -- a section is put where nothing in the megabyte translates
    exfalso
    have hidx : firstIndex x = firstIndex c.va := by
      have hva := haligned.1
      rw [firstIndex_eq_iff]
      rw [hkind] at hva
      simp only [Covers, hkind, PageKind.size] at hx hva ⊢
      omega
    rw [Table.walk, hidx, hfault] at hr
    simp [FirstLevel.walk] at hr
  · obtain ⟨hidx, hlo, hhi⟩ := (haligned.covers_iff hkind (fun hk => (hlg hk).1) x).mp hx
    have hwalk : t.walk x = (entries (secondIndex x)).walk d x := by
      rw [Table.walk, hidx, FirstLevel.asCoarse_walk hcoarse]
    rw [hwalk] at hr
    cases hk : c.kind with
    | sec => exact absurd hk hkind
    | lg =>
      exfalso
      rw [pageEntry, if_pos hk] at hhi
      rw [(hlg hk).2 _ hlo hhi] at hr
      simp [SecondLevel.walk] at hr
    | sm =>
      rw [pageEntry, if_neg (by simp [hk])] at hhi
      have hj : secondIndex x = secondIndex c.va :=
        BitVec.eq_of_toNat_eq (by simp only at hhi; omega)
      have hfree := hsm hk
      rw [hj] at hr
      cases hentry : entries (secondIndex c.va) with
      | fault => simp [hentry, SecondLevel.walk] at hr
      | sm => simp [hentry, SecondLevel.isSm] at hfree
      | lg base attrs =>
        rw [hentry] at hr
        refine ⟨rfl, base, attrs, ?_, ?_⟩
        · cases hfirst : t (firstIndex c.va) with
          | fault =>
            simp only [hfirst, FirstLevel.asCoarse, Option.some.injEq, Prod.mk.injEq] at hcoarse
            rw [← hcoarse.2] at hentry
            exact absurd hentry (by simp)
          | coarse d' entries' =>
            simp only [hfirst, FirstLevel.asCoarse, Option.some.injEq, Prod.mk.injEq] at hcoarse
            rw [Table.largeAt, hfirst, hcoarse.2]
            simp only [hentry]
          | sec => simp [hfirst, FirstLevel.asCoarse] at hcoarse
          | reserved => simp [hfirst, FirstLevel.asCoarse] at hcoarse
        · simp only [SecondLevel.walk, Option.some.injEq] at hr
          rw [← hr]
          exact ⟨rfl, rfl⟩

/-- Inside a large page, the offset of an address in a small page adds up. -/
theorem append_extractLsb'_add (base : BitVec 16) {va o : BitVec 32} (hva : va.toNat % 2 ^ 12 = 0)
    (ho : o.toNat < 2 ^ 12) (hadd : (va + o).toNat = va.toNat + o.toNat) :
    base ++ (va + o).extractLsb' 0 16 = base ++ va.extractLsb' 0 16 + o := by
  have hbase := base.isLt
  have hlow : ∀ x : BitVec 32, (base ++ x.extractLsb' 0 16).toNat =
      base.toNat * 2 ^ 16 + x.toNat % 2 ^ 16 := by
    intro x
    rw [toNat_append_eq, BitVec.extractLsb'_toNat, Nat.shiftRight_zero]
  apply BitVec.eq_of_toNat_eq
  rw [BitVec.toNat_add, hlow, hlow, hadd]
  omega

/-- An update keeps all translations exactly when it spares large pages. -/
theorem MapCall.keeps_iff {c : MapCall} {t t' : Table} (h : c.apply t = some t')
    (haligned : c.Aligned) : t.Keeps t' ↔ c.SparesLarge t := by
  constructor
  · intro hkeeps hk base attrs hlarge
    have hwalk : ∃ d, t.walk c.va = some ⟨base ++ c.va.extractLsb' 0 16, d, attrs⟩ := by
      unfold Table.largeAt at hlarge
      split at hlarge
      · rename_i d entries hentry
        split at hlarge
        · rename_i base' attrs' hpage
          cases hlarge
          exact ⟨d, by rw [Table.walk, hentry, FirstLevel.walk, hpage, SecondLevel.walk]⟩
        · simp at hlarge
      · simp at hlarge
    obtain ⟨d, hd⟩ := hwalk
    obtain ⟨r', hr', hpa, hattrs⟩ := hkeeps _ _ hd
    obtain ⟨r, hr, hrpa, hrattrs, _⟩ := c.apply_walk_inside h haligned (o := 0) (by
      rw [hk]
      decide)
    have hzero : ∀ x : BitVec 32, x + 0 = x := fun x => BitVec.add_zero x
    rw [hzero] at hr hrpa
    obtain rfl : r' = r := Option.some.inj (hr'.symm.trans hr)
    exact ⟨hpa.symm.trans hrpa, hattrs.symm.trans hrattrs⟩
  · intro hspares x r hr
    by_cases hx : c.Covers x
    · obtain ⟨hk, base, attrs, hlarge, hpa, hattrs⟩ := c.walk_covered h haligned hx hr
      obtain ⟨hbase, hflags⟩ := hspares hk base attrs hlarge
      have ho : (x - c.va).toNat = x.toNat - c.va.toNat := BitVec.toNat_sub_of_le hx.1
      have hlt : (x - c.va).toNat < c.kind.size := by
        have := hx.2
        have := hx.1
        omega
      have hadd := haligned.toNat_add hlt
      obtain ⟨r', hr', hpa', hattrs', _⟩ := c.apply_walk_inside h haligned hlt
      have hva := haligned.1
      rw [hk] at hva hlt
      have happend := append_extractLsb'_add base hva hlt hadd
      rw [BitVec.add_comm, BitVec.sub_add_cancel] at hr' happend
      exact ⟨r', hr', by rw [hpa', hpa, happend, hbase],
        by rw [hattrs', hattrs, hflags]⟩
    · exact ⟨r, by rw [c.apply_walk_outside h haligned hx, hr], rfl, rfl⟩

/-! ## Mapping calls in runs -/

/-- An operation whose mapping call, if it is one, has page-aligned addresses. -/
def World.AlignedStep (w : World) (op : Op) (w' : World) : Prop :=
  w.Step op w' ∧ ∀ pt c, op = .map pt c → c.Aligned

/-- Runs of aligned operations are runs. -/
theorem World.reachable_of_aligned {w : World}
    (hw : Reachable World.AlignedStep World.Init w) : Reachable World.Step World.Init w :=
  hw.mono fun _ _ _ h => h.1

/-- A fresh machine can allocate a first table. -/
theorem World.exists_first_table : ∃ w, Reachable World.AlignedStep World.Init w ∧
    w.tables = [0x140000#32] ∧ tableOf w.st.mem 0x140000#32 = Table.empty ∧
    w.st.heap.toNat = 0x144000 := by
  obtain ⟨pt, s, hok, halloc, hpt, hempty, _⟩ :=
    (World.start_init 0x140000#32).inv.ptAlloc 4096 (by decide)
  have hbase : pt.toNat = 0x140000 := hpt.trans (by decide)
  obtain rfl : pt = 0x140000#32 := BitVec.eq_of_toNat_eq hbase
  have hreach : Reachable World.AlignedStep World.Init (World.start 0x140000#32) :=
    Reachable.init (World.start_init _)
  exact ⟨_, hreach.step (a := .ptAlloc 4096) ⟨⟨by show _ < _; decide, hok⟩, by simp⟩, rfl, hempty,
    halloc.heap_eq⟩

/-- A first table can hold any aligned page. -/
theorem World.exists_first_page {c : MapCall} (hkind : c.kind ≠ .sec) (hc : c.Aligned) :
    ∃ w, Reachable World.AlignedStep World.Init w ∧ w.tables = [0x140000#32] ∧
      c.apply Table.empty = some (tableOf w.st.mem 0x140000#32) := by
  obtain ⟨w, hw, htables, hempty, hheap⟩ := World.exists_first_table
  obtain ⟨t, ht⟩ := Option.isSome_iff_exists.mp (hc.apply_isSome
    (t := tableOf w.st.mem 0x140000#32) (by rw [hempty]; rfl) fun hsec => absurd hsec hkind)
  obtain ⟨w', hstep, htable⟩ := (World.reachable_inv (World.reachable_of_aligned hw)).map_step
    (by simp [htables]) ((MapCall.heapEnd_le _ _ _).trans_lt (by rw [hheap]; decide)) ht
  refine ⟨w', hw.step ⟨hstep, ?_⟩, by rw [hstep.tables_of_map, htables], ?_⟩
  · rintro _ _ ⟨_, rfl⟩
    exact hc
  · rw [htable, ← hempty, ht]

/-- A mapping call that returns has mapped its range as asked and nothing else. -/
theorem World.Step.map_walk {w w' : World} (h : w.Inv) {pt : BitVec 32} {c : MapCall}
    (hc : c.Aligned) (hstep : w.Step (.map pt c) w') :
    (∀ o : BitVec 32, o.toNat < c.kind.size → ∃ r, walk w'.st.mem pt (c.va + o) = some r ∧
      r.pa = c.pa + o ∧ r.attrs = flagAttrs c.flags ∧
      (c.kind = .sec → r.domain = c.domain.setWidth 4)) ∧
    ∀ x, ¬ c.Covers x → walk w'.st.mem pt x = walk w.st.mem pt x := by
  obtain ⟨happly, _, _⟩ := hstep.map_effect h
  simp only [walk_eq_tableOf_walk]
  exact ⟨fun o ho => c.apply_walk_inside happly hc ho,
    fun x hx => c.apply_walk_outside happly hc hx⟩

/-- In every reachable world, a mapping call that returns has mapped its range
as asked and nothing else. -/
theorem World.map_translates {w w' : World} (hw : Reachable World.Step World.Init w)
    {pt : BitVec 32} {c : MapCall} (hc : c.Aligned) (hstep : w.Step (.map pt c) w') :
    (∀ o : BitVec 32, o.toNat < c.kind.size → ∃ r, walk w'.st.mem pt (c.va + o) = some r ∧
      r.pa = c.pa + o ∧ r.attrs = flagAttrs c.flags ∧
      (c.kind = .sec → r.domain = c.domain.setWidth 4)) ∧
    ∀ x, ¬ c.Covers x → walk w'.st.mem pt x = walk w.st.mem pt x :=
  hstep.map_walk (World.reachable_inv hw) hc

/-- A large page in a fresh table. -/
theorem World.map_translates_largePage : ∃ w w' : World,
    w.Step (.map 0x140000#32 ⟨.lg, 0x100000#32, 0x200000#32, 1, 0⟩) w' ∧
    (∀ o : BitVec 32, o.toNat < 2 ^ 16 → ∃ r, walk w'.st.mem 0x140000#32 (0x100000#32 + o) =
      some r ∧ r.pa = 0x200000#32 + o ∧ r.attrs = flagAttrs 0 ∧
      (PageKind.lg = .sec → r.domain = (1 : BitVec 32).setWidth 4)) ∧
    ∀ x, ¬ (MapCall.mk .lg 0x100000#32 0x200000#32 1 0).Covers x →
      walk w'.st.mem 0x140000#32 x = walk w.st.mem 0x140000#32 x := by
  obtain ⟨w, hw, htables, hempty, hheap⟩ := World.exists_first_table
  obtain ⟨t, ht⟩ := Option.isSome_iff_exists.mp
    (MapCall.Aligned.apply_isSome (c := ⟨.lg, 0x100000#32, 0x200000#32, 1, 0⟩)
      (t := tableOf w.st.mem 0x140000#32) (by decide) (by rw [hempty]; rfl) (by simp))
  obtain ⟨w', hstep, _⟩ := (World.reachable_inv (World.reachable_of_aligned hw)).map_step
    (by simp [htables]) ((MapCall.heapEnd_le _ _ _).trans_lt (by rw [hheap]; decide)) ht
  exact ⟨w, w', hstep, World.map_translates (World.reachable_of_aligned hw) (by decide) hstep⟩

/-- No address that translates changes its physical address or attributes. -/
def World.KeepsTranslations (w w' : World) : Prop :=
  ∀ pt ∈ w.tables, ∀ x r, walk w.st.mem pt x = some r →
    ∃ r', walk w'.st.mem pt x = some r' ∧ r'.pa = r.pa ∧ r'.attrs = r.attrs

/-- An operation that puts no small page on a large page. -/
def Op.SparesLarge (w : World) (op : Op) : Prop :=
  ∀ pt c, op = .map pt c → c.SparesLarge (tableOf w.st.mem pt)

/-- An aligned operation keeps translations exactly when it spares large pages. -/
theorem World.AlignedStep.keeps_iff_spares {w w' : World} {op : Op} (h : w.Inv)
    (hstep : w.AlignedStep op w') : w.KeepsTranslations w' ↔ op.SparesLarge w := by
  have hkeeps : w.KeepsTranslations w' ↔
      ∀ pt ∈ w.tables, (tableOf w.st.mem pt).Keeps (tableOf w'.st.mem pt) := by
    simp only [World.KeepsTranslations, Table.Keeps, walk_eq_tableOf_walk]
  rw [hkeeps]
  constructor
  · rintro hall pt c rfl
    obtain ⟨happly, _, _⟩ := hstep.1.map_effect h
    exact (c.keeps_iff happly (hstep.2 pt c rfl)).mp (hall pt hstep.1.1.1)
  · intro hspares pt hpt
    by_cases hop : ∃ c, op = .map pt c
    · obtain ⟨c, rfl⟩ := hop
      obtain ⟨happly, _, _⟩ := hstep.1.map_effect h
      exact (c.keeps_iff happly (hstep.2 pt c rfl)).mpr (hspares pt c rfl)
    · rw [hstep.1.tableOf_eq h hpt fun c hc => hop ⟨c, hc⟩]
      exact Table.Keeps.refl _

/-- A run of aligned calls never overwrites a mapping exactly when none of its
calls puts a small page on a large page that maps elsewhere. -/
theorem World.keepsTranslations_iff {w : World} (hw : w.Init) (ops : List Op) :
    EveryStep World.AlignedStep (fun w _ w' => w.KeepsTranslations w') w ops ↔
      EveryStep World.AlignedStep (fun w op _ => op.SparesLarge w) w ops :=
  everyStep_congr (fun _ _ _ hreach hstep =>
    hstep.keeps_iff_spares (World.reachable_inv (World.reachable_of_aligned hreach)))
    (Reachable.init hw) ops

/-- The equivalence for the run below. -/
theorem World.keepsTranslations_iff_start :
    let ops : List Op := [.ptAlloc 4096, .map 0x140000#32 ⟨.lg, 0x100000#32, 0x200000#32, 1, 0⟩,
      .map 0x140000#32 ⟨.sm, 0x101000#32, 0x300000#32, 1, 0⟩]
    EveryStep World.AlignedStep (fun w _ w' => w.KeepsTranslations w') (.start 0x140000#32) ops ↔
      EveryStep World.AlignedStep (fun w op _ => op.SparesLarge w) (.start 0x140000#32) ops :=
  World.keepsTranslations_iff (World.start_init _) _

/-- A small page in the middle of a large page replaces its translation. -/
theorem World.smallPage_replaces_largePage : ∃ w w' : World,
    Reachable World.AlignedStep World.Init w ∧
    w.AlignedStep (.map 0x140000#32 ⟨.sm, 0x101000#32, 0x300000#32, 1, 0⟩) w' ∧
    (walk w.st.mem 0x140000#32 0x101000#32).map Translation.pa = some 0x201000#32 ∧
    (walk w'.st.mem 0x140000#32 0x101000#32).map Translation.pa = some 0x300000#32 := by
  let lg : MapCall := ⟨.lg, 0x100000#32, 0x200000#32, 1, 0⟩
  let sm : MapCall := ⟨.sm, 0x101000#32, 0x300000#32, 1, 0⟩
  have hlg : lg.Aligned := by decide
  obtain ⟨w₁, hw₁, htables, htable⟩ :=
    World.exists_first_page (c := lg) (by decide) hlg
  have hinv := World.reachable_inv (World.reachable_of_aligned hw₁)
  -- the large page leaves a coarse table, and the small page finds no small page in it
  obtain ⟨hused, hsome⟩ : tableOf w₁.st.mem 0x140000#32 (firstIndex sm.va) ≠ .fault ∧
      (sm.apply (tableOf w₁.st.mem 0x140000#32)).isSome = true := by
    have hlo : (secondIndex lg.va).toNat ≤ (secondIndex sm.va).toNat := by decide
    have hhi : (secondIndex sm.va).toNat < (secondIndex lg.va).toNat + 16 := by decide
    rcases lg.apply_cases htable with ⟨hkind, _⟩ | ⟨_, d, entries, _, _, _, heq⟩
    · exact absurd hkind (by decide)
    · have hentry := Function.update_self (firstIndex lg.va) (FirstLevel.coarse d
        (putLg entries (secondIndex lg.va) lg.pageEntry.2 lg.pageEntry.1)) Table.empty
      rw [← heq, show firstIndex lg.va = firstIndex sm.va by decide] at hentry
      refine ⟨by rw [hentry]; simp, MapCall.Aligned.apply_isSome_sm (by decide) rfl hentry ?_⟩
      rw [putLg, MapCall.pageEntry, if_pos rfl, if_pos ⟨hlo, hhi⟩]
      rfl
  obtain ⟨t, ht⟩ := Option.isSome_iff_exists.mp hsome
  obtain ⟨w₂, hstep, _⟩ := hinv.map_step (by simp [htables]) (MapCall.heapEnd_lt_of_used hused) ht
  have hsm : w₁.AlignedStep (.map 0x140000#32 sm) w₂ :=
    ⟨hstep, by simp only [Op.map.injEq]; rintro _ _ ⟨_, rfl⟩; decide⟩
  obtain ⟨r, hr, hrpa, _⟩ := lg.apply_walk_inside htable hlg (o := 0x1000#32) (by decide)
  obtain ⟨r', hr', hrpa', _⟩ := (hstep.map_walk hinv (by decide)).1 0#32 (by decide)
  refine ⟨w₁, w₂, hw₁, hsm, ?_, ?_⟩
  · rw [show (0x101000#32) = lg.va + 0x1000#32 by decide, walk_eq_tableOf_walk, hr,
      Option.map_some, hrpa]
    exact congrArg some (by decide)
  · rw [show (0x101000#32) = sm.va + 0#32 by decide, hr', Option.map_some, hrpa']
    exact congrArg some (by decide)

end RpiVm
