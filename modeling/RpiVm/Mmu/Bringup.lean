import RpiVm.Mmu.Mapping

/-!
# Sequences of mapping calls

A sequence of requests whose ranges are apart is accepted on a fresh table,
call by call, and the table then maps exactly the requested ranges.
-/

namespace RpiVm

open CLib Transition

/-- Two requests do not overlap, and a section shares no first-level entry. -/
def MapCall.Apart (c c' : MapCall) : Prop :=
  (c.va.toNat + c.kind.size ≤ c'.va.toNat ∨ c'.va.toNat + c'.kind.size ≤ c.va.toNat) ∧
    (c.kind = .sec ∨ c'.kind = .sec → firstIndex c.va ≠ firstIndex c'.va)

instance (c c' : MapCall) : Decidable (c.Apart c') := by unfold MapCall.Apart; infer_instance

/-- A request that the mapping functions accept in an empty range. -/
def MapCall.Proper (c : MapCall) : Prop :=
  c.Aligned ∧ (c.kind = .sec → flagsPrintable c.flags = true)

instance (c : MapCall) : Decidable c.Proper := by unfold MapCall.Proper; infer_instance

/-- A request with another domain. -/
def MapCall.withDomain (d : BitVec 32) (c : MapCall) : MapCall := { c with domain := d }

/-- The domain does not matter for whether a list of requests is accepted. -/
theorem proper_withDomain {cs : List MapCall} (d : BitVec 32) (hproper : ∀ c ∈ cs, c.Proper)
    (hapart : cs.Pairwise fun c c' => c'.Apart c) :
    (∀ c ∈ cs.map (MapCall.withDomain d), c.Proper) ∧
      (cs.map (MapCall.withDomain d)).Pairwise fun c c' => c'.Apart c :=
  ⟨List.forall_mem_map.mpr hproper, List.pairwise_map.mpr hapart⟩

/-- A table maps exactly the ranges of the requests in a list. -/
structure Table.Maps (t : Table) (done : List MapCall) : Prop where
  /-- The requests are proper. -/
  proper : ∀ c ∈ done, c.Proper
  /-- First-level entries that no request uses are unused. -/
  unused : ∀ i, (∀ c ∈ done, firstIndex c.va ≠ i) → t i = .fault
  /-- First-level entries that no section uses can hold pages. -/
  pages : ∀ i, (∀ c ∈ done, firstIndex c.va = i → c.kind ≠ .sec) →
    ∀ d, ((t i).asCoarse d).isSome = true
  /-- Addresses outside the ranges do not translate. -/
  outside : ∀ x, (∀ c ∈ done, ¬ c.Covers x) → t.walk x = none
  /-- Addresses inside a range translate as asked. -/
  inside : ∀ c ∈ done, ∀ o : BitVec 32, o.toNat < c.kind.size →
    ∃ r, t.walk (c.va + o) = some r ∧ r.pa = c.pa + o ∧ r.attrs = flagAttrs c.flags ∧
      (c.kind = .sec → r.domain = c.domain.setWidth 4)

/-- An empty table maps nothing. -/
theorem Table.Maps.empty : Table.empty.Maps [] := by
  refine ⟨?_, fun _ _ => rfl, fun _ _ _ => rfl, fun _ _ => rfl, ?_⟩
  · intro c hc
    simp at hc
  · intro c hc
    simp at hc

variable {t t' : Table} {done : List MapCall} {c : MapCall}

/-- A request apart from others does not cover what they cover. -/
theorem MapCall.Apart.not_covers {c' : MapCall} (h : c.Apart c') {x : BitVec 32}
    (hx : c.Covers x) : ¬ c'.Covers x := by
  obtain ⟨hrange, _⟩ := h
  unfold Covers at *
  omega

/-- An entry that does not translate is unused. -/
theorem SecondLevel.eq_fault_of_walk {e : SecondLevel} {d : BitVec 4} {x : BitVec 32}
    (h : e.walk d x = none) : e = .fault := by
  cases e with
  | fault => rfl
  | lg => simp [walk] at h
  | sm => simp [walk] at h

/-- Every entry that a large page fills belongs to an address that it covers. -/
theorem MapCall.Aligned.exists_covered (h : c.Aligned) (hk : c.kind = .lg) {j : BitVec 8}
    (hlo : (secondIndex c.va).toNat ≤ j.toNat) (hhi : j.toNat < (secondIndex c.va).toNat + 16) :
    ∃ x, c.Covers x ∧ firstIndex x = firstIndex c.va ∧ secondIndex x = j := by
  have hva := h.1
  obtain ⟨x, hx, hxi, hxj⟩ := exists_indices (firstIndex c.va) j
  refine ⟨x, ?_, hxi, hxj⟩
  rw [secondIndex_toNat] at hlo hhi
  rw [firstIndex_toNat] at hx
  simp only [hk, PageKind.size] at hva
  unfold MapCall.Covers
  simp only [hk, PageKind.size]
  omega

/-- A proper request apart from the ones before is accepted. -/
theorem Table.Maps.accepts (h : t.Maps done) (hc : c.Proper)
    (hapart : ∀ c' ∈ done, c.Apart c') : (c.apply t).isSome = true := by
  obtain ⟨haligned, hflags⟩ := hc
  by_cases hk : c.kind = .sec
  · have hfault : t (firstIndex c.va) = .fault :=
      h.unused _ fun c' hc' => ((hapart c' hc').2 (Or.inl hk)).symm
    exact haligned.apply_isSome hfault hflags
  · have hsome := h.pages (firstIndex c.va)
      (fun c' hc' heq hsec => (hapart c' hc').2 (Or.inr hsec) heq.symm) (c.domain.setWidth 4)
    obtain ⟨⟨d, entries⟩, hcoarse⟩ := Option.isSome_iff_exists.mp hsome
    -- an entry of the range belongs to an address that does not translate
    have hfree : ∀ x, c.Covers x → firstIndex x = firstIndex c.va →
        entries (secondIndex x) = .fault := by
      intro x hx hidx
      have hnone := h.outside x fun c' hc' => (hapart c' hc').not_covers hx
      rw [Table.walk, hidx, FirstLevel.asCoarse_walk hcoarse] at hnone
      exact SecondLevel.eq_fault_of_walk hnone
    have hchecks := haligned.isAligned
    have hva := haligned.1
    cases hkind : c.kind with
    | sec => exact absurd hkind hk
    | sm =>
      rw [hkind] at hchecks
      have hfault := hfree c.va ⟨le_rfl, by rw [hkind]; exact Nat.lt_add_of_pos_right (by decide)⟩ rfl
      simpa [MapCall.apply, hkind, hcoarse, hfault, SecondLevel.isSm] using hchecks
    | lg =>
      rw [hkind] at hchecks hva
      simp only [PageKind.size] at hva
      have hidx : (secondIndex c.va).toNat ≤ 240 := by
        rw [secondIndex_toNat]
        omega
      have hall : ∀ j : BitVec 8, (secondIndex c.va).toNat ≤ j.toNat →
          j.toNat < (secondIndex c.va).toNat + 16 → entries j = .fault := by
        intro j hlo hhi
        obtain ⟨x, hx, hidx, rfl⟩ := haligned.exists_covered hkind hlo hhi
        exact hfree x hx hidx
      have hcond : isAligned c.va 16 = true ∧ isAligned c.pa 16 = true ∧
          (secondIndex c.va).toNat ≤ 240 ∧ (∀ j : BitVec 8, (secondIndex c.va).toNat ≤ j.toNat →
            j.toNat < (secondIndex c.va).toNat + 16 → entries j = .fault) :=
        ⟨hchecks.1, hchecks.2, hidx, hall⟩
      simp only [MapCall.apply, hkind, hcoarse]
      rw [if_pos hcond]
      rfl

/-- An accepted request adds its range. -/
theorem Table.Maps.cons (h : t.Maps done) (hc : c.Proper) (hapart : ∀ c' ∈ done, c.Apart c')
    (happly : c.apply t = some t') : t'.Maps (c :: done) := by
  have hother : ∀ i, firstIndex c.va ≠ i → t' i = t i := by
    intro i hi
    rcases c.apply_cases happly with ⟨_, _, rfl⟩ | ⟨_, _, _, _, _, _, rfl⟩
    · exact Function.update_of_ne hi.symm _ _
    · exact Function.update_of_ne hi.symm _ _
  refine ⟨?_, ?_, ?_, ?_, ?_⟩
  · intro c' hc'
    rcases List.mem_cons.mp hc' with rfl | hc'
    · exact hc
    · exact h.proper c' hc'
  · intro i hi
    rw [hother i (hi c (List.mem_cons_self))]
    exact h.unused i fun c' hc' => hi c' (List.mem_cons_of_mem _ hc')
  · intro i hi d
    by_cases hci : firstIndex c.va = i
    · subst hci
      have hk := hi c (List.mem_cons_self) rfl
      rcases c.apply_cases happly with ⟨hsec, _⟩ | ⟨_, d', entries, _, _, _, rfl⟩
      · exact absurd hsec hk
      · rw [Function.update_self]
        rfl
    · rw [hother i hci]
      exact h.pages i (fun c' hc' => hi c' (List.mem_cons_of_mem _ hc')) d
  · intro x hx
    rw [c.apply_walk_outside happly hc.1 (hx c (List.mem_cons_self))]
    exact h.outside x fun c' hc' => hx c' (List.mem_cons_of_mem _ hc')
  · intro c' hc' o ho
    rcases List.mem_cons.mp hc' with rfl | hc'
    · exact c'.apply_walk_inside happly hc.1 ho
    · obtain ⟨r, hr, hrest⟩ := h.inside c' hc' o ho
      refine ⟨r, ?_, hrest⟩
      rw [c.apply_walk_outside happly hc.1, hr]
      have hadd := (h.proper c' hc').1.toNat_add ho
      intro hcovers
      exact (hapart c' hc').not_covers hcovers ⟨by omega, by omega⟩

/-! ## The heap that a sequence takes -/

/-- The end of the heap after a list of requests, without a bound: a page in a megabyte
that is not in use takes a coarse table. -/
def heapAfter (h : ℕ) (used : List (BitVec 12)) : List MapCall → ℕ
  | [] => h
  | c :: cs =>
    heapAfter (if c.kind = .sec ∨ firstIndex c.va ∈ used then h else kmallocAlignedEnd h 1024 10)
      (firstIndex c.va :: used) cs

/-- The number of coarse tables that a list of requests takes. -/
def coarseTables (used : List (BitVec 12)) : List MapCall → ℕ
  | [] => 0
  | c :: cs =>
    (if c.kind = .sec ∨ firstIndex c.va ∈ used then 0 else 1) +
      coarseTables (firstIndex c.va :: used) cs

/-- A coarse table ends at a multiple of its size. -/
theorem kmallocAlignedEnd_coarse (h : ℕ) :
    kmallocAlignedEnd h 1024 10 = roundUpNat h 1024 + 1024 := by
  simp only [kmallocAlignedEnd, kmallocEnd, roundUpNat]
  omega

/-- A later start of the heap gives a later end. -/
theorem heapAfter_mono {h h' : ℕ} (hle : h ≤ h') (used : List (BitVec 12)) (cs : List MapCall) :
    heapAfter h used cs ≤ heapAfter h' used cs := by
  induction cs generalizing h h' used with
  | nil => exact hle
  | cons c cs ih =>
    refine ih ?_ _
    split
    · exact hle
    · simp only [kmallocAlignedEnd_coarse, roundUpNat]
      omega

/-- The requests do not lower the end of the heap. -/
theorem le_heapAfter (h : ℕ) (used : List (BitVec 12)) (cs : List MapCall) :
    h ≤ heapAfter h used cs := by
  induction cs generalizing h used with
  | nil => exact le_rfl
  | cons c cs ih =>
    refine le_trans ?_ (ih _ _)
    split
    · exact le_rfl
    · exact le_kmallocAlignedEnd _ _ _

/-- The end of the heap in terms of the number of coarse tables. -/
theorem heapAfter_le (h : ℕ) (used : List (BitVec 12)) (cs : List MapCall) :
    heapAfter h used cs ≤ roundUpNat h 1024 + 1024 * coarseTables used cs := by
  induction cs generalizing h used with
  | nil =>
    have hle : h ≤ roundUpNat h 1024 := le_roundUpNat (by decide)
    exact hle.trans (Nat.le_add_right _ _)
  | cons c cs ih =>
    refine (ih _ _).trans ?_
    rw [coarseTables]
    split
    · omega
    · rw [kmallocAlignedEnd_coarse]
      simp only [roundUpNat]
      omega

/-- A list of requests takes one coarse table for each at most. -/
theorem heapAfter_le_length (h : ℕ) (used : List (BitVec 12)) (cs : List MapCall) :
    heapAfter h used cs ≤ h + 2047 * cs.length := by
  induction cs generalizing h used with
  | nil => exact Nat.le_add_right h _
  | cons c cs ih =>
    refine (ih _ _).trans ?_
    rw [List.length_cons]
    have hend : kmallocAlignedEnd h 1024 10 ≤ h + 2047 := by
      rw [kmallocAlignedEnd_coarse]
      simp only [roundUpNat]
      omega
    split <;> omega

/-- An entry that holds a coarse table has the coarse tag. -/
theorem isCoarse_of_tableOf {m : Mem} {pt : BitVec 32} {i : BitVec 12} {d : BitVec 4}
    {entries : BitVec 8 → SecondLevel} (h : tableOf m pt i = .coarse d entries) :
    IsCoarse (firstWord m pt i) := by
  by_contra hnot
  have htag : ¬ (firstWord m pt i).extractLsb' 0 2 = 0b01#2 := hnot
  unfold tableOf decodeFirst at h
  simp only [htag, if_false] at h
  split_ifs at h

/-- A mapping call that returns takes from the heap what `heapEnd` says. -/
theorem World.Step.heap_le_heapEnd {w w' : World} (h : w.Inv) {pt : BitVec 32}
    (hstep : w.Step (.map pt c) w') : w'.st.heap.toNat ≤ c.heapEnd w.st pt := by
  obtain ⟨happly, heffect, _⟩ := hstep.map_effect h
  unfold MapCall.heapEnd
  split
  · exact heffect.heap_le_end
  · rename_i hnone
    rcases heffect.alloc with ⟨heq, _⟩ | ⟨hold, hnew, _⟩
    · exact (congrArg BitVec.toNat heq).le
    · -- a coarse table was made, so the entry was unused and the call maps a page
      exfalso
      have hentry := tableOf_of_isCoarse hnew
      rcases c.apply_cases happly with ⟨_, _, htable⟩ | ⟨hkind, d, entries, hcoarse, _⟩
      · rw [htable, Function.update_self] at hentry
        exact absurd hentry (by simp)
      · have hused : tableOf w.st.mem pt (firstIndex c.va) ≠ .fault := fun hfault =>
          hnone ⟨hkind, (tableOf_eq_fault_iff _ _ _).mp hfault⟩
        cases hfirst : tableOf w.st.mem pt (firstIndex c.va) with
        | fault => exact hused hfirst
        | coarse => exact hold (isCoarse_of_tableOf hfirst)
        | sec => simp [hfirst, FirstLevel.asCoarse] at hcoarse
        | reserved => simp [hfirst, FirstLevel.asCoarse] at hcoarse

/-- Where a table maps the ranges of a list, a request takes a coarse table only in a
megabyte that the list does not use. -/
theorem Table.Maps.heapEnd_le {s : State} {pt : BitVec 32} (h : (tableOf s.mem pt).Maps done)
    (c : MapCall) : c.heapEnd s pt ≤
      if c.kind = .sec ∨ firstIndex c.va ∈ done.map (fun c => firstIndex c.va) then s.heap.toNat
      else kmallocAlignedEnd s.heap.toNat 1024 10 := by
  unfold MapCall.heapEnd
  by_cases hnew : c.kind = .sec ∨ firstIndex c.va ∈ done.map (fun c => firstIndex c.va)
  · rw [if_pos hnew, if_neg]
    rintro ⟨hkind, htag⟩
    obtain ⟨c', hc', hidx⟩ := List.mem_map.mp (hnew.resolve_left hkind)
    have hpos : (0 : BitVec 32).toNat < c'.kind.size := by
      cases c'.kind <;> decide
    obtain ⟨r, hr, _⟩ := h.inside c' hc' 0 hpos
    have hzero : c'.va + 0 = c'.va := BitVec.add_zero _
    rw [hzero, Table.walk, hidx, (tableOf_eq_fault_iff _ _ _).mpr htag] at hr
    simp [FirstLevel.walk] at hr
  · rw [if_neg hnew]
    split
    · exact le_rfl
    · exact le_kmallocAlignedEnd _ _ _

/-- A list of proper requests that are apart runs to its end on a table while the heap
has room for their coarse tables; the table then maps their ranges too, and other tables
keep theirs. -/
theorem World.Inv.run_maps_heapAfter {w : World} (h : w.Inv) {pt : BitVec 32} (hpt : pt ∈ w.tables)
    (hmaps : (tableOf w.st.mem pt).Maps done) {cs : List MapCall} (hproper : ∀ c ∈ cs, c.Proper)
    (hdone : ∀ c ∈ cs, ∀ c' ∈ done, c.Apart c') (hapart : cs.Pairwise fun c c' => c'.Apart c)
    (hheap : heapAfter w.st.heap.toNat (done.map fun c => firstIndex c.va) cs < 2 ^ 32) :
    ∃ w', Run World.Step w (cs.map (.map pt)) w' ∧ w'.tables = w.tables ∧
      (tableOf w'.st.mem pt).Maps (cs.reverse ++ done) ∧
      w'.st.heap.toNat ≤ heapAfter w.st.heap.toNat (done.map fun c => firstIndex c.va) cs ∧
      ∀ pt' ∈ w.tables, pt' ≠ pt → tableOf w'.st.mem pt' = tableOf w.st.mem pt' := by
  induction cs generalizing w done with
  | nil => exact ⟨w, .nil w, rfl, hmaps, le_rfl, fun _ _ _ => rfl⟩
  | cons c cs ih =>
    have hc := hproper c (List.mem_cons_self)
    have hcapart := hdone c (List.mem_cons_self)
    obtain ⟨hcs, hpair⟩ := List.pairwise_cons.mp hapart
    obtain ⟨t, ht⟩ := Option.isSome_iff_exists.mp (hmaps.accepts hc hcapart)
    rw [heapAfter] at hheap ⊢
    have hend := hmaps.heapEnd_le c
    have hlast := (le_heapAfter _ _ _).trans_lt hheap
    obtain ⟨w₁, hstep, htable⟩ := h.map_step hpt (hend.trans_lt hlast) ht
    have hheap₁ := heapAfter_mono ((hstep.heap_le_heapEnd h).trans hend)
      (firstIndex c.va :: done.map fun c => firstIndex c.va) cs
    have hmaps₁ := hmaps.cons hc hcapart ht
    rw [← htable] at hmaps₁
    obtain ⟨w', hrun, htables, hmaps', hheap', hother⟩ := ih (hstep.inv h)
      (by rw [hstep.tables_of_map]; exact hpt) hmaps₁
      (fun c' hc' => hproper c' (List.mem_cons_of_mem _ hc'))
      (fun c' hc' c'' hc'' => by
        rcases List.mem_cons.mp hc'' with rfl | hc''
        · exact hcs c' hc'
        · exact hdone c' (List.mem_cons_of_mem _ hc') c'' hc'')
      hpair (hheap₁.trans_lt hheap)
    refine ⟨w', .cons hstep hrun, htables.trans hstep.tables_of_map, ?_, hheap'.trans hheap₁, ?_⟩
    · rwa [List.reverse_cons, List.append_assoc, List.singleton_append]
    · intro pt' hpt' hne
      rw [hother pt' (by rw [hstep.tables_of_map]; exact hpt') hne]
      exact hstep.tableOf_eq h hpt' fun c' hc' => hne (by injection hc' with h _; exact h.symm)

/-- A list of proper requests that are apart runs to its end on a table, which
then maps their ranges too; other tables keep theirs. -/
theorem World.Inv.run_maps {w : World} (h : w.Inv) {pt : BitVec 32} (hpt : pt ∈ w.tables)
    (hmaps : (tableOf w.st.mem pt).Maps done) {cs : List MapCall} (hproper : ∀ c ∈ cs, c.Proper)
    (hdone : ∀ c ∈ cs, ∀ c' ∈ done, c.Apart c') (hapart : cs.Pairwise fun c c' => c'.Apart c)
    (hheap : w.st.heap.toNat + 2047 * cs.length < 2 ^ 32) :
    ∃ w', Run World.Step w (cs.map (.map pt)) w' ∧ w'.tables = w.tables ∧
      (tableOf w'.st.mem pt).Maps (cs.reverse ++ done) ∧
      w'.st.heap.toNat ≤ w.st.heap.toNat + 2047 * cs.length ∧
      ∀ pt' ∈ w.tables, pt' ≠ pt → tableOf w'.st.mem pt' = tableOf w.st.mem pt' := by
  have hle := heapAfter_le_length w.st.heap.toNat (done.map fun c => firstIndex c.va) cs
  obtain ⟨w', hrun, htables, hmaps', hheap', hother⟩ :=
    h.run_maps_heapAfter hpt hmaps hproper hdone hapart (hle.trans_lt hheap)
  exact ⟨w', hrun, htables, hmaps', hheap'.trans hle, hother⟩

/-- A run of mapping calls on one table, as a loop over the calls. -/
theorem World.foldlM_of_run {w w' : World} {pt : BitVec 32} {cs : List MapCall}
    (h : Run World.Step w (cs.map (.map pt)) w') :
    cs.foldlM (fun s c => c.exec s pt) w.st = .ok w'.st := by
  induction cs generalizing w with
  | nil =>
    cases h
    rfl
  | cons c cs ih =>
    cases h with
    | cons hstep hrun =>
      obtain ⟨s, hexec, hw⟩ := bind_eq_ok.mp hstep.2
      cases hw
      exact bind_eq_ok.mpr ⟨s, hexec, ih hrun⟩

end RpiVm
