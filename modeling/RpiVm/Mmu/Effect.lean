import RpiVm.Mmu.Layout

/-!
# Stores to a page table

A mapping function changes a table by three kinds of steps: a fresh coarse
table from the allocator, a store to a first-level entry, and a store to an
entry of a coarse table. Each is an update of the table value, and `MapEffect`
collects what any sequence of them leaves alone.
-/

namespace RpiVm

open CLib

variable {m : Mem} {pt : BitVec 32} {limit : ℕ} {i : BitVec 12}

/-! ## Stores to the first level -/

/-- A store to one first-level entry changes that word only. -/
theorem firstWord_storeFirst (h : pt.toNat % 16384 = 0) (w : BitVec 32) (k : BitVec 12) :
    firstWord (m.store32 (firstAddr pt i) w) pt k = if k = i then w else firstWord m pt k := by
  by_cases hk : k = i
  · subst hk
    rw [if_pos rfl]
    exact Mem.load32_store32_same m _ w
  · rw [if_neg hk]
    exact Mem.load32_store32_of_disjoint (firstAddr_add_le h i) (firstAddr_add_le h k)
      (firstAddr_disjoint h (Ne.symm hk))

/-- A store to a first-level entry leaves everything outside the first-level table. -/
theorem storeFirst_agreeOn (h : pt.toNat % 16384 = 0) (w : BitVec 32) {r : Region}
    (hr : (firstRegion pt).Disjoint r) :
    Mem.AgreeOn (m.store32 (firstAddr pt i) w) m r :=
  Mem.store32_agreeOn (firstAddr_add_le h i)
    (hr.mono (wordAt_firstAddr_within h i) ⟨le_rfl, le_rfl⟩)

/-- A store to a first-level entry replaces that entry of the table value. -/
theorem tableOf_storeFirst (h : Layout m pt limit) {w : BitVec 32}
    (hw : IsCoarse w → (coarseRegion w).Disjoint (firstRegion pt)) :
    tableOf (m.store32 (firstAddr pt i) w) pt =
      Function.update (tableOf m pt) i (decodeFirst m w) := by
  funext k
  unfold tableOf
  rw [firstWord_storeFirst h.aligned]
  by_cases hk : k = i
  · subst hk
    rw [if_pos rfl, Function.update_self]
    exact decodeFirst_congr fun hcoarse => storeFirst_agreeOn h.aligned w (hw hcoarse).symm
  · rw [if_neg hk, Function.update_of_ne hk]
    exact decodeFirst_congr fun hcoarse =>
      storeFirst_agreeOn h.aligned w (h.coarse_first k hcoarse).symm

/-- A store to a first-level entry keeps the layout if the new entry fits in. -/
theorem Layout.storeFirst (h : Layout m pt limit) {w : BitVec 32}
    (hle : IsCoarse w → (coarseBase w).toNat + 1024 ≤ limit)
    (hfirst : IsCoarse w → (coarseRegion w).Disjoint (firstRegion pt))
    (hcoarse : IsCoarse w → ∀ k, k ≠ i → IsCoarse (firstWord m pt k) →
      (coarseRegion w).Disjoint (coarseRegion (firstWord m pt k))) :
    Layout (m.store32 (firstAddr pt i) w) pt limit := by
  have hword := firstWord_storeFirst (m := m) (i := i) h.aligned w
  refine ⟨h.aligned, h.first_le, ?_, ?_, ?_⟩
  · intro k hk
    rw [hword] at hk ⊢
    by_cases hki : k = i
    · rw [if_pos hki] at hk ⊢
      exact hle hk
    · rw [if_neg hki] at hk ⊢
      exact h.coarse_le k hk
  · intro k hk
    rw [hword] at hk ⊢
    by_cases hki : k = i
    · rw [if_pos hki] at hk ⊢
      exact hfirst hk
    · rw [if_neg hki] at hk ⊢
      exact h.coarse_first k hk
  · intro k l hne hk hl
    rw [hword] at hk hl ⊢
    rw [hword]
    by_cases hki : k = i
    · have hli : l ≠ i := fun heq => hne (hki.trans heq.symm)
      rw [if_pos hki] at hk ⊢
      rw [if_neg hli] at hl ⊢
      exact hcoarse hk l hli hl
    · rw [if_neg hki] at hk ⊢
      by_cases hli : l = i
      · rw [if_pos hli] at hl ⊢
        exact (hcoarse hl k hki hk).symm
      · rw [if_neg hli] at hl ⊢
        exact h.coarse_coarse k l hne hk hl

/-! ## Stores to a coarse table -/

/-- A store to a coarse table leaves everything outside that table. -/
theorem storeSecond_agreeOn (w v : BitVec 32) (j : BitVec 8) {r : Region}
    (hr : (coarseRegion w).Disjoint r) :
    Mem.AgreeOn (m.store32 (secondAddr (coarseBase w) j) v) m r :=
  Mem.store32_agreeOn (secondAddr_add_le w j)
    (hr.mono (wordAt_secondAddr_within w j) ⟨le_rfl, le_rfl⟩)

/-- A store to a coarse table leaves the first-level words. -/
theorem firstWord_storeSecond (h : Layout m pt limit) (hi : IsCoarse (firstWord m pt i))
    (v : BitVec 32) (j : BitVec 8) (k : BitVec 12) :
    firstWord (m.store32 (secondAddr (coarseBase (firstWord m pt i)) j) v) pt k =
      firstWord m pt k :=
  firstWord_congr h.aligned (storeSecond_agreeOn _ v j (h.coarse_first i hi)) k

/-- A store to a coarse table keeps the layout. -/
theorem Layout.storeSecond (h : Layout m pt limit) (hi : IsCoarse (firstWord m pt i))
    (v : BitVec 32) (j : BitVec 8) :
    Layout (m.store32 (secondAddr (coarseBase (firstWord m pt i)) j) v) pt limit :=
  h.congr (storeSecond_agreeOn _ v j (h.coarse_first i hi)).symm le_rfl

/-- A store to a coarse table replaces one of its entries. -/
theorem tableOf_storeSecond (h : Layout m pt limit) (hi : IsCoarse (firstWord m pt i))
    (v : BitVec 32) (j : BitVec 8) :
    tableOf (m.store32 (secondAddr (coarseBase (firstWord m pt i)) j) v) pt =
      Function.update (tableOf m pt) i (.coarse ((firstWord m pt i).extractLsb' 5 4)
        (Function.update
          (fun k => decodeSecond (m.load32 (secondAddr (coarseBase (firstWord m pt i)) k)))
          j (decodeSecond v))) := by
  funext k
  unfold tableOf
  rw [firstWord_storeSecond h hi]
  by_cases hk : k = i
  · subst hk
    rw [Function.update_self]
    have htag : (firstWord m pt k).extractLsb' 0 2 = 0b01#2 := hi
    unfold decodeFirst
    rw [if_neg (by rw [htag]; decide), if_pos htag]
    congr 1
    funext l
    by_cases hl : l = j
    · subst hl
      rw [Function.update_self, Mem.load32_store32_same]
    · rw [Function.update_of_ne hl, Mem.load32_store32_of_disjoint (secondAddr_add_le _ j)
        (secondAddr_add_le _ l) (secondAddr_disjoint _ (Ne.symm hl))]
  · rw [Function.update_of_ne hk]
    exact decodeFirst_congr fun hcoarse =>
      storeSecond_agreeOn _ v j (h.coarse_coarse i k (Ne.symm hk) hi hcoarse)

/-- The entry of the table value at a coarse descriptor. -/
theorem tableOf_of_isCoarse (hi : IsCoarse (firstWord m pt i)) :
    tableOf m pt i = .coarse ((firstWord m pt i).extractLsb' 5 4)
      (fun k => decodeSecond (m.load32 (secondAddr (coarseBase (firstWord m pt i)) k))) := by
  have htag : (firstWord m pt i).extractLsb' 0 2 = 0b01#2 := hi
  unfold tableOf decodeFirst
  rw [if_neg (by rw [htag]; decide), if_pos htag]

/-! ## What a mapping call leaves alone -/

/-- The effect of a call that maps something in the 1 MB region `i` of a table:
its stores lie in the footprint of the table, and its only allocation is a
coarse table for the entry `i`. -/
structure MapEffect (s s' : State) (pt : BitVec 32) (i : BitVec 12) : Prop where
  /-- The table is laid out below the new end of the heap. -/
  layout : Layout s'.mem pt s'.heap.toNat
  /-- Other first-level words stay. -/
  others : ∀ k, k ≠ i → firstWord s'.mem pt k = firstWord s.mem pt k
  /-- A coarse table is never replaced. -/
  keep : IsCoarse (firstWord s.mem pt i) → firstWord s'.mem pt i = firstWord s.mem pt i
  /-- Either nothing is allocated, or the coarse table of entry `i` is. -/
  alloc : (s'.heap = s.heap ∧ s'.blocks = s.blocks ∧
      (IsCoarse (firstWord s'.mem pt i) → IsCoarse (firstWord s.mem pt i))) ∨
    (¬ IsCoarse (firstWord s.mem pt i) ∧ IsCoarse (firstWord s'.mem pt i) ∧
      s'.blocks = coarseRegion (firstWord s'.mem pt i) :: s.blocks ∧
      s.heap.toNat ≤ (coarseBase (firstWord s'.mem pt i)).toNat ∧
      s'.heap.toNat = (coarseBase (firstWord s'.mem pt i)).toNat + 1024)
  /-- Memory outside the footprint stays. -/
  frame : ∀ r, (∀ f, Footprint s'.mem pt f → f.Disjoint r) → Mem.AgreeOn s'.mem s.mem r
  /-- Every store lies in the footprint. -/
  stores : ∃ log, s'.stores = log ++ s.stores ∧
    ∀ r ∈ log, ∃ f, Footprint s'.mem pt f ∧ r.Within f
  /-- The start of the heap stays. -/
  heapStart_eq : s'.heapStart = s.heapStart
  /-- The heap grows by one coarse table at most. -/
  heap_le_end : s'.heap.toNat ≤ kmallocAlignedEnd s.heap.toNat 1024 10

/-- Doing nothing has the effect. -/
theorem MapEffect.refl {s : State} (h : Layout s.mem pt s.heap.toNat) : MapEffect s s pt i where
  layout := h
  others _ _ := rfl
  keep _ := rfl
  alloc := Or.inl ⟨rfl, rfl, id⟩
  frame _ _ := Mem.AgreeOn.refl _ _
  stores := ⟨[], rfl, by simp⟩
  heapStart_eq := rfl
  heap_le_end := le_kmallocAlignedEnd _ _ _

/-- The heap does not shrink. -/
theorem MapEffect.heap_le {s s' : State} (h : MapEffect s s' pt i) :
    s.heap.toNat ≤ s'.heap.toNat := by
  rcases h.alloc with ⟨heq, _⟩ | ⟨_, _, _, hle, heq⟩
  · rw [heq]
  · omega

/-- The footprint depends only on the first-level words. -/
theorem footprint_congr {m m' : Mem} (h : ∀ k, firstWord m pt k = firstWord m' pt k) {r : Region} :
    Footprint m pt r ↔ Footprint m' pt r := by
  simp only [Footprint, h]

/-- A store to a coarse table adds nothing to the effect. -/
theorem MapEffect.storeSecond {s s' : State} (h : MapEffect s s' pt i) {k : BitVec 12}
    (hk : IsCoarse (firstWord s'.mem pt k)) (v : BitVec 32) (j : BitVec 8) :
    MapEffect s (s'.store32 (secondAddr (coarseBase (firstWord s'.mem pt k)) j) v) pt i := by
  have hword := firstWord_storeSecond h.layout hk v j
  have hfoot : ∀ r, Footprint (s'.store32 (secondAddr (coarseBase (firstWord s'.mem pt k)) j)
      v).mem pt r ↔ Footprint s'.mem pt r := fun r => footprint_congr hword
  refine ⟨h.layout.storeSecond hk v j, ?_, ?_, ?_, ?_, ?_, h.heapStart_eq, h.heap_le_end⟩
  · intro l hl
    exact (hword l).trans (h.others l hl)
  · intro hi
    exact (hword i).trans (h.keep hi)
  · have halloc := h.alloc
    rw [← hword i] at halloc
    exact halloc
  · intro r hr
    have hr' : ∀ f, Footprint s'.mem pt f → f.Disjoint r := fun f hf => hr f ((hfoot f).mpr hf)
    exact (storeSecond_agreeOn _ v j (hr' _ (Or.inr ⟨k, hk, rfl⟩))).trans (h.frame r hr')
  · obtain ⟨log, hlog, hin⟩ := h.stores
    refine ⟨Mem.wordAt (secondAddr (coarseBase (firstWord s'.mem pt k)) j) :: log,
      by simp only [State.store32, hlog, List.cons_append], ?_⟩
    intro r hr
    rcases List.mem_cons.mp hr with rfl | hr
    · exact ⟨_, (hfoot _).mpr (Or.inr ⟨k, hk, rfl⟩), wordAt_secondAddr_within _ j⟩
    · obtain ⟨f, hf, hrf⟩ := hin r hr
      exact ⟨f, (hfoot f).mpr hf, hrf⟩

end RpiVm
