import RpiVm.Mmu.Table

/-!
# Page tables in memory

A table value is read off memory from the address of a first-level table. The
reading is faithful as long as the tables do not overlap: the layout invariant
says that the first-level table and its coarse tables are separate blocks below
the end of the heap.
-/

namespace RpiVm

open CLib

/-! ## Reading a table -/

/-- The entry in a second-level word. -/
def decodeSecond (w : BitVec 32) : SecondLevel :=
  if w.extractLsb' 0 2 = 0b01#2 then .lg (w.extractLsb' 16 16) (largeAttrs w)
  else if w.extractLsb' 1 1 = 1#1 then .sm (w.extractLsb' 12 20) (smallAttrs w)
  else .fault

/-- The entry in a first-level word, with the coarse table it points to. -/
def decodeFirst (m : Mem) (w : BitVec 32) : FirstLevel :=
  if w.extractLsb' 0 2 = 0b10#2 then
    .sec (w.extractLsb' 20 12) (w.extractLsb' 5 4) (sectionAttrs w)
  else if w.extractLsb' 0 2 = 0b01#2 then
    .coarse (w.extractLsb' 5 4) fun j => decodeSecond (m.load32 (secondAddr (coarseBase w) j))
  else if w.extractLsb' 0 2 = 0b00#2 then .fault
  else .reserved

/-- The first-level word with a given index. -/
def firstWord (m : Mem) (pt : BitVec 32) (i : BitVec 12) : BitVec 32 := m.load32 (firstAddr pt i)

/-- The table value in memory at a first-level table. -/
def tableOf (m : Mem) (pt : BitVec 32) : Table := fun i => decodeFirst m (firstWord m pt i)

/-- The second-level step of the walk is the translation by the decoded entry. -/
theorem secondWalk_eq (w : BitVec 32) (domain : BitVec 4) (va : BitVec 32) :
    secondWalk w domain va = (decodeSecond w).walk domain va := by
  unfold secondWalk decodeSecond
  split_ifs <;> rfl

/-- The hardware walk of memory is the walk of the table value. -/
theorem walk_eq_tableOf_walk (m : Mem) (pt va : BitVec 32) :
    walk m pt va = (tableOf m pt).walk va := by
  simp only [walk, Table.walk, tableOf, firstWord]
  generalize m.load32 (firstAddr pt (firstIndex va)) = fld
  unfold decodeFirst
  by_cases hsec : fld.extractLsb' 0 2 = 0b10#2
  · rw [if_pos hsec, if_pos hsec]
    rfl
  by_cases hcoarse : fld.extractLsb' 0 2 = 0b01#2
  · rw [if_neg hsec, if_pos hcoarse, if_neg hsec, if_pos hcoarse, secondWalk_eq]
    rfl
  · rw [if_neg hsec, if_neg hcoarse, if_neg hsec, if_neg hcoarse]
    split_ifs <;> rfl

/-! ## Addresses -/

/-- A first-level table fills four words for each of 4096 entries. -/
theorem firstAddr_toNat {pt : BitVec 32} (h : pt.toNat % 16384 = 0) (i : BitVec 12) :
    (firstAddr pt i).toNat = pt.toNat + 4 * i.toNat := by
  have hi := i.isLt
  have hpt := pt.isLt
  simp only [firstAddr, BitVec.toNat_add, BitVec.toNat_mul, BitVec.toNat_setWidth]
  have h4 : (4 : BitVec 32).toNat = 4 := rfl
  rw [h4]
  omega

/-- Coarse tables are aligned to 1 KB: the descriptor has no room for more bits. -/
theorem coarseBase_mod (w : BitVec 32) : (coarseBase w).toNat % 1024 = 0 := by
  simp only [coarseBase, BitVec.toNat_append, BitVec.extractLsb'_toNat, BitVec.toNat_ofNat,
    Nat.shiftLeft_eq, Nat.zero_mod, Nat.or_zero]
  omega

/-- A coarse table fills one word for each of 256 entries. -/
theorem secondAddr_toNat {base : BitVec 32} (h : base.toNat % 1024 = 0) (j : BitVec 8) :
    (secondAddr base j).toNat = base.toNat + 4 * j.toNat := by
  have hj := j.isLt
  have hbase := base.isLt
  simp only [secondAddr, BitVec.toNat_add, BitVec.toNat_mul, BitVec.toNat_setWidth]
  have h4 : (4 : BitVec 32).toNat = 4 := rfl
  rw [h4]
  omega

/-- The region of a first-level table. -/
def firstRegion (pt : BitVec 32) : Region := ⟨pt.toNat, 16384⟩

/-- The region of a coarse table. -/
def coarseRegion (w : BitVec 32) : Region := ⟨(coarseBase w).toNat, 1024⟩

/-- A first-level word has the coarse tag. -/
def IsCoarse (w : BitVec 32) : Prop := w.extractLsb' 0 2 = 0b01#2

instance (w : BitVec 32) : Decidable (IsCoarse w) := by unfold IsCoarse; infer_instance

/-- The word of a first-level entry lies in the first-level table. -/
theorem wordAt_firstAddr_within {pt : BitVec 32} (h : pt.toNat % 16384 = 0) (i : BitVec 12) :
    (Mem.wordAt (firstAddr pt i)).Within (firstRegion pt) := by
  have hi := i.isLt
  have haddr := firstAddr_toNat h i
  simp only [Region.Within, Mem.wordAt, firstRegion]
  omega

/-- The word of a second-level entry lies in its coarse table. -/
theorem wordAt_secondAddr_within (w : BitVec 32) (j : BitVec 8) :
    (Mem.wordAt (secondAddr (coarseBase w) j)).Within (coarseRegion w) := by
  have hj := j.isLt
  have haddr := secondAddr_toNat (coarseBase_mod w) j
  simp only [Region.Within, Mem.wordAt, coarseRegion]
  omega

/-- No word of an aligned first-level table wraps around. -/
theorem firstAddr_add_le {pt : BitVec 32} (h : pt.toNat % 16384 = 0) (i : BitVec 12) :
    (firstAddr pt i).toNat + 4 ≤ 2 ^ 32 := by
  have hi := i.isLt
  have hpt := pt.isLt
  have haddr := firstAddr_toNat h i
  omega

/-- No word of a coarse table wraps around. -/
theorem secondAddr_add_le (w : BitVec 32) (j : BitVec 8) :
    (secondAddr (coarseBase w) j).toNat + 4 ≤ 2 ^ 32 := by
  have hj := j.isLt
  have hbase := (coarseBase w).isLt
  have hmod := coarseBase_mod w
  have haddr := secondAddr_toNat hmod j
  omega

/-- Different entries of a first-level table are different words. -/
theorem firstAddr_disjoint {pt : BitVec 32} (h : pt.toNat % 16384 = 0) {i k : BitVec 12}
    (hne : i ≠ k) : (Mem.wordAt (firstAddr pt i)).Disjoint (Mem.wordAt (firstAddr pt k)) := by
  have hnat : i.toNat ≠ k.toNat := fun heq => hne (BitVec.eq_of_toNat_eq heq)
  simp only [Region.Disjoint, Mem.wordAt, firstAddr_toNat h]
  omega

/-- Different entries of a coarse table are different words. -/
theorem secondAddr_disjoint (w : BitVec 32) {j k : BitVec 8} (hne : j ≠ k) :
    (Mem.wordAt (secondAddr (coarseBase w) j)).Disjoint
      (Mem.wordAt (secondAddr (coarseBase w) k)) := by
  have hnat : j.toNat ≠ k.toNat := fun heq => hne (BitVec.eq_of_toNat_eq heq)
  simp only [Region.Disjoint, Mem.wordAt, secondAddr_toNat (coarseBase_mod w)]
  omega

/-! ## The layout invariant -/

/-- A first-level table and its coarse tables are separate blocks below `limit`. -/
structure Layout (m : Mem) (pt : BitVec 32) (limit : ℕ) : Prop where
  /-- The first-level table is aligned to its size. -/
  aligned : pt.toNat % 16384 = 0
  /-- The first-level table lies below the limit. -/
  first_le : pt.toNat + 16384 ≤ limit
  /-- Coarse tables lie below the limit. -/
  coarse_le : ∀ i, IsCoarse (firstWord m pt i) →
    (coarseBase (firstWord m pt i)).toNat + 1024 ≤ limit
  /-- Coarse tables do not overlap the first-level table. -/
  coarse_first : ∀ i, IsCoarse (firstWord m pt i) →
    (coarseRegion (firstWord m pt i)).Disjoint (firstRegion pt)
  /-- Coarse tables of different entries do not overlap. -/
  coarse_coarse : ∀ i k, i ≠ k → IsCoarse (firstWord m pt i) → IsCoarse (firstWord m pt k) →
    (coarseRegion (firstWord m pt i)).Disjoint (coarseRegion (firstWord m pt k))

/-- The regions that the walk of a table reads. -/
def Footprint (m : Mem) (pt : BitVec 32) (r : Region) : Prop :=
  r = firstRegion pt ∨ ∃ i, IsCoarse (firstWord m pt i) ∧ r = coarseRegion (firstWord m pt i)

/-- Memories that agree on the first-level table have the same first-level words. -/
theorem firstWord_congr {m m' : Mem} {pt : BitVec 32} (h : pt.toNat % 16384 = 0)
    (hagree : Mem.AgreeOn m m' (firstRegion pt)) (i : BitVec 12) :
    firstWord m pt i = firstWord m' pt i :=
  Mem.load32_congr (firstAddr_add_le h i) (hagree.mono (wordAt_firstAddr_within h i))

/-- Memories that agree on a coarse table decode a first-level word alike. -/
theorem decodeFirst_congr {m m' : Mem} {w : BitVec 32}
    (hagree : IsCoarse w → Mem.AgreeOn m m' (coarseRegion w)) :
    decodeFirst m w = decodeFirst m' w := by
  unfold decodeFirst
  by_cases hcoarse : w.extractLsb' 0 2 = 0b01#2
  · have hload : ∀ j, m.load32 (secondAddr (coarseBase w) j) =
        m'.load32 (secondAddr (coarseBase w) j) := fun j =>
      Mem.load32_congr (secondAddr_add_le w j)
        ((hagree hcoarse).mono (wordAt_secondAddr_within w j))
    simp only [hload]
  · simp only [hcoarse, if_false]

/-- The table value depends only on the footprint. -/
theorem tableOf_congr {m m' : Mem} {pt : BitVec 32} (h : pt.toNat % 16384 = 0)
    (hagree : ∀ r, Footprint m pt r → Mem.AgreeOn m m' r) : tableOf m pt = tableOf m' pt := by
  funext i
  have hfirst := firstWord_congr h (hagree _ (Or.inl rfl)) i
  unfold tableOf
  rw [← hfirst]
  exact decodeFirst_congr fun hcoarse => hagree _ (Or.inr ⟨i, hcoarse, rfl⟩)

/-- The layout depends only on the first-level table, and a larger limit will do. -/
theorem Layout.congr {m m' : Mem} {pt : BitVec 32} {limit limit' : ℕ} (h : Layout m pt limit)
    (hagree : Mem.AgreeOn m m' (firstRegion pt)) (hlimit : limit ≤ limit') :
    Layout m' pt limit' := by
  have hfirst := firstWord_congr h.aligned hagree
  refine ⟨h.aligned, by have := h.first_le; omega, ?_, ?_, ?_⟩
  · intro i hi
    rw [← hfirst i] at hi ⊢
    have := h.coarse_le i hi
    omega
  · intro i hi
    rw [← hfirst i] at hi ⊢
    exact h.coarse_first i hi
  · intro i k hne hi hk
    rw [← hfirst i] at hi ⊢
    rw [← hfirst k] at hk ⊢
    exact h.coarse_coarse i k hne hi hk

/-- The footprint of a laid out table lies below the limit. -/
theorem Layout.footprint_le {m : Mem} {pt : BitVec 32} {limit : ℕ} (h : Layout m pt limit)
    {r : Region} (hr : Footprint m pt r) : r.base + r.size ≤ limit := by
  rcases hr with rfl | ⟨i, hi, rfl⟩
  · exact h.first_le
  · exact h.coarse_le i hi

/-- An allocation above the limit leaves the table as it is. -/
theorem Layout.allocated {s s' : State} {pt p : BitVec 32} {size : ℕ}
    (h : Layout s.mem pt s.heap.toNat) (halloc : Allocated s s' p size) :
    Layout s'.mem pt s'.heap.toNat ∧ tableOf s'.mem pt = tableOf s.mem pt := by
  have hagree : ∀ r, Footprint s.mem pt r → Mem.AgreeOn s.mem s'.mem r := by
    intro r hr
    have hle := h.footprint_le hr
    have hbase := halloc.le_base
    exact (halloc.frame r (Or.inr (by simp only; omega))).symm
  have hheap := halloc.heap_eq
  have hbase := halloc.le_base
  exact ⟨h.congr (hagree _ (Or.inl rfl)) (by omega), (tableOf_congr h.aligned hagree).symm⟩

end RpiVm
