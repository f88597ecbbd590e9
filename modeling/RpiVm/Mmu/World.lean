import RpiVm.Lib.Run
import RpiVm.Mmu.Refinement

/-!
# Page tables side by side

Any number of page tables and other blocks share one heap. A world is the state
of the machine together with a record of who owns each block that `kmalloc`
handed out. The invariant of all runs is that every coarse table belongs to one
entry of one table and that no two blocks overlap.
-/

namespace RpiVm

open CLib Transition

/-- The purpose of a block on the heap. -/
inductive Owner where
  /-- A first-level table. -/
  | table
  /-- The coarse table of an entry of a first-level table. -/
  | coarse (pt : BitVec 32) (i : BitVec 12)
  /-- A block that a caller of `kmalloc` or `kmalloc_aligned` asked for. -/
  | client
  deriving DecidableEq, Repr

/-- The machine with a record of its tables and of the owners of its blocks. -/
structure World where
  /-- The machine. -/
  st : State
  /-- The tables that `mmu_pt_alloc` returned. -/
  tables : List (BitVec 32)
  /-- The blocks of `kmalloc` with their owners, latest first. -/
  allocs : List (Owner × Region)

/-- An operation of the kernel on the heap or on a page table. -/
inductive Op where
  /-- `mmu_pt_alloc(sz)`. -/
  | ptAlloc (sz : BitVec 32)
  /-- `kmalloc(sz)`. -/
  | kmalloc (sz : BitVec 32)
  /-- `kmalloc_aligned(nbytes, alignment)`. -/
  | kmallocAligned (nbytes alignment : BitVec 32)
  /-- A mapping call on the table `pt`. -/
  | map (pt : BitVec 32) (c : MapCall)
  /-- The owner of a block stores a word in it. -/
  | clientStore (a v : BitVec 32)

/-- The blocks handed out between two states, for one owner. -/
def newBlocks (owner : Owner) (s s' : State) : List (Owner × Region) :=
  (s'.blocks.take (s'.blocks.length - s.blocks.length)).map fun r => (owner, r)

/-- Running an operation. -/
def World.exec (w : World) : Op → Except Panic World
  | .ptAlloc sz => do
    let (pt, s) ← mmuPtAlloc w.st sz
    pure ⟨s, pt :: w.tables, newBlocks .table w.st s ++ w.allocs⟩
  | .kmalloc sz =>
    let (_, s) := RpiVm.kmalloc w.st sz
    pure ⟨s, w.tables, newBlocks .client w.st s ++ w.allocs⟩
  | .kmallocAligned nbytes alignment => do
    let (_, s) ← RpiVm.kmallocAligned w.st nbytes alignment
    pure ⟨s, w.tables, newBlocks .client w.st s ++ w.allocs⟩
  | .map pt c => do
    let s ← c.exec w.st pt
    pure ⟨s, w.tables, newBlocks (.coarse pt (firstIndex c.va)) w.st s ++ w.allocs⟩
  | .clientStore a v => pure { w with st := w.st.store32 a v }

/-- The operations of the claims about runs: alignments are powers of two, tables come
from `mmu_pt_alloc`, owners store in their own blocks, and the heap stays below `2 ^ 32`. -/
def Op.Allowed (w : World) : Op → Prop
  | .ptAlloc _ => kmallocAlignedEnd w.st.heap.toNat 16384 14 < 2 ^ 32
  | .kmalloc sz => kmallocEnd w.st.heap.toNat sz.toNat < 2 ^ 32
  | .kmallocAligned nbytes alignment => ∃ k < 32, alignment = BitVec.twoPow 32 k ∧
      kmallocAlignedEnd w.st.heap.toNat nbytes.toNat k < 2 ^ 32
  | .map pt c => pt ∈ w.tables ∧ c.heapEnd w.st pt < 2 ^ 32
  | .clientStore a _ => ∃ r, (Owner.client, r) ∈ w.allocs ∧ (Mem.wordAt a).Within r

/-- One operation that is allowed and returns. -/
def World.Step (w : World) (op : Op) (w' : World) : Prop := op.Allowed w ∧ w.exec op = .ok w'

/-- A machine whose heap has handed out nothing yet; memory and the start of the
heap are arbitrary. -/
def World.Init (w : World) : Prop :=
  w.tables = [] ∧ w.allocs = [] ∧ w.st.blocks = [] ∧ w.st.stores = []

/-- A machine with zeroed memory whose heap starts at a given address. -/
def World.start (heap : BitVec 32) : World := ⟨⟨fun _ => 0, heap, heap, [], []⟩, [], []⟩

theorem World.start_init (heap : BitVec 32) : (World.start heap).Init := ⟨rfl, rfl, rfl, rfl⟩

/-- The invariant of all runs. -/
structure World.Inv (w : World) : Prop where
  /-- The record covers exactly the blocks of `kmalloc`. -/
  blocks_eq : w.allocs.map Prod.snd = w.st.blocks
  /-- Blocks end below the end of the heap. -/
  block_le : ∀ p ∈ w.allocs, p.2.base + p.2.size ≤ w.st.heap.toNat
  /-- Blocks do not overlap. -/
  disjoint : w.allocs.Pairwise fun p q => p.2.Disjoint q.2
  /-- First-level tables are blocks. -/
  table_mem : ∀ pt ∈ w.tables, (Owner.table, firstRegion pt) ∈ w.allocs
  /-- Tables are separate from each other. -/
  tables_nodup : w.tables.Nodup
  /-- Each table is laid out. -/
  layout : ∀ pt ∈ w.tables, Layout w.st.mem pt w.st.heap.toNat
  /-- Coarse tables are blocks of their entry. -/
  coarse_mem : ∀ pt ∈ w.tables, ∀ i, IsCoarse (firstWord w.st.mem pt i) →
    (Owner.coarse pt i, coarseRegion (firstWord w.st.mem pt i)) ∈ w.allocs

/-- The blocks of different owners, or different blocks of one owner, do not overlap. -/
theorem World.Inv.disjoint_of_ne {w : World} (h : w.Inv) {p q : Owner × Region}
    (hp : p ∈ w.allocs) (hq : q ∈ w.allocs) (hne : p ≠ q) : p.2.Disjoint q.2 := by
  have hsymm : Std.Symm fun p q : Owner × Region => p.2.Disjoint q.2 :=
    ⟨fun _ _ h => h.symm⟩
  exact h.disjoint.forall hp hq hne

/-- Every region that a walk of a table reads is a block of that table. -/
theorem World.Inv.footprint_mem {w : World} (h : w.Inv) {pt : BitVec 32} (hpt : pt ∈ w.tables)
    {f : Region} (hf : Footprint w.st.mem pt f) :
    (Owner.table, f) ∈ w.allocs ∧ f = firstRegion pt ∨
      ∃ i, (Owner.coarse pt i, f) ∈ w.allocs := by
  rcases hf with rfl | ⟨i, hi, rfl⟩
  · exact Or.inl ⟨h.table_mem pt hpt, rfl⟩
  · exact Or.inr ⟨i, h.coarse_mem pt hpt i hi⟩

/-- The regions that two tables read do not overlap. -/
theorem World.Inv.footprint_disjoint {w : World} (h : w.Inv) {pt pt' : BitVec 32}
    (hpt : pt ∈ w.tables) (hpt' : pt' ∈ w.tables) (hne : pt ≠ pt') {f f' : Region}
    (hf : Footprint w.st.mem pt f) (hf' : Footprint w.st.mem pt' f') : f.Disjoint f' := by
  have hregion : firstRegion pt ≠ firstRegion pt' := by
    intro heq
    exact hne (BitVec.eq_of_toNat_eq (congrArg Region.base heq))
  rcases h.footprint_mem hpt hf with ⟨hm, rfl⟩ | ⟨i, hm⟩
  · rcases h.footprint_mem hpt' hf' with ⟨hm', rfl⟩ | ⟨i', hm'⟩
    · exact h.disjoint_of_ne hm hm' (by simp [hregion])
    · exact h.disjoint_of_ne hm hm' (by simp)
  · rcases h.footprint_mem hpt' hf' with ⟨hm', rfl⟩ | ⟨i', hm'⟩
    · exact h.disjoint_of_ne hm hm' (by simp)
    · exact h.disjoint_of_ne hm hm' (by simp [hne])

/-! ## Allocations -/

/-- An allocation records its block. -/
theorem newBlocks_of_blocks_eq {s s' : State} {r : Region} (owner : Owner)
    (h : s'.blocks = r :: s.blocks) : newBlocks owner s s' = [(owner, r)] := by
  simp [newBlocks, h]

/-- Without an allocation there is nothing to record. -/
theorem newBlocks_of_blocks_same {s s' : State} (owner : Owner) (h : s'.blocks = s.blocks) :
    newBlocks owner s s' = [] := by
  simp [newBlocks, h]

/-- An allocation keeps the invariant. -/
theorem World.Inv.allocated {w : World} (h : w.Inv) {s : State} {p : BitVec 32} {size : ℕ}
    (halloc : Allocated w.st s p size) (owner : Owner) :
    World.Inv ⟨s, w.tables, (owner, ⟨p.toNat, size⟩) :: w.allocs⟩ := by
  have hbase := halloc.le_base
  have hheap := halloc.heap_eq
  have hword : ∀ pt ∈ w.tables, ∀ i, firstWord s.mem pt i = firstWord w.st.mem pt i := by
    intro pt hpt i
    have hlayout := h.layout pt hpt
    have hle := hlayout.first_le
    exact firstWord_congr hlayout.aligned
      (halloc.frame _ (Or.inr (by simp only [firstRegion]; omega))) i
  refine ⟨?_, ?_, ?_, ?_, h.tables_nodup, fun pt hpt => ((h.layout pt hpt).allocated halloc).1, ?_⟩
  · simp only [List.map_cons, h.blocks_eq, halloc.blocks_eq]
  · intro q hq
    rcases List.mem_cons.mp hq with rfl | hq
    · exact hheap.ge
    · have := h.block_le q hq
      simp only
      omega
  · refine List.pairwise_cons.mpr ⟨?_, h.disjoint⟩
    intro q hq
    exact Or.inr (by have := h.block_le q hq; simp only; omega)
  · intro pt hpt
    exact List.mem_cons_of_mem _ (h.table_mem pt hpt)
  · intro pt hpt i hi
    rw [hword pt hpt i] at hi ⊢
    exact List.mem_cons_of_mem _ (h.coarse_mem pt hpt i hi)

/-- A zeroed first-level table has no mappings. -/
theorem tableOf_eq_empty {m : Mem} {pt : BitVec 32} (hmod : pt.toNat % 16384 = 0)
    (hzero : ∀ x : BitVec 32, (firstRegion pt).Contains x.toNat → m x = 0) :
    (∀ i, firstWord m pt i = 0) ∧ tableOf m pt = Table.empty := by
  have hword : ∀ i, firstWord m pt i = 0 := by
    intro i
    apply Mem.load32_eq_zero (firstAddr_add_le hmod i)
    intro x hx
    apply hzero
    have hin := wordAt_firstAddr_within hmod i
    unfold Region.Contains Region.Within at *
    omega
  refine ⟨hword, ?_⟩
  funext i
  rw [tableOf, hword i]
  rfl

/-- A fresh table that is recorded as a block keeps the invariant. -/
theorem World.Inv.addTable {w : World} (h : w.Inv) {pt : BitVec 32} (hmod : pt.toNat % 16384 = 0)
    (hmem : (Owner.table, firstRegion pt) ∈ w.allocs) (hnew : pt ∉ w.tables)
    (hzero : ∀ i, firstWord w.st.mem pt i = 0) : World.Inv { w with tables := pt :: w.tables } := by
  have hnone : ∀ i, ¬ IsCoarse (firstWord w.st.mem pt i) := by
    intro i hi
    rw [hzero i] at hi
    exact absurd hi (by decide)
  refine ⟨h.blocks_eq, h.block_le, h.disjoint, ?_, List.nodup_cons.mpr ⟨hnew, h.tables_nodup⟩,
    ?_, ?_⟩
  · intro pt' hpt'
    rcases List.mem_cons.mp hpt' with rfl | hpt'
    · exact hmem
    · exact h.table_mem pt' hpt'
  · intro pt' hpt'
    rcases List.mem_cons.mp hpt' with rfl | hpt'
    · exact ⟨hmod, h.block_le _ hmem, fun i hi => absurd hi (hnone i),
        fun i hi => absurd hi (hnone i), fun i _ _ hi => absurd hi (hnone i)⟩
    · exact h.layout pt' hpt'
  · intro pt' hpt' i hi
    rcases List.mem_cons.mp hpt' with rfl | hpt'
    · exact absurd hi (hnone i)
    · exact h.coarse_mem pt' hpt' i hi

/-- `mmu_pt_alloc` hands out an empty table in a block of its own. -/
theorem mmuPtAlloc_allocated {s : State} (sz : BitVec 32)
    (hfit : kmallocAlignedEnd s.heap.toNat 16384 14 < 2 ^ 32) :
    ∃ pt s', mmuPtAlloc s sz = .ok (pt, s') ∧ pt.toNat = roundUpNat s.heap.toNat 16384 ∧
      Allocated s s' pt 16384 ∧ pt.toNat % 16384 = 0 := by
  have h14 : 1#32 <<< 14 = BitVec.twoPow 32 14 := by decide
  have hbytes : (4096 * 4 : BitVec 32).toNat = 16384 := by decide
  obtain ⟨pt, s', hok, hpt, halloc⟩ := kmallocAligned_allocated (s := s) (4096 * 4)
    (k := 14) (by decide) (by rw [hbytes]; exact hfit)
  have hsize : roundUpNat (4096 * 4 : BitVec 32).toNat 8 = 16384 := by decide
  rw [hsize] at halloc
  have hmod : pt.toNat % 16384 = 0 := by rw [hpt]; exact roundUpNat_mod _ _
  -- the mask of the final check is 13, a subset of the fourteen low bits
  have haligned : isAligned pt 14 = true := isAligned_of_mod (k := 14) (by decide) (by decide) hmod
  refine ⟨pt, s', ?_, hpt, halloc, hmod⟩
  unfold mmuPtAlloc
  rw [h14]
  exact bind_eq_ok.mpr ⟨(), rfl, bind_eq_ok.mpr ⟨_, hok, bind_eq_ok.mpr
    ⟨(), demand_eq_ok.mpr haligned, rfl⟩⟩⟩

/-- What `mmu_pt_alloc` does to a world. -/
theorem World.Inv.mmuPtAlloc {w : World} (h : w.Inv) (sz : BitVec 32)
    (hfit : kmallocAlignedEnd w.st.heap.toNat 16384 14 < 2 ^ 32) :
    ∃ pt s, RpiVm.mmuPtAlloc w.st sz = .ok (pt, s) ∧ Allocated w.st s pt 16384 ∧
      pt.toNat = roundUpNat w.st.heap.toNat 16384 ∧ tableOf s.mem pt = Table.empty ∧
      pt ∉ w.tables ∧
      World.Inv ⟨s, pt :: w.tables, (Owner.table, firstRegion pt) :: w.allocs⟩ := by
  obtain ⟨pt, s, hok, hpt, halloc, hmod⟩ := mmuPtAlloc_allocated sz hfit
  obtain ⟨hzero, hempty⟩ := tableOf_eq_empty hmod halloc.zero
  have hnew : pt ∉ w.tables := by
    intro hmem
    have hle := (h.layout pt hmem).first_le
    have hbase := halloc.le_base
    omega
  exact ⟨pt, s, hok, halloc, hpt, hempty, hnew,
    (h.allocated halloc .table).addTable hmod (List.mem_cons_self) hnew hzero⟩

/-- The operation that allocates a table. -/
theorem World.Inv.ptAlloc {w : World} (h : w.Inv) (sz : BitVec 32)
    (hfit : kmallocAlignedEnd w.st.heap.toNat 16384 14 < 2 ^ 32) :
    ∃ pt s, w.exec (.ptAlloc sz) =
        .ok ⟨s, pt :: w.tables, (Owner.table, firstRegion pt) :: w.allocs⟩ ∧
      Allocated w.st s pt 16384 ∧ pt.toNat = roundUpNat w.st.heap.toNat 16384 ∧
      tableOf s.mem pt = Table.empty ∧
      World.Inv ⟨s, pt :: w.tables, (Owner.table, firstRegion pt) :: w.allocs⟩ := by
  obtain ⟨pt, s, hok, halloc, hpt, hempty, _, hinv⟩ := h.mmuPtAlloc sz hfit
  refine ⟨pt, s, bind_eq_ok.mpr ⟨_, hok, ?_⟩, halloc, hpt, hempty, hinv⟩
  simp only [newBlocks_of_blocks_eq .table halloc.blocks_eq]
  rfl

/-! ## Mapping calls -/

/-- The footprint after a mapping call: what it was, and memory above the old heap. -/
theorem MapEffect.footprint_cases {s s' : State} {pt : BitVec 32} {i : BitVec 12}
    (h : MapEffect s s' pt i) {f : Region} (hf : Footprint s'.mem pt f) :
    Footprint s.mem pt f ∨ s.heap.toNat ≤ f.base := by
  rcases hf with rfl | ⟨k, hk, rfl⟩
  · exact Or.inl (Or.inl rfl)
  · by_cases hki : k = i
    · subst hki
      rcases h.alloc with ⟨_, _, hold⟩ | ⟨_, _, _, hle, _⟩
      · have heq := h.keep (hold hk)
        rw [heq] at hk ⊢
        exact Or.inl (Or.inr ⟨k, hk, rfl⟩)
      · exact Or.inr hle
    · rw [h.others k hki] at hk ⊢
      exact Or.inl (Or.inr ⟨k, hk, rfl⟩)

/-- A mapping call leaves every other block alone. -/
theorem World.Inv.map_agreeOn {w : World} (h : w.Inv) {pt : BitVec 32} (hpt : pt ∈ w.tables)
    {s : State} {i : BitVec 12} (heffect : MapEffect w.st s pt i) {q : Owner × Region}
    (hq : q ∈ w.allocs) (htable : q ≠ (Owner.table, firstRegion pt))
    (hcoarse : ∀ k, q.1 ≠ .coarse pt k) : Mem.AgreeOn s.mem w.st.mem q.2 := by
  apply heffect.frame
  intro f hf
  rcases heffect.footprint_cases hf with hold | habove
  · rcases h.footprint_mem hpt hold with ⟨hm, rfl⟩ | ⟨k, hm⟩
    · exact h.disjoint_of_ne hm hq (Ne.symm htable)
    · refine h.disjoint_of_ne hm hq ?_
      rintro rfl
      exact hcoarse k rfl
  · exact Or.inr (by have := h.block_le q hq; omega)

/-- A mapping call leaves what the other tables read. -/
theorem World.Inv.map_footprint_agreeOn {w : World} (h : w.Inv) {pt pt' : BitVec 32}
    (hpt : pt ∈ w.tables) (hpt' : pt' ∈ w.tables) (hne : pt' ≠ pt) {s : State} {i : BitVec 12}
    (heffect : MapEffect w.st s pt i) {f : Region} (hf : Footprint w.st.mem pt' f) :
    Mem.AgreeOn s.mem w.st.mem f := by
  have hregion : firstRegion pt' ≠ firstRegion pt := fun heq =>
    hne (BitVec.eq_of_toNat_eq (congrArg Region.base heq))
  rcases h.footprint_mem hpt' hf with ⟨hm, rfl⟩ | ⟨k, hm⟩
  · exact h.map_agreeOn hpt heffect hm (by simp [hregion]) (by simp)
  · exact h.map_agreeOn hpt heffect hm (by simp) (by simp [hne])

/-- A mapping call leaves the other tables. -/
theorem World.Inv.map_tableOf {w : World} (h : w.Inv) {pt pt' : BitVec 32} (hpt : pt ∈ w.tables)
    (hpt' : pt' ∈ w.tables) (hne : pt' ≠ pt) {s : State} {i : BitVec 12}
    (heffect : MapEffect w.st s pt i) : tableOf s.mem pt' = tableOf w.st.mem pt' :=
  (tableOf_congr (h.layout pt' hpt').aligned fun _ hf =>
    (h.map_footprint_agreeOn hpt hpt' hne heffect hf).symm).symm

/-- The blocks that a mapping call hands out. -/
theorem MapEffect.newBlocks_cases {s s' : State} {pt : BitVec 32} {i : BitVec 12}
    (h : MapEffect s s' pt i) :
    newBlocks (.coarse pt i) s s' = [] ∧ s'.blocks = s.blocks ∧ s'.heap = s.heap ∧
        (IsCoarse (firstWord s'.mem pt i) → IsCoarse (firstWord s.mem pt i)) ∨
      newBlocks (.coarse pt i) s s' = [(.coarse pt i, coarseRegion (firstWord s'.mem pt i))] ∧
        s'.blocks = coarseRegion (firstWord s'.mem pt i) :: s.blocks ∧
        s.heap.toNat ≤ (coarseRegion (firstWord s'.mem pt i)).base ∧
        s'.heap.toNat = (coarseRegion (firstWord s'.mem pt i)).base + 1024 := by
  rcases h.alloc with ⟨hheap, hblocks, hold⟩ | ⟨_, _, hblocks, hle, hheap⟩
  · exact Or.inl ⟨newBlocks_of_blocks_same _ hblocks, hblocks, hheap, hold⟩
  · exact Or.inr ⟨newBlocks_of_blocks_eq _ hblocks, hblocks, hle, hheap⟩

/-- A mapping call keeps the invariant. -/
theorem World.Inv.map {w : World} (h : w.Inv) {pt : BitVec 32} (hpt : pt ∈ w.tables) {s : State}
    {i : BitVec 12} (heffect : MapEffect w.st s pt i) :
    World.Inv ⟨s, w.tables, newBlocks (.coarse pt i) w.st s ++ w.allocs⟩ := by
  have hheap := heffect.heap_le
  have hother : ∀ pt' ∈ w.tables, pt' ≠ pt → ∀ k,
      firstWord s.mem pt' k = firstWord w.st.mem pt' k := by
    intro pt' hpt' hne k
    exact firstWord_congr (h.layout pt' hpt').aligned
      (h.map_footprint_agreeOn hpt hpt' hne heffect (Or.inl rfl)) k
  have hold : ∀ q ∈ w.allocs, q ∈ newBlocks (.coarse pt i) w.st s ++ w.allocs := fun q hq =>
    List.mem_append_right _ hq
  refine ⟨?_, ?_, ?_, fun pt' hpt' => hold _ (h.table_mem pt' hpt'), h.tables_nodup, ?_, ?_⟩
  · rcases heffect.newBlocks_cases with ⟨hnew, hblocks, _⟩ | ⟨hnew, hblocks, _⟩
    · rw [hnew, List.nil_append, hblocks]
      exact h.blocks_eq
    · rw [hnew, List.singleton_append, List.map_cons, hblocks, h.blocks_eq]
  · intro q hq
    rcases List.mem_append.mp hq with hq | hq
    · rcases heffect.newBlocks_cases with ⟨hnew, _⟩ | ⟨hnew, _, _, hend⟩
      · simp [hnew] at hq
      · rw [hnew, List.mem_singleton] at hq
        subst hq
        exact hend.ge
    · exact (h.block_le q hq).trans hheap
  · rcases heffect.newBlocks_cases with ⟨hnew, _⟩ | ⟨hnew, _, hle, _⟩
    · rw [hnew, List.nil_append]
      exact h.disjoint
    · rw [hnew, List.singleton_append]
      refine List.pairwise_cons.mpr ⟨fun q hq => Or.inr ?_, h.disjoint⟩
      exact (h.block_le q hq).trans hle
  · intro pt' hpt'
    by_cases hne : pt' = pt
    · rw [hne]
      exact heffect.layout
    · exact (h.layout pt' hpt').congr
        (h.map_footprint_agreeOn hpt hpt' hne heffect (Or.inl rfl)).symm hheap
  · intro pt' hpt' k hk
    by_cases hne : pt' = pt
    · subst hne
      by_cases hki : k = i
      · subst hki
        rcases heffect.newBlocks_cases with ⟨_, _, _, hcoarse⟩ | ⟨hnew, _⟩
        · have hk' := hcoarse hk
          rw [heffect.keep hk']
          exact hold _ (h.coarse_mem pt' hpt' k hk')
        · rw [hnew]
          exact List.mem_append_left _ (List.mem_singleton.mpr rfl)
      · rw [heffect.others k hki] at hk ⊢
        exact hold _ (h.coarse_mem pt' hpt' k hk)
    · rw [hother pt' hpt' hne k] at hk ⊢
      exact hold _ (h.coarse_mem pt' hpt' k hk)

/-! ## Stores by owners of blocks -/

/-- A store in a block of a client leaves what every table reads. -/
theorem World.Inv.clientStore_agreeOn {w : World} (h : w.Inv) {a v : BitVec 32} {r : Region}
    (hr : (Owner.client, r) ∈ w.allocs) (ha : (Mem.wordAt a).Within r) {pt : BitVec 32}
    (hpt : pt ∈ w.tables) {f : Region} (hf : Footprint w.st.mem pt f) :
    Mem.AgreeOn (w.st.mem.store32 a v) w.st.mem f := by
  have hle := h.block_le _ hr
  have hheap := w.st.heap.isLt
  have hfit : a.toNat + 4 ≤ 2 ^ 32 := by
    unfold Region.Within Mem.wordAt at ha
    simp only at ha hle
    omega
  have hdisj : r.Disjoint f := by
    rcases h.footprint_mem hpt hf with ⟨hm, _⟩ | ⟨k, hm⟩
    · exact h.disjoint_of_ne hr hm (by simp)
    · exact h.disjoint_of_ne hr hm (by simp)
  exact Mem.store32_agreeOn hfit (hdisj.mono ha ⟨le_rfl, le_rfl⟩)

/-- A store that no table reads keeps the invariant. -/
theorem World.Inv.store {w : World} (h : w.Inv) {a v : BitVec 32}
    (hagree : ∀ pt ∈ w.tables, ∀ f, Footprint w.st.mem pt f →
      Mem.AgreeOn (w.st.mem.store32 a v) w.st.mem f) :
    World.Inv { w with st := w.st.store32 a v } := by
  have hfirst : ∀ pt ∈ w.tables, Mem.AgreeOn w.st.mem (w.st.mem.store32 a v) (firstRegion pt) :=
    fun pt hpt => (hagree pt hpt _ (Or.inl rfl)).symm
  refine ⟨h.blocks_eq, h.block_le, h.disjoint, h.table_mem, h.tables_nodup,
    fun pt hpt => (h.layout pt hpt).congr (hfirst pt hpt) le_rfl, ?_⟩
  intro pt hpt i hi
  have hword := firstWord_congr (h.layout pt hpt).aligned (hfirst pt hpt) i
  have hi' : IsCoarse (firstWord (w.st.mem.store32 a v) pt i) := hi
  rw [← hword] at hi'
  have hmem := h.coarse_mem pt hpt i hi'
  rw [hword] at hmem
  exact hmem

/-- A store in a block of a client keeps the invariant. -/
theorem World.Inv.clientStore {w : World} (h : w.Inv) {a v : BitVec 32} {r : Region}
    (hr : (Owner.client, r) ∈ w.allocs) (ha : (Mem.wordAt a).Within r) :
    World.Inv { w with st := w.st.store32 a v } :=
  h.store fun _ hpt _ hf => h.clientStore_agreeOn hr ha hpt hf

/-! ## Runs -/

/-- The invariant holds before anything is allocated. -/
theorem World.Init.inv {w : World} (h : w.Init) : w.Inv := by
  obtain ⟨htables, hallocs, hblocks, _⟩ := h
  constructor <;> simp [htables, hallocs, hblocks]

/-- What a returning mapping call does to a world. -/
theorem World.Step.map_effect {w w' : World} (h : w.Inv) {pt : BitVec 32} {c : MapCall}
    (hstep : w.Step (.map pt c) w') :
    c.apply (tableOf w.st.mem pt) = some (tableOf w'.st.mem pt) ∧
      MapEffect w.st w'.st pt (firstIndex c.va) ∧
      w' = ⟨w'.st, w.tables, newBlocks (.coarse pt (firstIndex c.va)) w.st w'.st ++ w.allocs⟩ := by
  obtain ⟨⟨hpt, hfit⟩, hok⟩ := hstep
  obtain ⟨s, hexec, hw'⟩ := bind_eq_ok.mp hok
  obtain ⟨happly, heffect⟩ := MapCall.apply_of_exec (h.layout pt hpt) hfit hexec
  cases hw'
  exact ⟨happly, heffect, rfl⟩

/-- A mapping call makes no new table. -/
theorem World.Step.tables_of_map {w w' : World} {pt : BitVec 32} {c : MapCall}
    (hstep : w.Step (.map pt c) w') : w'.tables = w.tables := by
  obtain ⟨_, hok⟩ := hstep
  obtain ⟨s, _, hw'⟩ := bind_eq_ok.mp hok
  cases hw'
  rfl

/-- A mapping call whose table update is defined returns. -/
theorem World.Inv.map_step {w : World} (h : w.Inv) {pt : BitVec 32} {c : MapCall} {t : Table}
    (hpt : pt ∈ w.tables) (hfit : c.heapEnd w.st pt < 2 ^ 32)
    (happly : c.apply (tableOf w.st.mem pt) = some t) :
    ∃ w', w.Step (.map pt c) w' ∧ tableOf w'.st.mem pt = t := by
  obtain ⟨s, hok, _, htable⟩ := MapCall.refines (h.layout pt hpt) hfit happly
  exact ⟨_, ⟨⟨hpt, hfit⟩, bind_eq_ok.mpr ⟨s, hok, rfl⟩⟩, htable⟩

/-- One operation keeps the invariant. -/
theorem World.Step.inv {w w' : World} {op : Op} (h : w.Inv) (hstep : w.Step op w') : w'.Inv := by
  cases op with
  | ptAlloc sz =>
    obtain ⟨pt, s, hok, _, _, _, hinv⟩ := h.ptAlloc sz hstep.1
    cases hok.symm.trans hstep.2
    exact hinv
  | kmalloc sz =>
    have halloc := (kmalloc_allocated (s := w.st) hstep.1).2
    have hinv := h.allocated halloc .client
    rw [← List.singleton_append, ← newBlocks_of_blocks_eq .client halloc.blocks_eq] at hinv
    cases hstep.2
    exact hinv
  | kmallocAligned nbytes alignment =>
    obtain ⟨⟨k, hk, rfl, hfit⟩, hok⟩ := hstep
    obtain ⟨p, s, hp, _, halloc⟩ := kmallocAligned_allocated nbytes hk hfit
    have hinv := h.allocated halloc .client
    rw [← List.singleton_append, ← newBlocks_of_blocks_eq .client halloc.blocks_eq] at hinv
    obtain ⟨r, hr, hw'⟩ := bind_eq_ok.mp hok
    cases hp.symm.trans hr
    cases hw'
    exact hinv
  | map pt c =>
    obtain ⟨_, heffect, hw'⟩ := hstep.map_effect h
    rw [hw']
    exact h.map hstep.1.1 heffect
  | clientStore a v =>
    obtain ⟨⟨r, hr, ha⟩, hok⟩ := hstep
    cases hok
    exact h.clientStore hr ha

/-- An operation leaves every table but the one that it maps in. -/
theorem World.Step.tableOf_eq {w w' : World} {op : Op} (h : w.Inv) (hstep : w.Step op w')
    {pt : BitVec 32} (hpt : pt ∈ w.tables) (hop : ∀ c, op ≠ .map pt c) :
    tableOf w'.st.mem pt = tableOf w.st.mem pt := by
  have hlayout := h.layout pt hpt
  cases op with
  | ptAlloc sz =>
    obtain ⟨_, s, hok, halloc, _, _, _⟩ := h.ptAlloc sz hstep.1
    cases hok.symm.trans hstep.2
    exact (hlayout.allocated halloc).2
  | kmalloc sz =>
    cases hstep.2
    exact (hlayout.allocated (kmalloc_allocated (s := w.st) hstep.1).2).2
  | kmallocAligned nbytes alignment =>
    obtain ⟨⟨k, hk, rfl, hfit⟩, hok⟩ := hstep
    obtain ⟨p, s, hp, _, halloc⟩ := kmallocAligned_allocated nbytes hk hfit
    obtain ⟨r, hr, hw'⟩ := bind_eq_ok.mp hok
    cases hp.symm.trans hr
    cases hw'
    exact (hlayout.allocated halloc).2
  | map pt' c =>
    have hne : pt ≠ pt' := fun heq => hop c (by rw [heq])
    exact h.map_tableOf hstep.1.1 hpt hne (hstep.map_effect h).2.1
  | clientStore a v =>
    obtain ⟨⟨r, hr, ha⟩, hok⟩ := hstep
    cases hok
    exact (tableOf_congr hlayout.aligned fun _ hf => (h.clientStore_agreeOn hr ha hpt hf).symm).symm

/-- The invariant holds in every reachable world. -/
theorem World.reachable_inv {w : World} (h : Reachable World.Step World.Init w) : w.Inv :=
  h.invariant (fun _ h₀ => h₀.inv) fun _ _ _ h hstep => hstep.inv h

end RpiVm
