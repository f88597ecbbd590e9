import RpiVm.Mmu.Mapping

/-!
# Separation of page tables

The invariant of worlds, read as a statement about addresses: every coarse
table is a block of its own, all blocks are disjoint, and a mapping call stores
only in the table that it is given.
-/

namespace RpiVm

open CLib Transition

/-- The page tables of a world are separate. -/
structure World.Separate (w : World) : Prop where
  /-- A coarse entry points to a block of 1 KB, aligned to 1 KB, that the code made
  for this entry of this table. -/
  coarse : ∀ pt ∈ w.tables, ∀ i, IsCoarse (firstWord w.st.mem pt i) →
    (coarseBase (firstWord w.st.mem pt i)).toNat % 1024 = 0 ∧
      (Owner.coarse pt i, ⟨(coarseBase (firstWord w.st.mem pt i)).toNat, 1024⟩) ∈ w.allocs
  /-- A first-level table is a block of 16 KB. -/
  table : ∀ pt ∈ w.tables, (Owner.table, ⟨pt.toNat, 16384⟩) ∈ w.allocs
  /-- No two blocks overlap, whoever owns them. -/
  disjoint : w.allocs.Pairwise fun p q => p.2.Disjoint q.2
  /-- These are all the blocks that the allocator handed out. -/
  blocks : w.allocs.map Prod.snd = w.st.blocks

/-- Every store of a step lies in a table or in a coarse table that it owns. -/
def World.StoresWithin (w w' : World) (pt : BitVec 32) : Prop :=
  ∃ log, w'.st.stores = log ++ w.st.stores ∧ ∀ r ∈ log,
    r.Within ⟨pt.toNat, 16384⟩ ∨
      ∃ i b, (Owner.coarse pt i, b) ∈ w'.allocs ∧ IsCoarse (firstWord w'.st.mem pt i) ∧
        b.base = (coarseBase (firstWord w'.st.mem pt i)).toNat ∧ r.Within b

/-- The invariant states the separation. -/
theorem World.Inv.separate {w : World} (h : w.Inv) : w.Separate where
  coarse pt hpt i hi := ⟨coarseBase_mod _, h.coarse_mem pt hpt i hi⟩
  table pt hpt := h.table_mem pt hpt
  disjoint := h.disjoint
  blocks := h.blocks_eq

/-- A mapping call stores in its table only. -/
theorem World.Step.storesWithin {w w' : World} (h : w.Inv) {pt : BitVec 32} {c : MapCall}
    (hstep : w.Step (.map pt c) w') : w.StoresWithin w' pt := by
  obtain ⟨_, heffect, _⟩ := hstep.map_effect h
  have hpt : pt ∈ w'.tables := by
    rw [hstep.tables_of_map]
    exact hstep.1.1
  obtain ⟨log, hlog, hin⟩ := heffect.stores
  refine ⟨log, hlog, fun r hr => ?_⟩
  obtain ⟨f, hf, hrf⟩ := hin r hr
  rcases hf with rfl | ⟨i, hi, rfl⟩
  · exact Or.inl hrf
  · exact Or.inr ⟨i, _, (hstep.inv h).coarse_mem pt hpt i hi, hi, rfl, hrf⟩

/-- In every reachable world the page tables are separate, and a mapping call
stores in its own table only and leaves the walks of all others. -/
theorem World.pageTables_separate {w : World} (hw : Reachable World.Step World.Init w) :
    w.Separate ∧ ∀ pt c w', w.Step (.map pt c) w' → w.StoresWithin w' pt ∧
      ∀ pt' ∈ w.tables, pt' ≠ pt → ∀ x, walk w'.st.mem pt' x = walk w.st.mem pt' x := by
  have hinv := World.reachable_inv hw
  refine ⟨hinv.separate, fun pt c w' hstep => ⟨hstep.storesWithin hinv, ?_⟩⟩
  intro pt' hpt' hne x
  have htable := hstep.tableOf_eq hinv hpt' fun c' hc' => hne (by injection hc' with h _; exact h.symm)
  rw [walk_eq_tableOf_walk, walk_eq_tableOf_walk, htable]

/-- Two tables, one of which gets a section. -/
theorem World.pageTables_separate_two : ∃ w w' : World, w.tables = [0x144000#32, 0x140000#32] ∧
    w.Step (.map 0x144000#32 ⟨.sec, 0x100000#32, 0x200000#32, 1, 0⟩) w' ∧
    w.Separate ∧ w.StoresWithin w' 0x144000#32 ∧
    ∀ x, walk w'.st.mem 0x140000#32 x = walk w.st.mem 0x140000#32 x := by
  obtain ⟨w₁, hw₁, htables₁, _, hheap₁⟩ := World.exists_first_table
  have hw₁' := World.reachable_of_aligned hw₁
  obtain ⟨pt, s, hok, _, hpt, hempty, _⟩ := (World.reachable_inv hw₁').ptAlloc 4096
    (by rw [hheap₁]; decide)
  have hbase : pt.toNat = 0x144000 := hpt.trans (by rw [hheap₁]; decide)
  obtain rfl : pt = 0x144000#32 := BitVec.eq_of_toNat_eq hbase
  have hw := hw₁'.step (a := .ptAlloc 4096) ⟨by show _ < _; rw [hheap₁]; decide, hok⟩
  obtain ⟨t, ht⟩ := Option.isSome_iff_exists.mp
    (MapCall.Aligned.apply_isSome (c := ⟨.sec, 0x100000#32, 0x200000#32, 1, 0⟩)
      (t := tableOf s.mem 0x144000#32) (by decide) (by rw [hempty]; rfl) (by decide))
  obtain ⟨w', hstep, _⟩ := (World.reachable_inv hw).map_step
    (List.mem_cons_self) (by show _ < _; exact s.heap.isLt) ht
  have hsep := World.pageTables_separate hw
  refine ⟨_, w', by rw [htables₁], hstep, hsep.1, (hsep.2 _ _ _ hstep).1, ?_⟩
  exact (hsep.2 _ _ _ hstep).2 _ (by rw [htables₁]; simp) (by decide)

end RpiVm
