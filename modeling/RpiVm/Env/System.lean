import RpiVm.Env.Spaces

/-!
# Runs of the whole kernel

The kernel together with what a run of it has to remember: which environments
are live, which tables were made for environments, and which blocks of the heap
belong to programs. In every reachable state the pools and the tables are in
order, and the current environment has a table, even after it was freed.
-/

namespace RpiVm

open CLib Transition

/-- A kernel with a record of its run. -/
structure KernelRun where
  /-- The kernel. -/
  k : Kernel
  /-- The live environments, latest first. -/
  live : List (BitVec 32)
  /-- The tables of all environments so far. -/
  tables : List (BitVec 32)
  /-- The blocks of the heap that programs asked for. -/
  own : List Region

/-- What an operation needs: live environments are freed and entered, tables of
environments are mapped in, the heap stays below `2 ^ 32`, and programs keep off
the blocks of the kernel. -/
def KernelRun.Allowed (s : KernelRun) : KernelOp → Prop
  | .envInit => False
  | .envAlloc => s.live.length < 8 ∧ kmallocAlignedEnd s.k.st.heap.toNat 16384 14 < 2 ^ 32
  | .envFree e => e ∈ s.live
  | .envSwitchTo e => e ∈ s.live
  | .mmuEnable => True
  | .mmuDisable => True
  | .kmalloc sz => kmallocEnd s.k.st.heap.toNat sz.toNat < 2 ^ 32
  | .map pt c => pt ∈ s.tables ∧ c.heapEnd s.k.st pt < 2 ^ 32
  | .store a _ => a.toNat + 4 ≤ 2 ^ 32 ∧
      ∀ r ∈ s.k.st.blocks, r ∉ s.own → (Mem.wordAt a).Disjoint r

/-- One operation that is allowed and returns, with its effect on the record. -/
def KernelRun.Step (s : KernelRun) (o : KernelOp) (s' : KernelRun) : Prop :=
  s.Allowed o ∧ OpStep s.k o s'.k ∧ match o with
    | .envAlloc => ∃ e, envAlloc s.k = .ok (e, s'.k) ∧
        s' = ⟨s'.k, e :: s.live, (s'.k.envs e).pt :: s.tables, s.own⟩
    | .envFree e => s' = ⟨s'.k, s.live.erase e, s.tables, s.own⟩
    | .kmalloc _ => s' = ⟨s'.k, s.live, s.tables, s'.k.st.blocks.take 1 ++ s.own⟩
    | _ => s' = ⟨s'.k, s.live, s.tables, s.own⟩

/-- Runs start after `env_init` and `mmu_init`, with no current environment. -/
def KernelRun.Init (s : KernelRun) : Prop :=
  s.live = [] ∧ s.tables = [] ∧ s.own = [] ∧ s.k.currEnv = none ∧
    ∃ k₀ k₁, Kernel.Bootable k₀ ∧ envInit k₀ = .ok k₁ ∧
      s.k = { k₁ with cp15 := mmuInit k₁.cp15 }

/-- The invariant of all runs. -/
structure KernelRun.Inv (s : KernelRun) (allocs : List (Owner × Region)) : Prop where
  /-- The pools and the tables. -/
  kernel : s.k.Inv s.live s.tables allocs
  /-- Blocks of programs are blocks of clients, apart from the arrays of the pools. -/
  own : ∀ r ∈ s.own, (Owner.client, r) ∈ allocs ∧ r.Disjoint s.k.domV.region ∧
    r.Disjoint s.k.asidV.region ∧ r.Disjoint s.k.envV.region
  /-- The current environment has a table. -/
  current : ∀ e, s.k.currEnv = some e → (s.k.envs e).pt ∈ s.tables

/-! ## What the operations leave -/

/-- `bvec_alloc` leaves the array. -/
theorem bvecAlloc_region {s : State} {b b' : Bvec} {x : BitVec 32}
    (h : bvecAlloc s b = .ok (x, b')) : b'.region = b.region := by
  unfold bvecAlloc at h
  split_ifs at h
  · cases h
    rfl
  · obtain ⟨_, _, h⟩ := bind_eq_ok.mp h
    cases h
    rfl

/-- `bvec_free` leaves the place of the array. -/
theorem bvecFree_region {s s' : State} {b b' : Bvec} {x : BitVec 32}
    (h : bvecFree s b x = .ok (b', s')) : b'.region = b.region := by
  obtain ⟨_, _, h⟩ := bind_eq_ok.mp h
  split_ifs at h
  cases h
  rfl

/-- The arrays of the pools stay where they are. -/
structure Kernel.SamePools (k k' : Kernel) : Prop where
  /-- The array of domains. -/
  dom : k'.domV.region = k.domV.region
  /-- The array of ASIDs. -/
  asid : k'.asidV.region = k.asidV.region
  /-- The array of slots. -/
  env : k'.envV.region = k.envV.region

/-- `env_alloc` fills one slot and leaves `curr_env`. -/
theorem envAlloc_frame {k k' : Kernel} {e : BitVec 32} (h : envAlloc k = .ok (e, k')) :
    (∀ e', e' ≠ e → k'.envs e' = k.envs e') ∧ k'.currEnv = k.currEnv ∧ k.SamePools k' := by
  obtain ⟨_, h₁, h⟩ := bind_eq_ok.mp h
  obtain ⟨_, _, h⟩ := bind_eq_ok.mp h
  obtain ⟨_, h₃, h⟩ := bind_eq_ok.mp h
  obtain ⟨_, h₄, h⟩ := bind_eq_ok.mp h
  cases h
  exact ⟨fun e' he' => Function.update_of_ne he' _ _, rfl, bvecAlloc_region h₃, bvecAlloc_region h₄,
    bvecAlloc_region h₁⟩

/-- `env_free` leaves the slots and `curr_env`. -/
theorem envFree_frame {k k' : Kernel} {e : BitVec 32} (h : envFree k e = .ok k') :
    k'.envs = k.envs ∧ k'.currEnv = k.currEnv ∧ k.SamePools k' := by
  obtain ⟨_, _, h⟩ := bind_eq_ok.mp h
  obtain ⟨_, h₁, h⟩ := bind_eq_ok.mp h
  obtain ⟨_, h₂, h⟩ := bind_eq_ok.mp h
  obtain ⟨_, h₃, h⟩ := bind_eq_ok.mp h
  cases h
  exact ⟨rfl, rfl, bvecFree_region h₁, bvecFree_region h₂, bvecFree_region h₃⟩

/-- A completed switch sets `curr_env`. -/
theorem envSwitchTo_currEnv {k k' : Kernel} {e : BitVec 32} (h : envSwitchTo k e = .ok k') :
    ∃ h', k' = { k with cp15 := h', currEnv := some e } := by
  obtain ⟨_, _, h⟩ := bind_eq_ok.mp h
  obtain ⟨_, _, h⟩ := bind_eq_ok.mp h
  obtain ⟨h', _, h⟩ := bind_eq_ok.mp h
  cases h
  exact ⟨h', rfl⟩

/-! ## The invariant -/

variable {s s' : KernelRun} {allocs : List (Owner × Region)}

/-- The coprocessor and the current environment matter to no pool or table. -/
theorem Kernel.Inv.withCp15 {k : Kernel} {live tables : List (BitVec 32)}
    (h : k.Inv live tables allocs) (cp15 : Cp15) (currEnv : Option (BitVec 32)) :
    Kernel.Inv { k with cp15 := cp15, currEnv := currEnv } live tables allocs :=
  ⟨h.world, h.dom, h.asid, h.env, h.dom_asid, h.dom_env, h.asid_env, h.pt_mem, h.pt_nodup,
    h.domainReg_eq⟩

/-- The pools stay when memory changes apart from their arrays. -/
theorem Kernel.Inv.withMem {k : Kernel} {live tables : List (BitVec 32)}
    (h : k.Inv live tables allocs) {st : State} {allocs' : List (Owner × Region)}
    (hworld : World.Inv ⟨st, tables, allocs'⟩) (hsub : ∀ p ∈ allocs, p ∈ allocs')
    (hdom : Mem.AgreeOn st.mem k.st.mem k.domV.region)
    (hasid : Mem.AgreeOn st.mem k.st.mem k.asidV.region)
    (henv : Mem.AgreeOn st.mem k.st.mem k.envV.region) :
    Kernel.Inv { k with st := st } live tables allocs' :=
  ⟨hworld, h.dom.congr hdom.symm hsub, h.asid.congr hasid.symm hsub, h.env.congr henv.symm hsub,
    h.dom_asid, h.dom_env, h.asid_env, h.pt_mem, h.pt_nodup, h.domainReg_eq⟩

/-- A block that only holds part of an array of a pool is not a program's. -/
theorem KernelRun.Inv.pool_disjoint (h : s.Inv allocs) {b : Bvec} {ids held : List (BitVec 32)}
    (hpool : Pool b (s.k.world s.tables allocs) ids held) (hids : ids ≠ [])
    (hown : ∀ r ∈ s.own, r.Disjoint b.region) {a : BitVec 32}
    (ha : ∀ r ∈ s.k.st.blocks, r ∉ s.own → (Mem.wordAt a).Disjoint r) :
    (Mem.wordAt a).Disjoint b.region := by
  obtain ⟨r, hr, hin⟩ := hpool.block
  have hsize : 0 < b.region.size := by
    have hlen := List.length_pos_of_ne_nil hids
    rw [← hpool.nTot_eq] at hlen
    simp only [Bvec.region]
    omega
  have hblock : r ∈ s.k.st.blocks := by
    have heq : allocs.map Prod.snd = s.k.st.blocks := h.kernel.world.blocks_eq
    rw [← heq]
    exact List.mem_map_of_mem hr
  have hnot : r ∉ s.own := by
    intro hmem
    have hdisj := hown r hmem
    unfold Region.Disjoint Region.Within at *
    omega
  exact (ha r hblock hnot).mono ⟨le_rfl, le_rfl⟩ hin

/-- A store off the blocks of the kernel leaves what tables read. -/
theorem KernelRun.Inv.footprint_disjoint (h : s.Inv allocs) {a : BitVec 32}
    (ha : ∀ r ∈ s.k.st.blocks, r ∉ s.own → (Mem.wordAt a).Disjoint r) {pt : BitVec 32}
    (hpt : pt ∈ s.tables) {f : Region} (hf : Footprint s.k.st.mem pt f) :
    (Mem.wordAt a).Disjoint f := by
  have hworld := h.kernel.world
  obtain ⟨o, ho, hmem, hsize⟩ : ∃ o, o ≠ Owner.client ∧ (o, f) ∈ allocs ∧ 0 < f.size := by
    rcases hworld.footprint_mem hpt hf with ⟨hm, rfl⟩ | ⟨i, hm⟩
    · exact ⟨_, by simp, hm, by simp [firstRegion]⟩
    · refine ⟨_, by simp, hm, ?_⟩
      rcases hf with rfl | ⟨i, _, rfl⟩
      · simp [firstRegion]
      · simp [coarseRegion]
  refine ha f ?_ fun hown => ?_
  · have heq : allocs.map Prod.snd = s.k.st.blocks := hworld.blocks_eq
    rw [← heq]
    exact List.mem_map_of_mem hmem
  · have hne : (o, f) ≠ (Owner.client, f) := fun heq => ho (congrArg Prod.fst heq)
    have hdisj := hworld.disjoint_of_ne hmem (h.own f hown).1 hne
    unfold Region.Disjoint at hdisj
    simp only at hdisj
    omega

/-- A store off the blocks of the kernel keeps the invariant. -/
theorem KernelRun.Inv.store (h : s.Inv allocs) {a v : BitVec 32} (hfit : a.toNat + 4 ≤ 2 ^ 32)
    (ha : ∀ r ∈ s.k.st.blocks, r ∉ s.own → (Mem.wordAt a).Disjoint r) :
    Kernel.Inv { s.k with st := s.k.st.store32 a v } s.live s.tables allocs := by
  have hagree {r : Region} (hr : (Mem.wordAt a).Disjoint r) :
      Mem.AgreeOn (s.k.st.store32 a v).mem s.k.st.mem r := Mem.store32_agreeOn hfit hr
  refine h.kernel.withMem ?_ (fun _ hp => hp) (hagree ?_) (hagree ?_) (hagree ?_)
  · exact h.kernel.world.store fun pt hpt f hf => hagree (h.footprint_disjoint ha hpt hf)
  · exact h.pool_disjoint h.kernel.dom (by decide) (fun r hr => (h.own r hr).2.1) ha
  · exact h.pool_disjoint h.kernel.asid (by decide) (fun r hr => (h.own r hr).2.2.1) ha
  · exact h.pool_disjoint h.kernel.env (by decide) (fun r hr => (h.own r hr).2.2.2) ha

/-- The record stays in order when a step leaves the arrays, the slots of current
environments and the programs' blocks. -/
theorem KernelRun.Inv.frame (h : s.Inv allocs) {k' : Kernel} {live' : List (BitVec 32)}
    {allocs' : List (Owner × Region)} (hk : k'.Inv live' s.tables allocs')
    (hsub : ∀ p ∈ allocs, p ∈ allocs') (hpools : s.k.SamePools k') (henvs : k'.envs = s.k.envs)
    (hcurr : k'.currEnv = s.k.currEnv) : KernelRun.Inv ⟨k', live', s.tables, s.own⟩ allocs' := by
  refine ⟨hk, fun r hr => ?_, fun e he => ?_⟩
  · obtain ⟨hmem, hdom, hasid, henv⟩ := h.own r hr
    simp only [hpools.dom, hpools.asid, hpools.env]
    exact ⟨hsub _ hmem, hdom, hasid, henv⟩
  · simp only [henvs]
    exact h.current e (hcurr ▸ he)

/-- One operation keeps the invariant. -/
theorem KernelRun.Step.inv {o : KernelOp} (h : s.Inv allocs) (hstep : s.Step o s') :
    ∃ allocs', s'.Inv allocs' := by
  obtain ⟨hallowed, hop, heffect⟩ := hstep
  cases o with
  | envInit => exact hallowed.elim
  | envAlloc =>
    obtain ⟨e, hok, hs'⟩ := heffect
    obtain ⟨e', k', pt, hok', _, _, hinv, hpt, _⟩ := h.kernel.envAlloc hallowed.1 hallowed.2
    obtain ⟨rfl, hk'⟩ := Prod.mk.inj (Except.ok.inj (hok.symm.trans hok'))
    obtain ⟨hkeep, hcurr, hpools⟩ := envAlloc_frame hok
    rw [hs']
    rw [← hk'] at hinv hpt
    refine ⟨_, by rw [hpt]; exact hinv, fun r hr => ?_, fun e₁ he₁ => ?_⟩
    · obtain ⟨hmem, hdom, hasid, henv⟩ := h.own r hr
      simp only [hpools.dom, hpools.asid, hpools.env]
      exact ⟨List.mem_cons_of_mem _ hmem, hdom, hasid, henv⟩
    · by_cases heq : e₁ = e
      · simp [heq]
      · simp only [hkeep e₁ heq]
        exact List.mem_cons_of_mem _ (h.current e₁ (hcurr ▸ he₁))
  | envFree e =>
    obtain ⟨k', hok', hinv, _⟩ := h.kernel.envFree hallowed
    obtain hk' : s'.k = k' := Except.ok.inj (hop.symm.trans hok')
    obtain ⟨henvs, hcurr, hpools⟩ := envFree_frame hop
    rw [heffect]
    exact ⟨_, h.frame (hk' ▸ hinv) (fun _ hp => hp) hpools henvs hcurr⟩
  | envSwitchTo e =>
    obtain ⟨cp15, hk'⟩ := envSwitchTo_currEnv hop
    rw [heffect, hk']
    refine ⟨allocs, h.kernel.withCp15 _ _, h.own, fun e₁ he₁ => ?_⟩
    obtain rfl : e = e₁ := Option.some.inj he₁
    exact h.kernel.pt_mem e hallowed
  | mmuEnable =>
    obtain ⟨cp15, _, hk'⟩ := bind_eq_ok.mp hop
    rw [heffect, ← Except.ok.inj hk']
    exact ⟨allocs, h.frame (h.kernel.withCp15 cp15 _) (fun _ hp => hp) ⟨rfl, rfl, rfl⟩ rfl rfl⟩
  | mmuDisable =>
    obtain ⟨cp15, _, hk'⟩ := bind_eq_ok.mp hop
    rw [heffect, ← Except.ok.inj hk']
    exact ⟨allocs, h.frame (h.kernel.withCp15 cp15 _) (fun _ hp => hp) ⟨rfl, rfl, rfl⟩ rfl rfl⟩
  | kmalloc sz =>
    have hk' : s'.k = { s.k with st := (RpiVm.kmalloc s.k.st sz).2 } := (Except.ok.inj hop).symm
    obtain ⟨_, halloc⟩ := kmalloc_allocated hallowed
    have hinv := h.kernel.world.allocated halloc .client
    -- the block lies above everything handed out before
    have habove {r : Region} (hr : r.base + r.size ≤ s.k.st.heap.toNat) :
        Region.Disjoint ⟨s.k.st.heap.toNat, roundUpNat sz.toNat 8⟩ r := Or.inr hr
    have hdom := habove (h.kernel.dom.region_le h.kernel.world)
    have hasid := habove (h.kernel.asid.region_le h.kernel.world)
    have henv := habove (h.kernel.env.region_le h.kernel.world)
    have hkernel := h.kernel.withMem hinv (fun _ hp => List.mem_cons_of_mem _ hp)
      (halloc.frame _ hdom) (halloc.frame _ hasid) (halloc.frame _ henv)
    rw [heffect, hk']
    refine ⟨_, hkernel, fun r hr => ?_, h.current⟩
    simp only [halloc.blocks_eq, List.take_succ_cons, List.take_zero, List.singleton_append] at hr
    rcases List.mem_cons.mp hr with rfl | hr
    · exact ⟨List.mem_cons_self, hdom, hasid, henv⟩
    · obtain ⟨hmem, hrest⟩ := h.own r hr
      exact ⟨List.mem_cons_of_mem _ hmem, hrest⟩
  | map pt c =>
    obtain ⟨st, hexec, hk'⟩ := bind_eq_ok.mp hop
    have hworld : (s.k.world s.tables allocs).Step (.map pt c) ⟨st, s.tables,
        newBlocks (.coarse pt (firstIndex c.va)) s.k.st st ++ allocs⟩ :=
      ⟨hallowed, bind_eq_ok.mpr ⟨st, hexec, rfl⟩⟩
    rw [heffect, ← Except.ok.inj hk']
    exact ⟨_, h.frame (h.kernel.map hworld).1 (fun _ hp => List.mem_append_right _ hp)
      ⟨rfl, rfl, rfl⟩ rfl rfl⟩
  | store a v =>
    rw [heffect, ← Except.ok.inj hop]
    exact ⟨allocs, h.frame (h.store hallowed.1 hallowed.2) (fun _ hp => hp) ⟨rfl, rfl, rfl⟩ rfl rfl⟩

/-- The invariant holds in every reachable state. -/
theorem KernelRun.reachable_inv (hs : Reachable KernelRun.Step KernelRun.Init s) :
    ∃ allocs, s.Inv allocs := by
  refine hs.invariant (I := fun s => ∃ allocs, s.Inv allocs) ?_
    fun _ _ _ ⟨_, h⟩ hstep => hstep.inv h
  rintro ⟨k, live, tables, own⟩ ⟨rfl, rfl, rfl, hcurr, k₀, k₁, ⟨hblocks, hstores, hfit⟩, hok, rfl⟩
  obtain ⟨k', hok', ⟨allocs, hinv⟩, _⟩ := envInit_ok hblocks hstores hfit
  obtain rfl : k₁ = k' := Except.ok.inj (hok.symm.trans hok')
  exact ⟨allocs, hinv.withCp15 _ _, by simp, fun e he => absurd (hcurr.symm.trans he) (by simp)⟩

/-! ## Sequences of mapping calls -/

/-- A run of mapping calls on a table of the record, as a run of the kernel. -/
theorem KernelRun.run_map {pt : BitVec 32} {cs : List MapCall} {w : World}
    (hrun : Run World.Step (s.k.world s.tables allocs) (cs.map (.map pt)) w) :
    Run KernelRun.Step s (cs.map (.map pt)) ⟨{ s.k with st := w.st }, s.live, s.tables, s.own⟩ := by
  induction cs generalizing s allocs with
  | nil =>
    cases hrun
    exact .nil s
  | cons c cs ih =>
    cases hrun with
    | @cons _ w₁ _ _ _ hstep hrun =>
      obtain ⟨hallowed, hok⟩ := hstep
      obtain ⟨st, hexec, hw₁⟩ := bind_eq_ok.mp hok
      cases hw₁
      have hop : OpStep s.k (.map pt c) { s.k with st := st } := bind_eq_ok.mpr ⟨st, hexec, rfl⟩
      exact .cons ⟨hallowed, hop, rfl⟩
        (ih (s := ⟨{ s.k with st := st }, s.live, s.tables, s.own⟩) hrun)

/-- Proper requests that are apart run to their end on a table that maps nothing. -/
theorem KernelRun.Inv.run_maps (h : s.Inv allocs) {pt : BitVec 32} (hpt : pt ∈ s.tables)
    (hempty : tableOf s.k.st.mem pt = Table.empty) {cs : List MapCall}
    (hproper : ∀ c ∈ cs, c.Proper) (hapart : cs.Pairwise fun c c' => c'.Apart c)
    (hheap : s.k.st.heap.toNat + 2047 * cs.length < 2 ^ 32) :
    ∃ st, Run KernelRun.Step s (cs.map (.map pt))
        ⟨{ s.k with st := st }, s.live, s.tables, s.own⟩ ∧
      (tableOf st.mem pt).Maps cs.reverse ∧
      st.heap.toNat ≤ s.k.st.heap.toNat + 2047 * cs.length := by
  have hmaps : (tableOf (s.k.world s.tables allocs).st.mem pt).Maps [] := by
    rw [show tableOf (s.k.world s.tables allocs).st.mem pt = Table.empty from hempty]
    exact Table.Maps.empty
  obtain ⟨w, hrun, _, hmaps', hend, _⟩ :=
    h.kernel.world.run_maps hpt hmaps hproper (by simp) hapart hheap
  rw [List.append_nil] at hmaps'
  exact ⟨w.st, KernelRun.run_map hrun, hmaps', hend⟩

/-- A run of mapping calls, as a loop over the calls. -/
theorem foldlM_of_run_map {k k' : Kernel} {pt : BitVec 32} {cs : List MapCall}
    (h : Run OpStep k (cs.map (.map pt)) k') :
    cs.foldlM (fun s c => c.exec s pt) k.st = .ok k'.st := by
  induction cs generalizing k with
  | nil =>
    cases h
    rfl
  | cons c cs ih =>
    cases h with
    | cons hstep hrun =>
      obtain ⟨st, hexec, hk⟩ := bind_eq_ok.mp hstep
      cases hk
      exact bind_eq_ok.mpr ⟨st, hexec, ih hrun⟩

/-- The operations of a run of the kernel. -/
theorem KernelRun.run_op {s s' : KernelRun} {ops : List KernelOp}
    (h : Run KernelRun.Step s ops s') : Run OpStep s.k ops s'.k := by
  induction h with
  | nil s => exact .nil _
  | cons hstep _ ih => exact .cons hstep.2.1 ih

end RpiVm
