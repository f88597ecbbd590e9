import RpiVm.Env.KernelMap
import RpiVm.Fault.Resume
import RpiVm.Lib.Arm

/-!
# User mode

A program in user mode on the map of `VM_PART5`. An access that its map does not allow goes
through `data_abort_vector`, and the program goes on behind the instruction that aborted.
-/

namespace RpiVm

open CLib Transition

/-! ## Accesses in user mode -/

/-- The access permissions allow an access in user mode. -/
def Attrs.allowsUser (a : Attrs) (isStore : Bool) : Bool :=
  if isStore then a.ap == 0b11 && a.apx == 0 else a.ap == 0b10 || a.ap == 0b11

/-- The fault of an access: its kind, whether it is on a section or a page, the domain, and
whether it is a store. -/
def Kernel.userFault (k : Kernel) (kind : BitVec 32) (isStore : Bool) (va : BitVec 32) : Fault :=
  let fld := firstWord k.st.mem k.cp15.tableBase (firstIndex va)
  ⟨kind ||| (if IsCoarse fld then 0b10#32 else 0) ||| (fld.extractLsb' 5 4).setWidth 32 <<< 4 |||
    if isStore then 1#32 <<< 11 else 0, va⟩

/-- The physical address of an access in user mode, or its fault. -/
def Kernel.userAccess (k : Kernel) (isStore : Bool) (va : BitVec 32) : Except Fault (BitVec 32) :=
  match k.translate va with
  | none => .error (k.userFault 0b00101 isStore va)
  | some r =>
    match k.cp15.domainCtrl.extractLsb' (2 * r.domain.toNat) 2 with
    | 0b01#2 =>
      if r.attrs.allowsUser isStore then .ok r.pa else .error (k.userFault 0b01101 isStore va)
    | 0b11#2 => .ok r.pa
    | _ => .error (k.userFault 0b01001 isStore va)

/-- The machine and the registers of a program. -/
structure UserState where
  /-- The machine. -/
  k : Kernel
  /-- `r0` to `r12`. -/
  regs : Fin 13 → BitVec 32

/-- An instruction of a program. -/
inductive UserInstr where
  /-- `ldrb rd, [rn]`. -/
  | ldrb (rd rn : Fin 13)
  /-- `strb rd, [rn]`. -/
  | strb (rd rn : Fin 13)
  /-- Any computation with the registers. -/
  | alu (f : (Fin 13 → BitVec 32) → Fin 13 → BitVec 32)

/-- The stack of the abort handler, from the stack below it up to `INT_STACK_ADDR`. -/
def intStack : Region := ⟨swiStackAddrFine.toNat, addressesPer64KB.toNat⟩

/-- Where `push {r0-r12, lr}` puts the registers. -/
def pushedRegs : BitVec 32 := intStackAddrFine - 56

/-- What the handler leaves in memory for itself. -/
structure AbortScratch where
  /-- `lr`, which belongs to the instruction that aborted. -/
  lr : UserState → Fault → BitVec 32
  /-- `buf` of `printk`. -/
  buf : BitVec 32
  /-- It lies below the stacks. -/
  buf_le : buf.toNat + 1024 ≤ intStack.base
  /-- What is in `buf` and in the frames of the handler at its end. -/
  left : UserState → Fault → Mem

/-- Addresses of `buf`, and of the stack below the registers that were pushed. -/
def AbortScratch.Overwrites (A : AbortScratch) (x : BitVec 32) : Prop :=
  Region.Contains ⟨A.buf.toNat, 1024⟩ x.toNat ∨
    Region.Contains ⟨intStack.base, intStack.size - 56⟩ x.toNat

instance (A : AbortScratch) (x : BitVec 32) : Decidable (A.Overwrites x) := by
  unfold AbortScratch.Overwrites Region.Contains
  infer_instance

/-- Addresses of `buf` and of the stack. -/
def AbortScratch.Touches (A : AbortScratch) (x : BitVec 32) : Prop :=
  Region.Contains ⟨A.buf.toNat, 1024⟩ x.toNat ∨ intStack.Contains x.toNat

/-- They are below the heap. -/
theorem AbortScratch.Touches.lt {A : AbortScratch} {x : BitVec 32} (h : A.Touches x) :
    x.toNat < sysHeapStart.toNat := by
  have hbuf := A.buf_le
  have hstart : sysHeapStart.toNat = 0x140000 := rfl
  have hbase : intStack.base = 0x120000 := rfl
  have hsize : intStack.size = 0x10000 := rfl
  obtain h | h := h <;> simp only [Region.Contains] at h <;> omega

/-- What is overwritten is among them. -/
theorem AbortScratch.Overwrites.touches {A : AbortScratch} {x : BitVec 32} (h : A.Overwrites x) :
    A.Touches x := by
  have hsize : intStack.size = 0x10000 := rfl
  refine h.imp_right fun h => ?_
  simp only [Region.Contains] at h ⊢
  omega

/-- The registers that are pushed are not overwritten. -/
theorem AbortScratch.not_overwrites {A : AbortScratch} {x : BitVec 32}
    (hlo : pushedRegs.toNat ≤ x.toNat) : ¬ A.Overwrites x := by
  have hbuf := A.buf_le
  have hpushed : pushedRegs.toNat = 0x12ffc8 := by decide
  have hbase : intStack.base = 0x120000 := rfl
  have hsize : intStack.size = 0x10000 := rfl
  rintro (h | h) <;> simp only [Region.Contains] at h <;> omega

/-- Where a register is. -/
theorem toNat_pushedRegs_add (i : Fin 13) :
    (pushedRegs + BitVec.ofNat 32 (4 * i)).toNat = 0x12ffc8 + 4 * i := by
  have hi := i.isLt
  have hpushed : pushedRegs.toNat = 0x12ffc8 := by decide
  rw [BitVec.toNat_add, BitVec.toNat_ofNat]
  omega

/-- The registers are popped as they were pushed. -/
theorem load32_pushed (m : Mem) (regs : Fin 13 → BitVec 32) (lr : BitVec 32) (i : Fin 13) :
    (Arm.storeWords m pushedRegs (List.ofFn regs ++ [lr])).load32
      (pushedRegs + BitVec.ofNat 32 (4 * i)) = regs i := by
  have hi := i.isLt
  have hlen : (List.ofFn regs ++ [lr]).length = 14 := by simp
  have hpushed : pushedRegs.toNat = 0x12ffc8 := by decide
  rw [Arm.load32_storeWords (by omega) (by rw [hlen]; omega),
    List.getElem_append_left (by rw [List.length_ofFn]; exact hi), List.getElem_ofFn]

/-- The push changes nothing else. -/
theorem AbortScratch.storeWords_pushed {A : AbortScratch} {x : BitVec 32} (hx : ¬ A.Touches x)
    (m : Mem) (regs : Fin 13 → BitVec 32) (lr : BitVec 32) :
    Arm.storeWords m pushedRegs (List.ofFn regs ++ [lr]) x = m x := by
  have hpushed : pushedRegs.toNat = 0x12ffc8 := by decide
  have hlen : (List.ofFn regs ++ [lr]).length = 14 := by simp
  have hout : ¬ intStack.Contains x.toNat := fun hin => hx (.inr hin)
  have hstack : intStack.base = 0x120000 ∧ intStack.size = 0x10000 := ⟨rfl, rfl⟩
  unfold Region.Contains at hout
  refine Arm.storeWords_agreeOn (r := ⟨x.toNat, 1⟩) (by rw [hlen]; omega) ?_ x
    ⟨le_rfl, Nat.lt_succ_self _⟩
  simp only [Region.Disjoint, hlen]
  omega

/-- What the handler leaves for itself does not change the registers that were pushed. -/
theorem AbortScratch.load32_overwrites (A : AbortScratch) {m m' : Mem}
    (hm : ∀ x : BitVec 32, x.toNat < sysHeapStart.toNat → m' x = m x) (left : Mem) (i : Fin 13) :
    Mem.load32 (fun x => if A.Overwrites x then left x else m' x)
      (pushedRegs + BitVec.ofNat 32 (4 * i)) =
        m.load32 (pushedRegs + BitVec.ofNat 32 (4 * i)) := by
  have hi := i.isLt
  have haddr := toNat_pushedRegs_add i
  have hpushed : pushedRegs.toNat = 0x12ffc8 := by decide
  have hstart : sysHeapStart.toNat = 0x140000 := rfl
  refine Mem.load32_congr (by omega) fun x hx => ?_
  simp only [Region.Contains, Mem.wordAt] at hx
  exact (if_neg (not_overwrites (by omega))).trans (hm x (by omega))

/-- A machine with another memory. -/
def Kernel.withMem (k : Kernel) (m : Mem) : Kernel := { k with st := { k.st with mem := m } }

/-- `data_abort_asm`: the registers are pushed, the handler runs, the registers are popped, and the
instruction behind the one that aborted is next. -/
def UserState.dataAbort (A : AbortScratch) (s : UserState) (f : Fault) :
    Except Panic UserState := do
  let pushed := Arm.storeWords s.k.st.mem pushedRegs (List.ofFn s.regs ++ [A.lr s f])
  let k ← dataAbortVector (s.k.withMem pushed) f
  let k := k.withMem fun x => if A.Overwrites x then A.left s f x else k.st.mem x
  pure ⟨k, fun i => k.st.mem.load32 (pushedRegs + BitVec.ofNat 32 (4 * i))⟩

/-- One instruction. -/
def UserState.exec (A : AbortScratch) (s : UserState) : UserInstr → Except Panic UserState
  | .ldrb rd rn =>
    match s.k.userAccess false (s.regs rn) with
    | .ok pa =>
      pure { s with regs := Function.update s.regs rd ((s.k.st.mem pa).setWidth 32) }
    | .error f => s.dataAbort A f
  | .strb rd rn =>
    match s.k.userAccess true (s.regs rn) with
    | .ok pa =>
      let mem := s.k.st.mem.store8 pa ((s.regs rd).setWidth 8)
      pure { s with k := { s.k with st := { s.k.st with mem := mem } } }
    | .error f => s.dataAbort A f
  | .alu f => pure { s with regs := f s.regs }

/-- The instructions that a program executes, one after the other. -/
def userRun (A : AbortScratch) (is : List UserInstr) (s : UserState) : Except Panic UserState :=
  is.foldlM (UserState.exec A) s

/-! ## The map after the set-up -/

/-- Every entry of a table belongs to one domain. -/
def Table.InDomain (t : Table) (d : BitVec 4) : Prop :=
  ∀ i, (∀ d' entries, t i = .coarse d' entries → d' = d) ∧
    ∀ base d' attrs, t i = .sec base d' attrs → d' = d

/-- Requests for one domain keep it so. -/
theorem MapCall.apply_inDomain {c : MapCall} {t t' : Table} {d : BitVec 4}
    (happly : c.apply t = some t') (h : t.InDomain d) (hc : c.domain.setWidth 4 = d) :
    t'.InDomain d := by
  intro i
  obtain ⟨_, _, rfl⟩ | ⟨_, d', entries, hcoarse, _, _, rfl⟩ := c.apply_cases happly
  · by_cases hi : i = firstIndex c.va
    · subst hi
      rw [Function.update_self, hc]
      simp
    · rw [Function.update_of_ne hi]
      exact h i
  · by_cases hi : i = firstIndex c.va
    · subst hi
      have hd' : d' = d := by
        cases hentry : t (firstIndex c.va) with
        | fault => simp_all [FirstLevel.asCoarse]
        | coarse d₁ entries₁ =>
          have hd₁ := (h _).1 d₁ entries₁ hentry
          simp_all [FirstLevel.asCoarse]
        | sec => simp [hentry, FirstLevel.asCoarse] at hcoarse
        | reserved => simp [hentry, FirstLevel.asCoarse] at hcoarse
      rw [Function.update_self, hd']
      simp
    · rw [Function.update_of_ne hi]
      exact h i

/-- A walk of such a table ends in the domain. -/
theorem Table.InDomain.walk {t : Table} {d : BitVec 4} (h : t.InDomain d) {va : BitVec 32}
    {r : Translation} (hr : t.walk va = some r) : r.domain = d := by
  rw [Table.walk] at hr
  cases hentry : t (firstIndex va) with
  | fault => simp [hentry, FirstLevel.walk] at hr
  | coarse d' entries =>
    rw [hentry, FirstLevel.walk] at hr
    rw [← (h _).1 d' entries hentry]
    cases hsecond : entries (secondIndex va) with
    | fault => simp [hsecond, SecondLevel.walk] at hr
    | lg base attrs => simp [hsecond, SecondLevel.walk] at hr; rw [← hr]
    | sm base attrs => simp [hsecond, SecondLevel.walk] at hr; rw [← hr]
  | sec base d' attrs =>
    rw [hentry, FirstLevel.walk] at hr
    rw [← (h _).2 base d' attrs hentry]
    simp at hr
    rw [← hr]
  | reserved => simp [hentry, FirstLevel.walk] at hr

/-- What the mapping calls of a set-up keep: the heap starts where it did, entries are in one
domain, and coarse tables lie above an address. -/
structure MappedAbove (start : BitVec 32) (lo : ℕ) (pt : BitVec 32) (d : BitVec 4) (s : State) :
    Prop where
  /-- The start of the heap. -/
  heapStart : s.heapStart = start
  /-- The end of the heap. -/
  le_heap : lo ≤ s.heap.toNat
  /-- The domain. -/
  inDomain : (tableOf s.mem pt).InDomain d
  /-- The coarse tables. -/
  coarse : ∀ i, IsCoarse (firstWord s.mem pt i) → lo ≤ (coarseBase (firstWord s.mem pt i)).toNat

/-- One mapping call keeps it. -/
theorem MappedAbove.step {start : BitVec 32} {lo : ℕ} {pt : BitVec 32} {d : BitVec 4} {w w' : World}
    {c : MapCall} (h : MappedAbove start lo pt d w.st) (hinv : w.Inv)
    (hstep : w.Step (.map pt c) w') (hc : c.domain.setWidth 4 = d) :
    MappedAbove start lo pt d w'.st := by
  obtain ⟨happly, heffect, _⟩ := hstep.map_effect hinv
  refine ⟨heffect.heapStart_eq.trans h.heapStart, h.le_heap.trans heffect.heap_le,
    MapCall.apply_inDomain happly h.inDomain hc, ?_⟩
  intro i hi
  by_cases hic : i = firstIndex c.va
  · subst hic
    obtain ⟨_, _, hold⟩ | ⟨_, _, _, hle, _⟩ := heffect.alloc
    · rw [heffect.keep (hold hi)]
      exact h.coarse _ (hold hi)
    · exact h.le_heap.trans hle
  · rw [heffect.others i hic] at hi ⊢
    exact h.coarse i hi

/-- So do many. -/
theorem MappedAbove.run {start : BitVec 32} {lo : ℕ} {pt : BitVec 32} {d : BitVec 4} {w w' : World}
    {cs : List MapCall} (h : MappedAbove start lo pt d w.st) (hinv : w.Inv)
    (hrun : Run World.Step w (cs.map (.map pt)) w') (hcs : ∀ c ∈ cs, c.domain.setWidth 4 = d) :
    MappedAbove start lo pt d w'.st := by
  induction cs generalizing w with
  | nil =>
    cases hrun
    exact h
  | cons c cs ih =>
    cases hrun with
    | cons hstep hrun =>
      exact ih (h.step hinv hstep (hcs c List.mem_cons_self)) (hstep.inv hinv) hrun
        fun c' hc' => hcs c' (List.mem_cons_of_mem c hc')

/-- A vector is made on the heap as it is. -/
theorem bvecMk_heapStart {s s' : State} {lb ub : BitVec 32} {b : Bvec}
    (h : bvecMk s lb ub = .ok (b, s')) : s'.heapStart = s.heapStart := by
  have hloop : ∀ (is : List ℕ) (p p' : Bvec × State),
      is.foldlM (fun p i => bvecFree p.2 p.1 (ub - BitVec.ofNat 32 i - 1)) p = .ok p' →
        p'.2.heapStart = p.2.heapStart := by
    intro is
    induction is with
    | nil =>
      intro p p' hp
      cases hp
      rfl
    | cons i is ih =>
      intro p p' hp
      obtain ⟨p₁, hp₁, hp⟩ := bind_eq_ok.mp hp
      obtain ⟨_, _, hp₁⟩ := bind_eq_ok.mp hp₁
      split_ifs at hp₁
      cases hp₁
      exact (ih _ _ hp).trans rfl
  obtain ⟨_, _, h⟩ := bind_eq_ok.mp h
  exact hloop _ _ _ h

/-- No call asks for read-only memory. -/
theorem vmPart5Calls_apx : ∀ c ∈ vmPart5Calls, (flagAttrs c.flags).apx = 0 := by decide +kernel

/-- The address space of a program after the set-up. -/
structure UserSpace (k : Kernel) (e : BitVec 32) : Prop where
  /-- The environment is the current one. -/
  currEnv : k.currEnv = some e
  /-- The hardware walks its table. -/
  tableBase : k.cp15.tableBase = (k.envs e).pt
  /-- The heap starts where the set-up puts it. -/
  heapStart : k.st.heapStart = sysHeapStart
  /-- It ends within its first 768 KB. -/
  heap_lt : sysHeapStart.toNat ≤ k.st.heap.toNat ∧ k.st.heap.toNat < 0x200000
  /-- The table is laid out. -/
  layout : Layout k.st.mem (k.envs e).pt k.st.heap.toNat
  /-- On the heap. -/
  footprint_ge : ∀ r, Footprint k.st.mem (k.envs e).pt r → sysHeapStart.toNat ≤ r.base
  /-- It is the kernel's map. -/
  map : ∀ v, ((tableOf k.st.mem (k.envs e).pt).walk v).map (fun r => (r.pa, r.attrs.ap)) =
    kernelMap v
  /-- Nothing is read-only. -/
  apx : ∀ v r, (tableOf k.st.mem (k.envs e).pt).walk v = some r → r.attrs.apx = 0
  /-- There is one domain. -/
  inDomain : (tableOf k.st.mem (k.envs e).pt).InDomain ((k.envs e).domain.setWidth 4)
  /-- Accesses in it are checked. -/
  client : k.cp15.domainCtrl.extractLsb'
    (2 * ((k.envs e).domain.setWidth 4 : BitVec 4).toNat) 2 = 0b01#2

/-- The set-up leaves a program with an address space. -/
theorem UserSpace.of_vmPart5 {k₀ k : Kernel} {e : BitVec 32} (hload : k₀.Loaded)
    (hsetup : vmPart5 k₀ = .ok (e, k)) : UserSpace k e := by
  have h := VmPart5.of_ok hload hsetup
  obtain ⟨k₁, hinit, hok⟩ := bind_eq_ok.mp hsetup
  obtain ⟨⟨e', k₃⟩, halloc, hok⟩ := bind_eq_ok.mp hok
  obtain ⟨st, hmap, hok⟩ := bind_eq_ok.mp hok
  obtain ⟨k₅, hswitch, hok⟩ := bind_eq_ok.mp hok
  obtain ⟨_, _, hok⟩ := bind_eq_ok.mp hok
  cases hok
  -- the heap after `env_init`
  have hfit : envInitEnd (kmallocSetStart k₀.st sysHeapStart).heap.toNat < 2 ^ 32 := by
    show envInitEnd 0x140000 < _
    decide
  obtain ⟨k₁', hinit', ⟨allocs₁, hinv₁⟩, _, hheap₁, _, _⟩ :=
    envInit_ok (k := { k₀ with st := kmallocSetStart k₀.st sysHeapStart }) hload.blocks hload.stores
      hfit
  obtain rfl := Except.ok.inj (hinit.symm.trans hinit')
  have hend₁ : k₁.st.heap.toNat = 0x140160 := hheap₁
  have hstart₁ : k₁.st.heapStart = sysHeapStart := by
    obtain ⟨⟨_, s₁⟩, h₁, hrest⟩ := bind_eq_ok.mp hinit
    obtain ⟨⟨_, s₂⟩, h₂, hrest⟩ := bind_eq_ok.mp hrest
    obtain ⟨⟨_, s₃⟩, h₃, hrest⟩ := bind_eq_ok.mp hrest
    cases hrest
    exact (bvecMk_heapStart h₃).trans ((bvecMk_heapStart h₂).trans (bvecMk_heapStart h₁))
  -- the table of the environment, which is empty
  have hfit₂ : kmallocAlignedEnd k₁.st.heap.toNat 16384 14 < 2 ^ 32 := by
    rw [hend₁]
    decide
  obtain ⟨e₃, k₃', pt, halloc', _, _, hinv₃, hpt₃, _, _, _, _, _, _, hbase₃, hheap₃, hempty₃, _⟩ :=
    (hinv₁.withCp15 (mmuInit k₁.cp15) k₁.currEnv).envAlloc (by simp) hfit₂
  obtain ⟨rfl, rfl⟩ := ok_pair_unique halloc halloc'
  have hstart₃ : k₃.st.heapStart = sysHeapStart := by
    obtain ⟨_, _, hrest⟩ := bind_eq_ok.mp halloc
    obtain ⟨⟨_, s⟩, hpt, hrest⟩ := bind_eq_ok.mp hrest
    obtain ⟨_, _, hrest⟩ := bind_eq_ok.mp hrest
    obtain ⟨_, _, hrest⟩ := bind_eq_ok.mp hrest
    cases hrest
    obtain ⟨_, _, hpt', _, hallocated, _⟩ := mmuPtAlloc_allocated 4096 hfit₂
    obtain ⟨_, rfl⟩ := ok_pair_unique hpt hpt'
    exact hallocated.heapStart_eq.trans hstart₁
  have hend₃ : k₃.st.heap.toNat = 0x148000 := by
    rw [hheap₃, hbase₃]
    show roundUpNat k₁.st.heap.toNat 16384 + 16384 = _
    rw [hend₁]
    decide
  -- the mapping calls
  obtain ⟨cp15, rfl⟩ := envSwitchTo_currEnv hswitch
  obtain ⟨hproper, hapart⟩ :=
    proper_withDomain (k₃.envs e).domain vmPart5Calls_proper vmPart5Calls_apart
  have hlen : (vmPart5Calls.map (MapCall.withDomain (k₃.envs e).domain)).length = 278 := by
    rw [List.length_map]
    decide +kernel
  have hmaps : (tableOf k₃.st.mem pt).Maps [] := by
    rw [hempty₃]
    exact Table.Maps.empty
  obtain ⟨w, hrun, _, _, _, _⟩ := hinv₃.world.run_maps List.mem_cons_self hmaps hproper (by simp)
    hapart (by rw [hlen]; show k₃.st.heap.toNat + _ < _; rw [hend₃]; decide)
  obtain rfl : st = w.st := by
    have hfold := World.foldlM_of_run hrun
    rw [vmPart5Map, hpt₃] at hmap
    exact Except.ok.inj (hmap.symm.trans hfold)
  have hfresh : MappedAbove sysHeapStart sysHeapStart.toNat pt ((k₃.envs e).domain.setWidth 4)
      k₃.st := by
    refine ⟨hstart₃, by rw [hend₃]; decide, ?_, ?_⟩
    · rw [hempty₃]
      exact fun i => ⟨nofun, nofun⟩
    · intro i hi
      have hcoarse := tableOf_of_isCoarse hi
      rw [hempty₃] at hcoarse
      cases hcoarse
  have hcalls : ∀ c ∈ vmPart5Calls.map (MapCall.withDomain (k₃.envs e).domain),
      c.domain.setWidth 4 = (k₃.envs e).domain.setWidth 4 := by
    intro c hc
    obtain ⟨c, _, rfl⟩ := List.mem_map.mp hc
    rfl
  have habove := hfresh.run hinv₃.world hrun hcalls
  rw [← hpt₃] at habove
  obtain ⟨allocs, hinv⟩ := KernelRun.reachable_inv h.reachable
  have hlayout := hinv.current_layout h.currEnv
  refine ⟨h.currEnv, h.tableBase, habove.heapStart, ⟨habove.le_heap, h.heap_lt⟩, hlayout, ?_,
    fun v => h.maps.kernelMap v, ?_, habove.inDomain, ?_⟩
  · rintro r (rfl | ⟨i, hi, rfl⟩)
    · show sysHeapStart.toNat ≤ (k₃.envs e).pt.toNat
      rw [hpt₃, hbase₃]
      show _ ≤ roundUpNat k₁.st.heap.toNat 16384
      rw [hend₁]
      decide
    · exact habove.coarse i hi
  · intro v r hr
    by_cases hv : ∃ c ∈ (vmPart5Calls.map (MapCall.withDomain (k₃.envs e).domain)).reverse,
        c.Covers v
    · obtain ⟨c, hc, hlo, hhi⟩ := hv
      have hsum : c.va + (v - c.va) = v := by rw [BitVec.add_comm, BitVec.sub_add_cancel]
      obtain ⟨r', hr', _, hattrs, _⟩ := h.maps.inside c hc (v - c.va) (by
        rw [BitVec.toNat_sub_of_le hlo]
        exact Nat.sub_lt_left_of_lt_add hlo hhi)
      rw [hsum] at hr'
      obtain rfl := Option.some.inj (hr'.symm.trans hr)
      obtain ⟨c, hmem, rfl⟩ := List.mem_map.mp (List.mem_reverse.mp hc)
      rw [hattrs]
      exact vmPart5Calls_apx c hmem
    · push Not at hv
      cases (h.maps.outside v hv).symm.trans hr
  · have hisolated := hinv.kernel.isolated
    have hrange := hisolated.domains_range e List.mem_cons_self
    rw [h.domainCtrl, hisolated.domainReg_field e List.mem_cons_self _ (BitVec.isLt _),
      BitVec.toNat_setWidth]
    simp only at hrange ⊢
    rw [if_pos (by omega)]

end RpiVm
