import RpiVm.Env.System

/-!
# The set-up of the committed test

`notmain` and `vm_tests` of `driver.c`, compiled with `VM_PART5`, up to the switch
to user mode: the heap, the environments, and the map of the kernel, its stacks,
its heap and the peripherals, one to one.
-/

namespace RpiVm

open CLib Transition

/-! ## Constants of `memmap-constants.h` -/

/-- `KERNEL_BASE`. -/
def kernelBase : BitVec 32 := 0x8000

/-- `ADDRESSES_PER_MB`. -/
def addressesPerMB : BitVec 32 := 0x100000

/-- `ADDRESSES_PER_64KB`. -/
def addressesPer64KB : BitVec 32 := 0x10000

/-- `ADDRESSES_PER_4KB`. -/
def addressesPer4KB : BitVec 32 := 0x1000

/-- `SWI_STACK_ADDR_FINE`. -/
def swiStackAddrFine : BitVec 32 := 0x120000

/-- `INT_STACK_ADDR_FINE`. -/
def intStackAddrFine : BitVec 32 := 0x130000

/-- `SYS_STACK_ADDR_FINE`. -/
def sysStackAddrFine : BitVec 32 := 0x400000

/-- `SYS_HEAP_START`. -/
def sysHeapStart : BitVec 32 := 0x140000

/-! ## The set-up -/

/-- A request that maps an address to itself. -/
def identityCall (kind : PageKind) (a flags : BitVec 32) : MapCall := ⟨kind, a, a, 0, flags⟩

/-- The mapping calls of `VM_PART5`, before the domain is filled in. -/
def vmPart5Calls : List MapCall :=
  identityCall .sm 0x0 fNoUsrAccess ::
  ((List.range 256).map fun i =>
    identityCall .sm (kernelBase + BitVec.ofNat 32 i * addressesPer4KB) 0) ++
  identityCall .lg (swiStackAddrFine - addressesPer64KB) 0 ::
  identityCall .lg (intStackAddrFine - addressesPer64KB) 0 ::
  ((List.range 16).map fun i =>
    identityCall .lg (sysHeapStart + BitVec.ofNat 32 i * addressesPer64KB) 0) ++
  [identityCall .sec (sysStackAddrFine - addressesPerMB) 0,
    identityCall .sec 0x20000000 0,
    identityCall .sec 0x20200000 0]

/-- The mapping calls on the table of an environment, in its domain. -/
def vmPart5Map (s : State) (env : Env) : Except Panic State :=
  (vmPart5Calls.map (MapCall.withDomain env.domain)).foldlM (fun s c => c.exec s env.pt) s

/-- `notmain` and `vm_tests` with `VM_PART5`, until the environment is entered. -/
def vmPart5 (k : Kernel) : Except Panic (BitVec 32 × Kernel) := do
  let k := { k with st := kmallocSetStart k.st sysHeapStart }
  let k ← envInit k
  let k := { k with cp15 := mmuInit k.cp15 }
  let (e, k) ← envAlloc k
  let s ← vmPart5Map k.st (k.envs e)
  let k ← envSwitchTo { k with st := s } e
  assert k.cp15.mmuOn "mmu_is_on()"
  pure (e, k)

/-! ## The map -/

/-- One request ends at or before the start of another. -/
def MapCall.Below (c c' : MapCall) : Prop := c.va.toNat + c.kind.size ≤ c'.va.toNat

instance (c c' : MapCall) : Decidable (c.Below c') := by unfold MapCall.Below; infer_instance

instance : Trans MapCall.Below MapCall.Below MapCall.Below where
  trans h h' := by
    unfold MapCall.Below at *
    omega

/-- Aligned requests one below the other are apart. -/
theorem MapCall.Below.apart {c c' : MapCall} (h : c.Below c') (hc : c.Aligned) (hc' : c'.Aligned) :
    c'.Apart c := by
  unfold Below at h
  refine ⟨Or.inr h, fun hsec => ?_⟩
  obtain ⟨hva, _⟩ := hc
  obtain ⟨hva', _⟩ := hc'
  rw [ne_eq, firstIndex_eq_iff]
  rcases hsec with hk | hk
  · rw [hk] at hva'
    have hpos : 0 < c.kind.size := by cases c.kind <;> decide
    simp only [PageKind.size] at hva'
    omega
  · rw [hk] at hva h
    simp only [PageKind.size] at hva h
    omega

/-- The calls are proper. -/
theorem vmPart5Calls_proper : ∀ c ∈ vmPart5Calls, c.Proper := by decide +kernel

/-- The calls are made in the order of their addresses, hence apart. -/
theorem vmPart5Calls_apart : vmPart5Calls.Pairwise fun c c' => c'.Apart c := by
  have hchain : vmPart5Calls.IsChain MapCall.Below := by decide +kernel
  have hbelow := List.isChain_iff_pairwise.mp hchain
  exact hbelow.imp_of_mem fun hc hc' h =>
    h.apart (vmPart5Calls_proper _ hc).1 (vmPart5Calls_proper _ hc').1

/-! ## What the set-up leaves -/

/-- The machine as the loader leaves it: the heap has handed out nothing, the
static variables are zero, and the MMU is off. -/
structure Kernel.Loaded (k : Kernel) : Prop where
  /-- No block. -/
  blocks : k.st.blocks = []
  /-- No store is recorded. -/
  stores : k.st.stores = []
  /-- `curr_env` is null. -/
  currEnv : k.currEnv = none
  /-- `pid_cnt` is zero. -/
  pidCnt : k.pidCnt = 0
  /-- The MMU is off. -/
  mmuOff : k.cp15.mmuOn = false

/-- The state after the set-up of `VM_PART5`. -/
structure VmPart5 (k : Kernel) (e : BitVec 32) : Prop where
  /-- It is a state of a run of the kernel. -/
  reachable : Reachable KernelRun.Step KernelRun.Init ⟨k, [e], [(k.envs e).pt], []⟩
  /-- The table maps what the calls ask for. -/
  maps : (tableOf k.st.mem (k.envs e).pt).Maps
    (vmPart5Calls.map (MapCall.withDomain (k.envs e).domain)).reverse
  /-- The environment is the current one. -/
  currEnv : k.currEnv = some e
  /-- The MMU is on. -/
  mmuOn : k.cp15.mmuOn = true
  /-- The hardware walks its table. -/
  tableBase : k.cp15.tableBase = (k.envs e).pt
  /-- Its domain register is in force. -/
  domainCtrl : k.cp15.domainCtrl = (k.envs e).domainReg
  /-- The heap ends below the stack. -/
  heap_lt : k.st.heap.toNat < 0x200000

/-- `mmu_init` leaves the MMU as it is. -/
theorem mmuInit_mmuOn (h : Cp15) : (mmuInit h).mmuOn = h.mmuOn := by
  have hsame : CtrlReg1.mmuEnabled.get (CtrlReg1.xpPt.set h.ctrlReg1 1) =
      CtrlReg1.mmuEnabled.get h.ctrlReg1 := by
    simp [BitField.get]
  exact congrArg (· == 1) hsame

/-- The hardware ignores no bit of a table that is aligned. -/
theorem tableBase_of_aligned {h : Cp15} (hmod : h.ttbr0.toNat % 16384 = 0) :
    h.tableBase = h.ttbr0 := by
  apply BitVec.eq_of_toNat_eq
  have hmask : (0x3fff : BitVec 32) = BitVec.twoPow 32 14 - 1 := by decide
  rw [Cp15.tableBase, hmask, toNat_and_not_twoPow_sub_one _ (by decide)]
  omega

/-- The set-up succeeds on a machine that was just loaded. -/
theorem vmPart5_ok {k : Kernel} (h : k.Loaded) : ∃ e k', vmPart5 k = .ok (e, k') ∧ VmPart5 k' e := by
  let k₀ : Kernel := { k with st := kmallocSetStart k.st sysHeapStart }
  have hfit₀ : envInitEnd k₀.st.heap.toNat < 2 ^ 32 := by show envInitEnd 0x140000 < _; decide
  obtain ⟨k₁, hok₁, ⟨allocs₁, hinv₁⟩, hcp₁, hheap₁, hpid₁, hcurr₁⟩ :=
    envInit_ok (k := k₀) h.blocks h.stores hfit₀
  have hend₁ : k₁.st.heap.toNat = 0x140160 := hheap₁.trans (by show envInitEnd 0x140000 = _; decide)
  let k₂ : Kernel := { k₁ with cp15 := mmuInit k₁.cp15 }
  have hr₂ : Reachable KernelRun.Step KernelRun.Init ⟨k₂, [], [], []⟩ :=
    Reachable.init ⟨rfl, rfl, rfl, hcurr₁.trans h.currEnv, k₀, k₁, ⟨h.blocks, h.stores, hfit₀⟩,
      hok₁, rfl⟩
  -- the environment
  have hfit₂ : kmallocAlignedEnd k₂.st.heap.toNat 16384 14 < 2 ^ 32 := by
    show kmallocAlignedEnd k₁.st.heap.toNat 16384 14 < _
    rw [hend₁]
    decide
  obtain ⟨e, k₃, pt, hok₃, _, _, hinv₃, hpt₃, hdomain₃, hasid₃, hpid₃, _, hcp₃, _, hbase₃, hheap₃,
    hempty₃, _⟩ := (hinv₁.withCp15 (mmuInit k₁.cp15) k₁.currEnv).envAlloc (by simp) hfit₂
  have hr₃ : Reachable KernelRun.Step KernelRun.Init ⟨k₃, [e], [(k₃.envs e).pt], []⟩ :=
    hr₂.step (a := .envAlloc) ⟨⟨by simp, hfit₂⟩, bind_eq_ok.mpr ⟨_, hok₃, rfl⟩, e, hok₃, rfl⟩
  have hend₃ : k₃.st.heap.toNat = 0x148000 := by
    rw [hheap₃, hbase₃]
    show roundUpNat k₁.st.heap.toNat 16384 + 16384 = _
    rw [hend₁]
    decide
  -- its map
  obtain ⟨hproper, hapart⟩ :=
    proper_withDomain (k₃.envs e).domain vmPart5Calls_proper vmPart5Calls_apart
  have hlen : (vmPart5Calls.map (MapCall.withDomain (k₃.envs e).domain)).length = 278 := by
    rw [List.length_map]
    decide +kernel
  obtain ⟨allocs, hrun⟩ := KernelRun.reachable_inv hr₃
  obtain ⟨st, hrun₄, hmaps₄, hheap₄⟩ := hrun.run_maps (List.mem_singleton.mpr rfl)
    (show tableOf k₃.st.mem (k₃.envs e).pt = Table.empty by rw [hpt₃]; exact hempty₃) hproper hapart
    (by rw [hlen]; simp only [hend₃]; decide)
  have hmap₄ : vmPart5Map k₃.st (k₃.envs e) = .ok st := foldlM_of_run_map (KernelRun.run_op hrun₄)
  let k₄ : Kernel := { k₃ with st := st }
  -- the switch
  have hpid₄ : (k₄.envs e).pid.toNat < 2 ^ 24 := by
    show (k₃.envs e).pid.toNat < 2 ^ 24
    rw [hpid₃]
    show (k₁.pidCnt + 1).toNat < 2 ^ 24
    rw [hpid₁.trans h.pidCnt]
    decide
  have hasid₄ : (k₄.envs e).asid.toNat < 2 ^ 8 := by
    have hmem := (mem_idRange (by decide)).mp hasid₃
    show (k₃.envs e).asid.toNat < 2 ^ 8
    omega
  have hoff₄ : k₄.cp15.mmuOn = false := by
    show k₃.cp15.mmuOn = false
    rw [hcp₃]
    show (mmuInit k₁.cp15).mmuOn = false
    rw [mmuInit_mmuOn, hcp₁]
    exact h.mmuOff
  obtain ⟨h₅, hok₅, hon₅, httbr₅, hctrl₅, _, _⟩ := envSwitchTo_ok (k := k₄) hoff₄ hpid₄ hasid₄
  refine ⟨e, { k₄ with cp15 := h₅, currEnv := some e }, ?_, ?_, hmaps₄, rfl, hon₅, ?_, hctrl₅, ?_⟩
  · exact bind_eq_ok.mpr ⟨_, hok₁, bind_eq_ok.mpr ⟨_, hok₃, bind_eq_ok.mpr ⟨_, hmap₄,
      bind_eq_ok.mpr ⟨_, hok₅, bind_eq_ok.mpr ⟨(), assert_eq_ok.mpr hon₅, rfl⟩⟩⟩⟩⟩
  · exact (hr₃.run hrun₄).step (a := .envSwitchTo e) ⟨List.mem_singleton.mpr rfl, hok₅, rfl⟩
  · refine (tableBase_of_aligned ?_).trans httbr₅
    rw [httbr₅]
    show (k₃.envs e).pt.toNat % 16384 = 0
    rw [hpt₃, hbase₃]
    exact roundUpNat_mod _ _
  · rw [hlen] at hheap₄
    simp only [hend₃] at hheap₄
    show st.heap.toNat < 0x200000
    omega

/-- What the set-up leaves, whenever it succeeds. -/
theorem VmPart5.of_ok {k k' : Kernel} {e : BitVec 32} (h : k.Loaded)
    (hok : vmPart5 k = .ok (e, k')) : VmPart5 k' e := by
  obtain ⟨e', k'', hok', hsetup⟩ := vmPart5_ok h
  obtain ⟨rfl, rfl⟩ := ok_pair_unique hok hok'
  exact hsetup

end RpiVm
