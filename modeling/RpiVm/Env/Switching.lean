import RpiVm.Env.System

/-!
# Sequences of switches

`env_switch_to` ends with `mmu_enable`, which asserts that the MMU is off. A sequence of
switches works exactly when the MMU is off at each of them: the other assertion of
`env_switch_to`, on the context id, holds because process ids stay small.
-/

namespace RpiVm

open CLib Transition

/-! ## One switch -/

/-- What a completed switch leaves. -/
structure Kernel.SwitchedTo (k : Kernel) (e : BitVec 32) (k' : Kernel) : Prop where
  /-- The environment is the current one. -/
  currEnv : k'.currEnv = some e
  /-- The hardware has its table. -/
  ttbr0 : k'.cp15.ttbr0 = (k.envs e).pt
  /-- Its domain register is in force. -/
  domainCtrl : k'.cp15.domainCtrl = (k.envs e).domainReg
  /-- The context id decodes to its process id and ASID. -/
  curpid : mmuGetCurpid k'.cp15 = ((k.envs e).pid, (k.envs e).asid)
  /-- The MMU is on. -/
  mmuOn : k'.cp15.mmuOn = true
  /-- The other bits of the control register stay. -/
  ctrlReg1 : ∀ i, i ≠ 0 → k'.cp15.ctrlReg1.getLsbD i = k.cp15.ctrlReg1.getLsbD i
  /-- The environments stay. -/
  envs : k'.envs = k.envs

/-- `mmu_enable` fails its assertion when the MMU is on. -/
theorem mmuEnable_of_on {h : Cp15} (hon : h.mmuOn = true) :
    mmuEnable h = .error (.assertion "!c.MMU_enabled") := by
  have hbit : ∀ b : BitVec 1, (b == 1) = true → (b == 0) = false := by decide
  have hset : (CtrlReg1.mmuEnabled.get h.ctrlReg1 == 0) = false := hbit _ hon
  simp only [mmuEnable, hset]
  rfl

/-- Enabling the MMU changes one bit of the control register. -/
theorem getLsbD_set_mmuEnabled (c v : BitVec 32) {i : ℕ} (hi : i ≠ 0) :
    (CtrlReg1.mmuEnabled.set c v).getLsbD i = c.getLsbD i := by
  by_cases hlt : i < 32
  · have hmask : ∀ j : Fin 32, j ≠ 0 → (~~~(1#32)).getLsbD j = true := by decide
    have hbit := hmask ⟨i, hlt⟩ fun h => hi (congrArg Fin.val h)
    have hval : ¬ i < 1 := by omega
    simp [BitField.set, BitField.mask, hlt, hi]
    exact fun _ => hbit
  · rw [BitVec.getLsbD_of_ge _ _ (by omega), BitVec.getLsbD_of_ge _ _ (by omega)]

/-- With the MMU off, a switch to an environment with a small process id completes. -/
theorem envSwitchTo_off {k : Kernel} {e : BitVec 32} (hoff : k.cp15.mmuOn = false)
    (hpid : (k.envs e).pid.toNat < 2 ^ 24) (hasid : (k.envs e).asid.toNat < 2 ^ 8) :
    ∃ k', envSwitchTo k e = .ok k' ∧ k.SwitchedTo e k' := by
  obtain ⟨h₂, hh₂, hcur, heq⟩ := envSwitchTo_eq hpid hasid
  obtain ⟨h₃, hok, hon, hh₃⟩ := mmuEnable_ok (h := h₂) (by rw [hh₂]; exact hoff)
  refine ⟨{ k with cp15 := h₃, currEnv := some e }, by rw [heq, hok]; rfl, ?_⟩
  refine ⟨rfl, by rw [hh₃, hh₂], by rw [hh₃, hh₂], by rw [hh₃]; exact hcur, hon, ?_, rfl⟩
  intro i hi
  rw [hh₃, hh₂]
  exact getLsbD_set_mmuEnabled _ _ hi

/-- With the MMU on, the switch fails the assertion of `mmu_enable`. -/
theorem envSwitchTo_on {k : Kernel} {e : BitVec 32} (hon : k.cp15.mmuOn = true)
    (hpid : (k.envs e).pid.toNat < 2 ^ 24) (hasid : (k.envs e).asid.toNat < 2 ^ 8) :
    envSwitchTo k e = .error (.assertion "!c.MMU_enabled") := by
  obtain ⟨h₂, hh₂, _, heq⟩ := envSwitchTo_eq hpid hasid
  rw [heq, mmuEnable_of_on (h := h₂) (by rw [hh₂]; exact hon)]
  rfl

/-- `mmu_disable` returns exactly when the MMU is on, and turns it off. -/
theorem mmuDisable_eq_ok {h h' : Cp15} (hok : mmuDisable h = .ok h') :
    h.mmuOn = true ∧ h'.mmuOn = false := by
  have hbit : ∀ b : BitVec 1, (b != 0) = true → (b == 1) = true := by decide
  obtain ⟨_, hassert, _⟩ := bind_eq_ok.mp hok
  have hon : h.mmuOn = true := hbit _ (assert_eq_ok.mp hassert)
  obtain ⟨h'', hok', hoff, _⟩ := mmuDisable_ok hon
  obtain rfl : h' = h'' := Except.ok.inj (hok.symm.trans hok')
  exact ⟨hon, hoff⟩

/-! ## Process ids in runs -/

/-- Runs of a machine whose static variables start at zero. -/
def KernelRun.Boot (s : KernelRun) : Prop := s.Init ∧ s.k.pidCnt = 0

/-- Every process id took a table from the heap. -/
structure KernelRun.SmallPids (s : KernelRun) : Prop where
  /-- The heap holds a table for each process id. -/
  heap_ge : 16384 * s.k.pidCnt.toNat ≤ s.k.st.heap.toNat
  /-- No live environment has a later process id. -/
  pid_le : ∀ e ∈ s.live, (s.k.envs e).pid.toNat ≤ s.k.pidCnt.toNat

/-- Steps that hand out no process id and do not lower the heap keep the bound. -/
theorem KernelRun.SmallPids.mono {s s' : KernelRun} (h : s.SmallPids)
    (hpid : s'.k.pidCnt = s.k.pidCnt) (henvs : s'.k.envs = s.k.envs)
    (hheap : s.k.st.heap.toNat ≤ s'.k.st.heap.toNat) (hlive : ∀ e ∈ s'.live, e ∈ s.live) :
    s'.SmallPids := by
  refine ⟨?_, fun e he => ?_⟩
  · rw [hpid]
    exact h.heap_ge.trans hheap
  · rw [hpid, henvs]
    exact h.pid_le e (hlive e he)

/-- One operation keeps the bound. -/
theorem KernelRun.Step.smallPids {s s' : KernelRun} {o : KernelOp}
    {allocs : List (Owner × Region)} (h : s.Inv allocs) (hsmall : s.SmallPids)
    (hstep : s.Step o s') : s'.SmallPids := by
  obtain ⟨hallowed, hop, heffect⟩ := hstep
  cases o with
  | envInit => exact hallowed.elim
  | envAlloc =>
    obtain ⟨e, hok, hs'⟩ := heffect
    obtain ⟨e', k', pt, hok', _, _, _, _, _, _, hpid, hkeep, _, hcnt, hpt, hheap, _⟩ :=
      h.kernel.envAlloc hallowed.1 hallowed.2
    obtain ⟨rfl, hk'⟩ := ok_pair_unique hok hok'
    rw [← hk'] at hpid hkeep hcnt hheap
    have hge := hsmall.heap_ge
    have hround : s.k.st.heap.toNat ≤ roundUpNat s.k.st.heap.toNat 16384 :=
      le_roundUpNat (by decide)
    have hlt := s.k.st.heap.isLt
    have hnext : (s.k.pidCnt + 1).toNat = s.k.pidCnt.toNat + 1 := by
      have hone : (1 : BitVec 32).toNat = 1 := rfl
      rw [BitVec.toNat_add, hone]
      omega
    refine ⟨by rw [hcnt, hnext, hheap, hpt]; omega, ?_⟩
    rw [hs']
    intro e₁ he₁
    simp only at he₁ ⊢
    rw [hcnt, hnext]
    rcases List.mem_cons.mp he₁ with rfl | he₁
    · rw [hpid, hnext]
    · rw [hkeep e₁ he₁]
      exact (hsmall.pid_le e₁ he₁).trans (Nat.le_succ _)
  | envFree e =>
    obtain ⟨k', hok', _, henvs, _, hpid, hheap, _⟩ := h.kernel.envFree hallowed
    obtain hk' : s'.k = k' := Except.ok.inj (hop.symm.trans hok')
    rw [← hk'] at henvs hpid hheap
    refine hsmall.mono hpid henvs (by rw [hheap]) fun e₁ he₁ => ?_
    rw [heffect] at he₁
    exact List.mem_of_mem_erase he₁
  | envSwitchTo e =>
    obtain ⟨cp15, hk'⟩ := envSwitchTo_currEnv hop
    rw [heffect, hk']
    exact hsmall.mono rfl rfl le_rfl fun _ he => he
  | mmuEnable =>
    obtain ⟨cp15, _, hk'⟩ := bind_eq_ok.mp hop
    rw [heffect, ← Except.ok.inj hk']
    exact hsmall.mono rfl rfl le_rfl fun _ he => he
  | mmuDisable =>
    obtain ⟨cp15, _, hk'⟩ := bind_eq_ok.mp hop
    rw [heffect, ← Except.ok.inj hk']
    exact hsmall.mono rfl rfl le_rfl fun _ he => he
  | kmalloc sz =>
    have hk' : s'.k = { s.k with st := (RpiVm.kmalloc s.k.st sz).2 } := (Except.ok.inj hop).symm
    obtain ⟨_, halloc⟩ := kmalloc_allocated hallowed
    rw [heffect, hk']
    refine hsmall.mono rfl rfl ?_ fun _ he => he
    simp only [halloc.heap_eq]
    omega
  | map pt c =>
    obtain ⟨st, hexec, hk'⟩ := bind_eq_ok.mp hop
    obtain ⟨_, hmap⟩ := MapCall.apply_of_exec (h.kernel.world.layout pt hallowed.1) hallowed.2 hexec
    rw [heffect, ← Except.ok.inj hk']
    exact hsmall.mono rfl rfl hmap.heap_le fun _ he => he
  | store a v =>
    rw [heffect, ← Except.ok.inj hop]
    exact hsmall.mono rfl rfl le_rfl fun _ he => he

/-- In every reachable state, process ids and ASIDs of live environments fit the context id. -/
theorem KernelRun.reachable_smallIds {s : KernelRun}
    (hs : Reachable KernelRun.Step KernelRun.Boot s) {e : BitVec 32} (he : e ∈ s.live) :
    (s.k.envs e).pid.toNat < 2 ^ 24 ∧ (s.k.envs e).asid.toNat < 2 ^ 8 := by
  have hboth : (∃ allocs, s.Inv allocs) ∧ s.SmallPids := by
    refine hs.invariant (I := fun s => (∃ allocs, s.Inv allocs) ∧ s.SmallPids) ?_ ?_
    · rintro s ⟨hinit, hpid⟩
      refine ⟨KernelRun.reachable_inv (Reachable.init hinit), ?_, ?_⟩
      · rw [hpid]
        exact Nat.zero_le _
      · rw [hinit.1]
        exact fun e he => absurd he List.not_mem_nil
    · rintro s o s' ⟨⟨allocs, h⟩, hsmall⟩ hstep
      exact ⟨hstep.inv h, hstep.smallPids h hsmall⟩
  obtain ⟨⟨allocs, h⟩, hsmall⟩ := hboth
  obtain ⟨_, hasid⟩ := h.kernel.asid.held_subset asidIds_nodup
  have hmem := (mem_idRange (by decide)).mp (hasid _ (List.mem_map_of_mem he))
  have hle := hsmall.pid_le e he
  have hge := hsmall.heap_ge
  have hlt := s.k.st.heap.isLt
  exact ⟨by omega, by omega⟩

/-! ## Sequences -/

/-- The calls of a sequence. -/
inductive SwitchOp where
  /-- `env_switch_to(e)`. -/
  | switch (e : BitVec 32)
  /-- `mmu_disable()`. -/
  | disable

/-- A call as an operation of the kernel. -/
def SwitchOp.op : SwitchOp → KernelOp
  | switch e => .envSwitchTo e
  | disable => .mmuDisable

/-- Every switch of a sequence that is reached completes and puts its environment in force. -/
def Kernel.SwitchesWork (k : Kernel) (ops : List SwitchOp) : Prop :=
  ∀ pre e post k₁, ops = pre ++ .switch e :: post → Run OpStep k (pre.map SwitchOp.op) k₁ →
    ∃ k₂, envSwitchTo k₁ e = .ok k₂ ∧ k₁.SwitchedTo e k₂

/-- The MMU is off at every switch of a sequence: it is off at the first, and is disabled
between two of them. After an `mmu_disable` that fails nothing is reached. -/
def OffAtSwitches : Bool → List SwitchOp → Prop
  | _, [] => True
  | on, .switch _ :: ops => on = false ∧ OffAtSwitches true ops
  | on, .disable :: ops => on = true → OffAtSwitches false ops

/-- The switches of a sequence work when the first does and then the rest. -/
theorem Kernel.switchesWork_cons {k : Kernel} {op : SwitchOp} {ops : List SwitchOp} :
    k.SwitchesWork (op :: ops) ↔
      (∀ e, op = .switch e → ∃ k₂, envSwitchTo k e = .ok k₂ ∧ k.SwitchedTo e k₂) ∧
      ∀ k₁, OpStep k op.op k₁ → k₁.SwitchesWork ops := by
  constructor
  · intro h
    refine ⟨fun e he => h [] e ops k (by rw [he]; rfl) (.nil k), ?_⟩
    intro k₁ hstep pre e post k₂ hops hrun
    exact h (op :: pre) e post k₂ (by rw [hops]; rfl) (.cons hstep hrun)
  · rintro ⟨hfirst, hrest⟩ pre e post k₁ hops hrun
    cases pre with
    | nil =>
      obtain ⟨rfl, rfl⟩ := List.cons.inj hops
      cases hrun
      exact hfirst e rfl
    | cons op' pre =>
      obtain ⟨rfl, rfl⟩ := List.cons.inj hops
      cases hrun with
      | cons hstep hrun => exact hrest _ hstep pre e post k₁ rfl hrun

/-- With ids that fit the context id, the switches of a sequence work exactly when the MMU
is off at each. -/
theorem Kernel.switchesWork_iff_off {k : Kernel} {ops : List SwitchOp}
    (hids : ∀ e, .switch e ∈ ops →
      (k.envs e).pid.toNat < 2 ^ 24 ∧ (k.envs e).asid.toNat < 2 ^ 8) :
    k.SwitchesWork ops ↔ OffAtSwitches k.cp15.mmuOn ops := by
  induction ops generalizing k with
  | nil => exact iff_of_true (fun pre e post k₁ hops => by simp at hops) trivial
  | cons op ops ih =>
    rw [Kernel.switchesWork_cons]
    have hrest : ∀ e, .switch e ∈ ops →
        (k.envs e).pid.toNat < 2 ^ 24 ∧ (k.envs e).asid.toNat < 2 ^ 8 :=
      fun e he => hids e (List.mem_cons_of_mem _ he)
    cases op with
    | switch e =>
      obtain ⟨hpid, hasid⟩ := hids e List.mem_cons_self
      constructor
      · rintro ⟨hfirst, hnext⟩
        obtain ⟨k₁, hok, hswitched⟩ := hfirst e rfl
        have hoff : k.cp15.mmuOn = false := by
          by_contra hon
          have hfails := envSwitchTo_on (Bool.of_not_eq_false hon) hpid hasid
          exact absurd (hok.symm.trans hfails) (by simp)
        have hops := (ih (by rw [hswitched.envs]; exact hrest)).mp (hnext k₁ hok)
        rw [hswitched.mmuOn] at hops
        exact ⟨hoff, hops⟩
      · rintro ⟨hoff, hops⟩
        obtain ⟨k₁, hok, hswitched⟩ := envSwitchTo_off hoff hpid hasid
        refine ⟨?_, ?_⟩
        · rintro e' heq
          obtain rfl := SwitchOp.switch.inj heq
          exact ⟨k₁, hok, hswitched⟩
        · intro k₂ hok₂
          obtain rfl : k₁ = k₂ := Except.ok.inj (hok.symm.trans hok₂)
          refine (ih (by rw [hswitched.envs]; exact hrest)).mpr ?_
          rw [hswitched.mmuOn]
          exact hops
    | disable =>
      constructor
      · rintro ⟨_, hnext⟩
        show k.cp15.mmuOn = true → OffAtSwitches false ops
        intro hon
        obtain ⟨h₁, hok, hoff, _⟩ := mmuDisable_ok hon
        have hstep : OpStep k .mmuDisable { k with cp15 := h₁ } := bind_eq_ok.mpr ⟨h₁, hok, rfl⟩
        have hops := (ih (k := { k with cp15 := h₁ }) hrest).mp (hnext _ hstep)
        simp only [hoff] at hops
        exact hops
      · intro hops
        refine ⟨nofun, ?_⟩
        intro k₁ hstep
        obtain ⟨h₁, hok, hk₁⟩ := bind_eq_ok.mp hstep
        obtain ⟨hon, hoff⟩ := mmuDisable_eq_ok hok
        obtain rfl := Except.ok.inj hk₁
        refine (ih (k := { k with cp15 := h₁ }) hrest).mpr ?_
        simp only [hoff]
        exact hops hon

/-- From every reachable state, the switches of a sequence on live environments work exactly
when the MMU is off at each. -/
theorem KernelRun.switchesWork_iff {s : KernelRun}
    (hs : Reachable KernelRun.Step KernelRun.Boot s) {ops : List SwitchOp}
    (hlive : ∀ e, .switch e ∈ ops → e ∈ s.live) :
    s.k.SwitchesWork ops ↔ OffAtSwitches s.k.cp15.mmuOn ops :=
  Kernel.switchesWork_iff_off fun e he => KernelRun.reachable_smallIds hs (hlive e he)

/-- A machine with one environment and the MMU off. -/
theorem KernelRun.exists_first_env : ∃ (s : KernelRun) (e : BitVec 32),
    Reachable KernelRun.Step KernelRun.Boot s ∧ e ∈ s.live ∧ s.k.cp15.mmuOn = false := by
  obtain ⟨k, hok, ⟨allocs, hinv⟩, hcp, hheap, hpid, hcurr⟩ :=
    envInit_ok (k := .start 0x140000#32) rfl rfl (by decide)
  let k₁ : Kernel := { k with cp15 := mmuInit k.cp15 }
  have hr₁ : Reachable KernelRun.Step KernelRun.Boot ⟨k₁, [], [], []⟩ :=
    Reachable.init ⟨⟨rfl, rfl, rfl, hcurr, _, k, ⟨rfl, rfl, by decide⟩, hok, rfl⟩, hpid⟩
  have hfit : kmallocAlignedEnd k₁.st.heap.toNat 16384 14 < 2 ^ 32 := by
    have hend : k₁.st.heap.toNat = _ := hheap
    rw [hend]
    decide
  obtain ⟨e, k₂, pt, hok₂, _, _, _, _, _, _, _, _, hcp₂, _⟩ :=
    (hinv.withCp15 (mmuInit k.cp15) k.currEnv).envAlloc (by simp) hfit
  have hr₂ : Reachable KernelRun.Step KernelRun.Boot ⟨k₂, [e], [(k₂.envs e).pt], []⟩ :=
    hr₁.step (a := .envAlloc) ⟨⟨by simp, hfit⟩, bind_eq_ok.mpr ⟨_, hok₂, rfl⟩, e, hok₂, rfl⟩
  refine ⟨_, e, hr₂, List.mem_singleton.mpr rfl, ?_⟩
  have hcp₃ : k₂.cp15 = mmuInit (Kernel.start 0x140000#32).cp15 := by
    rw [hcp₂, ← hcp]
  rw [hcp₃]
  decide

/-- Two switches with the MMU disabled in between. -/
theorem KernelRun.switchesWork_iff_first : ∃ (s : KernelRun) (e : BitVec 32),
    s.k.SwitchesWork [.switch e, .disable, .switch e] ↔
      OffAtSwitches s.k.cp15.mmuOn [.switch e, .disable, .switch e] := by
  obtain ⟨s, e, hs, he, _⟩ := KernelRun.exists_first_env
  refine ⟨s, e, KernelRun.switchesWork_iff hs ?_⟩
  intro e' he'
  obtain rfl : e' = e := by simpa using he'
  exact he

/-- A second switch right after the first fails the assertion of `mmu_enable`. -/
theorem KernelRun.second_switch_fails : ∃ (s s' : KernelRun) (e : BitVec 32),
    Reachable KernelRun.Step KernelRun.Boot s ∧ e ∈ s.live ∧ s.Step (.envSwitchTo e) s' ∧
    envSwitchTo s'.k e = .error (.assertion "!c.MMU_enabled") := by
  obtain ⟨s, e, hs, he, hoff⟩ := KernelRun.exists_first_env
  obtain ⟨hpid, hasid⟩ := KernelRun.reachable_smallIds hs he
  obtain ⟨k₁, hok, hswitched⟩ := envSwitchTo_off hoff hpid hasid
  refine ⟨s, ⟨k₁, s.live, s.tables, s.own⟩, e, hs, he, ⟨he, hok, rfl⟩, ?_⟩
  refine envSwitchTo_on hswitched.mmuOn ?_ ?_
  · rw [hswitched.envs]
    exact hpid
  · rw [hswitched.envs]
    exact hasid

end RpiVm
