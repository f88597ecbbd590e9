import RpiVm.Env.Spaces

/-!
# Translations that outlive their table

While the MMU is on, the hardware may keep any translation of the current table
in the TLB. Of the kernel's operations only `mmu_init` empties the TLB, so after
a switch to an environment it holds what earlier tables translated.
-/

namespace RpiVm

open CLib Transition

/-! ## Events -/

/-- A kernel with other contents of the TLB. -/
def Kernel.withTlb (k : Kernel) (tlb : List TlbEntry) : Kernel :=
  { k with cp15 := { k.cp15 with tlb := tlb } }

/-- What happens in a run: an operation, or the hardware adds a translation. -/
inductive TlbEvent where
  /-- An operation. -/
  | op (o : KernelOp)
  /-- The hardware walks the current table, for an access or ahead of one. -/
  | fill (va : BitVec 32)

/-- One event. -/
def TlbStep (k : Kernel) (ev : TlbEvent) (k' : Kernel) : Prop :=
  match ev with
  | .op o => k.exec o = .ok k'
  | .fill va => k.cp15.mmuOn = true ∧ ∃ r, k.translate va = some r ∧
      k' = k.withTlb (k.cp15.entry va r :: k.cp15.tlb)

/-- The operations among the events of a run. -/
def opsOf (evs : List TlbEvent) : List KernelOp :=
  evs.filterMap fun
    | .op o => some o
    | .fill _ => none

/-! ## Operations do not look at the TLB -/

@[simp] theorem Kernel.withTlb_withTlb (k : Kernel) (t t' : List TlbEntry) :
    (k.withTlb t).withTlb t' = k.withTlb t' := rfl

@[simp] theorem Kernel.withTlb_self (k : Kernel) : k.withTlb k.cp15.tlb = k := rfl

@[simp] theorem Kernel.translate_withTlb (k : Kernel) (t : List TlbEntry) (va : BitVec 32) :
    (k.withTlb t).translate va = k.translate va := rfl

/-- The TLB matters to no operation, and no operation changes it. -/
theorem Kernel.exec_withTlb {k k' : Kernel} {o : KernelOp} (t : List TlbEntry)
    (h : k.exec o = .ok k') : (k.withTlb t).exec o = .ok (k'.withTlb t) := by
  cases o with
  | envInit =>
    obtain ⟨_, h₁, h⟩ := bind_eq_ok.mp h
    obtain ⟨_, h₂, h⟩ := bind_eq_ok.mp h
    obtain ⟨_, h₃, h⟩ := bind_eq_ok.mp h
    cases h
    exact bind_eq_ok.mpr ⟨_, h₁, bind_eq_ok.mpr ⟨_, h₂, bind_eq_ok.mpr ⟨_, h₃, rfl⟩⟩⟩
  | envAlloc =>
    obtain ⟨_, h, hk⟩ := bind_eq_ok.mp h
    obtain ⟨_, h₁, h⟩ := bind_eq_ok.mp h
    obtain ⟨_, h₂, h⟩ := bind_eq_ok.mp h
    obtain ⟨_, h₃, h⟩ := bind_eq_ok.mp h
    obtain ⟨_, h₄, h⟩ := bind_eq_ok.mp h
    cases h
    cases hk
    exact bind_eq_ok.mpr ⟨_, bind_eq_ok.mpr ⟨_, h₁, bind_eq_ok.mpr ⟨_, h₂, bind_eq_ok.mpr
      ⟨_, h₃, bind_eq_ok.mpr ⟨_, h₄, rfl⟩⟩⟩⟩, rfl⟩
  | envFree e =>
    obtain ⟨_, h₁, h⟩ := bind_eq_ok.mp h
    obtain ⟨_, h₂, h⟩ := bind_eq_ok.mp h
    obtain ⟨_, h₃, h⟩ := bind_eq_ok.mp h
    obtain ⟨_, h₄, h⟩ := bind_eq_ok.mp h
    cases h
    exact bind_eq_ok.mpr ⟨_, h₁, bind_eq_ok.mpr ⟨_, h₂, bind_eq_ok.mpr ⟨_, h₃, bind_eq_ok.mpr
      ⟨_, h₄, rfl⟩⟩⟩⟩
  | envSwitchTo e =>
    obtain ⟨_, h₁, h⟩ := bind_eq_ok.mp h
    obtain ⟨_, h₂, h⟩ := bind_eq_ok.mp h
    obtain ⟨_, h₃, h⟩ := bind_eq_ok.mp h
    obtain ⟨_, h₄, h₃⟩ := bind_eq_ok.mp h₃
    obtain ⟨_, h₅, h₃⟩ := bind_eq_ok.mp h₃
    cases h₃
    cases h
    exact bind_eq_ok.mpr ⟨_, h₁, bind_eq_ok.mpr ⟨_, h₂, bind_eq_ok.mpr ⟨_, bind_eq_ok.mpr
      ⟨_, h₄, bind_eq_ok.mpr ⟨_, h₅, rfl⟩⟩, rfl⟩⟩⟩
  | mmuEnable =>
    obtain ⟨_, h₁, h⟩ := bind_eq_ok.mp h
    obtain ⟨_, h₂, h₁⟩ := bind_eq_ok.mp h₁
    obtain ⟨_, h₃, h₁⟩ := bind_eq_ok.mp h₁
    cases h₁
    cases h
    exact bind_eq_ok.mpr ⟨_, bind_eq_ok.mpr ⟨_, h₂, bind_eq_ok.mpr ⟨_, h₃, rfl⟩⟩, rfl⟩
  | mmuDisable =>
    obtain ⟨_, h₁, h⟩ := bind_eq_ok.mp h
    obtain ⟨_, h₂, h₁⟩ := bind_eq_ok.mp h₁
    cases h₁
    cases h
    exact bind_eq_ok.mpr ⟨_, bind_eq_ok.mpr ⟨_, h₂, rfl⟩, rfl⟩
  | kmalloc sz =>
    cases h
    rfl
  | map pt c =>
    obtain ⟨_, h₁, h⟩ := bind_eq_ok.mp h
    cases h
    exact bind_eq_ok.mpr ⟨_, h₁, rfl⟩
  | store a v =>
    cases h
    rfl

/-- No operation changes the TLB. -/
theorem Kernel.tlb_of_exec {k k' : Kernel} {o : KernelOp} (h : k.exec o = .ok k') :
    k'.cp15.tlb = k.cp15.tlb := by
  have hsame := Kernel.exec_withTlb k.cp15.tlb h
  have heq : k' = k'.withTlb k.cp15.tlb := Except.ok.inj (h.symm.trans hsame)
  rw [heq]
  rfl

/-- Operations alone make a run. -/
theorem run_op {k k' : Kernel} {ops : List KernelOp} (h : Run OpStep k ops k') :
    Run TlbStep k (ops.map .op) k' := by
  induction h with
  | nil k => exact .nil k
  | cons hstep _ ih => exact .cons hstep ih

/-- A run of operations happens with any contents of the TLB. -/
theorem run_withTlb {k k' : Kernel} {ops : List KernelOp} (h : Run OpStep k ops k')
    (t : List TlbEntry) : Run TlbStep (k.withTlb t) (ops.map .op) (k'.withTlb t) := by
  induction h with
  | nil k => exact .nil _
  | cons hstep _ ih => exact .cons (Kernel.exec_withTlb t hstep) ih

/-- A run's operations are a run without the hardware's additions. -/
theorem run_opsOf {k k' : Kernel} {evs : List TlbEvent} (h : Run TlbStep k evs k') :
    Run OpStep (k.withTlb []) (opsOf evs) (k'.withTlb []) := by
  induction h with
  | nil k => exact .nil _
  | @cons k k₁ k' ev evs hstep _ ih =>
    cases ev with
    | op o => exact .cons (Kernel.exec_withTlb [] hstep) ih
    | fill va =>
      obtain ⟨_, r, _, rfl⟩ := hstep
      exact ih

/-- An entry of the TLB was there at the start or added along the run. -/
theorem mem_tlb_of_run {k k' : Kernel} {evs : List TlbEvent} (h : Run TlbStep k evs k')
    {t : TlbEntry} (ht : t ∈ k'.cp15.tlb) :
    t ∈ k.cp15.tlb ∨ ∃ pre post k₁ va r, evs = pre ++ post ∧ Run TlbStep k pre k₁ ∧
      Run TlbStep k₁ post k' ∧ k₁.cp15.mmuOn = true ∧ k₁.translate va = some r ∧
      t = k₁.cp15.entry va r := by
  induction h with
  | nil k => exact Or.inl ht
  | @cons k k₁ k' ev evs hstep htail ih =>
    rcases ih ht with hmem | ⟨pre, post, k₂, va, r, rfl, hpre, hpost, hon, hr, rfl⟩
    · cases ev with
      | op o =>
        rw [Kernel.tlb_of_exec hstep] at hmem
        exact Or.inl hmem
      | fill va =>
        have hrun : Run TlbStep k (.fill va :: evs) k' := .cons hstep htail
        obtain ⟨hon, r, hr, rfl⟩ := hstep
        rcases List.mem_cons.mp hmem with rfl | hmem
        · exact Or.inr ⟨[], _, k, va, r, rfl, .nil k, hrun, hon, hr, rfl⟩
        · exact Or.inl hmem
    · exact Or.inr ⟨ev :: pre, post, k₂, va, r, rfl, .cons hstep hpre, hpost, hon, hr, rfl⟩

/-! ## Stale entries -/

/-- The ASID of an environment, as the hardware compares it. -/
def Kernel.asidOf (k : Kernel) (e : BitVec 32) : BitVec 8 := (k.envs e).asid.extractLsb' 0 8

/-- Every entry that is usable under the ASID of an environment agrees with the
walk of its table. -/
def Kernel.NoStale (k : Kernel) (e : BitVec 32) : Prop :=
  ∀ t ∈ k.cp15.tlb, t.Usable (k.asidOf e) → walk k.st.mem (k.envs e).pt t.va = some t.translation

/-- After a switch that completes, no entry is stale. -/
def NoStaleAfterSwitch (_ : Kernel) (ev : TlbEvent) (k' : Kernel) : Prop :=
  ∀ e, ev = .op (.envSwitchTo e) → k'.NoStale e

/-- At each switch to an environment that completes, the table of the
environment translates what the current table translated at any earlier moment
with the MMU on, as far as that was global or under the environment's ASID. -/
def SwitchesAgree (k : Kernel) (ops : List KernelOp) : Prop :=
  ∀ pre mid post e k₁ k₂ k₃, ops = pre ++ mid ++ .envSwitchTo e :: post →
    Run OpStep k pre k₁ → Run OpStep k₁ mid k₂ → OpStep k₂ (.envSwitchTo e) k₃ →
    k₁.cp15.mmuOn = true → ∀ va r, k₁.translate va = some r →
    (r.attrs.ng = 0 ∨ k₁.cp15.asid = k₂.asidOf e) → walk k₂.st.mem (k₂.envs e).pt va = some r

/-- Runs start after `mmu_init`; the rest of the machine is arbitrary. -/
def Kernel.AfterMmuInit (k : Kernel) : Prop := ∃ k₀ : Kernel, k = { k₀ with cp15 := mmuInit k₀.cp15 }

/-- `mmu_init` leaves the TLB empty. -/
theorem Kernel.AfterMmuInit.tlb_eq {k : Kernel} (h : k.AfterMmuInit) : k.cp15.tlb = [] := by
  obtain ⟨k₀, rfl⟩ := h
  rfl

/-- `env_switch_to` changes the coprocessor and `curr_env` only. -/
theorem envSwitchTo_frame {k k' : Kernel} {e : BitVec 32} (h : envSwitchTo k e = .ok k') :
    k'.st = k.st ∧ k'.envs = k.envs := by
  obtain ⟨_, _, h⟩ := bind_eq_ok.mp h
  obtain ⟨_, _, h⟩ := bind_eq_ok.mp h
  obtain ⟨_, _, h⟩ := bind_eq_ok.mp h
  cases h
  exact ⟨rfl, rfl⟩

/-- An entry is usable when it is global or was tagged with the ASID. -/
theorem Cp15.entry_usable_iff (h : Cp15) (va : BitVec 32) (r : Translation) (asid : BitVec 8) :
    (h.entry va r).Usable asid ↔ r.attrs.ng = 0 ∨ h.asid = asid := by
  have hbit : ∀ b : BitVec 1, b ≠ 1 ↔ b = 0 := by decide
  unfold TlbEntry.Usable Cp15.entry
  by_cases hng : r.attrs.ng = 1
  · simp [hng]
  · simp [(hbit _).mp hng]

/-- Whatever the hardware adds along a sequence of operations, no switch
completes with a stale entry, exactly when the tables agree at the switches. -/
theorem noStaleAfterSwitch_iff {k : Kernel} (hk : k.AfterMmuInit) (ops : List KernelOp) :
    (∀ evs, opsOf evs = ops → EveryStep TlbStep NoStaleAfterSwitch k evs) ↔
      SwitchesAgree k ops := by
  have htlb := hk.tlb_eq
  have hself : k.withTlb [] = k := by rw [← htlb, Kernel.withTlb_self]
  constructor
  · intro h pre mid post e k₁ k₂ k₃ hops hpre hmid hswitch hon va r hr hasid
    -- the hardware adds the translation at `k₁` and keeps it until the switch
    let t := k₁.cp15.entry va r
    have hfill : TlbStep (k₁.withTlb []) (.fill va) (k₁.withTlb [t]) := ⟨hon, r, hr, rfl⟩
    have hrun₁ := run_withTlb hpre []
    rw [hself] at hrun₁
    have hrun₂ := hrun₁.append (.cons hfill (run_withTlb hmid [t]))
    have hstep : TlbStep (k₂.withTlb [t]) (.op (.envSwitchTo e)) (k₃.withTlb [t]) :=
      Kernel.exec_withTlb [t] hswitch
    have hevs : opsOf (pre.map .op ++ .fill va :: mid.map .op ++
        .op (.envSwitchTo e) :: post.map .op) = ops := by
      rw [hops]
      simp [opsOf, List.filterMap_append]
    obtain ⟨hst, henvs⟩ := envSwitchTo_frame hswitch
    have hasid₃ : k₃.asidOf e = k₂.asidOf e := by rw [Kernel.asidOf, henvs, Kernel.asidOf]
    have husable : t.Usable ((k₃.withTlb [t]).asidOf e) := by
      have h' := (Cp15.entry_usable_iff k₁.cp15 va r (k₃.asidOf e)).mpr (by rw [hasid₃]; exact hasid)
      exact h'
    have hwalk := h _ hevs _ _ _ _ _ rfl hrun₂ hstep e rfl t (List.mem_singleton.mpr rfl) husable
    have hwalk₃ : walk k₃.st.mem (k₃.envs e).pt va = some r := hwalk
    rwa [hst, henvs] at hwalk₃
  · intro h evs hevs pre ev post k₁ k₂ hsplit hrun hstep e hev t ht husable
    subst hev
    rw [Kernel.tlb_of_exec hstep] at ht
    rcases mem_tlb_of_run hrun ht with hmem | ⟨p, q, k₀, va, r, rfl, hp, hq, hon, hr, rfl⟩
    · rw [htlb] at hmem
      simp at hmem
    · obtain ⟨hst, henvs⟩ := envSwitchTo_frame hstep
      have hp' := run_opsOf hp
      rw [hself] at hp'
      have hops : ops = opsOf p ++ opsOf q ++ .envSwitchTo e :: opsOf post := by
        rw [← hevs, hsplit]
        simp [opsOf, List.filterMap_append]
      have hasid := (Cp15.entry_usable_iff _ _ _ _).mp husable
      have hasid₁ : k₂.asidOf e = k₁.asidOf e := by rw [Kernel.asidOf, henvs, Kernel.asidOf]
      rw [hst, henvs]
      exact h _ _ _ _ _ _ _ hops hp' (run_opsOf hq) (Kernel.exec_withTlb [] hstep) hon va r hr
        (by rw [hasid₁] at hasid; exact hasid)

/-- The equivalence for a machine that boots and enters one environment. -/
theorem noStaleAfterSwitch_iff_start :
    let k : Kernel := { Kernel.start 0x140000#32 with cp15 := mmuInit (Kernel.start 0x140000#32).cp15 }
    let ops : List KernelOp := [.envInit, .envAlloc, .envSwitchTo 0, .mmuDisable, .envSwitchTo 0]
    (∀ evs, opsOf evs = ops → EveryStep TlbStep NoStaleAfterSwitch k evs) ↔ SwitchesAgree k ops :=
  noStaleAfterSwitch_iff ⟨Kernel.start 0x140000#32, rfl⟩ _

/-! ## Two environments -/

/-- What both environments map: kernel, heap, stack and peripherals, one to one. -/
def sharedCalls : List MapCall :=
  [0x0#32, 0x100000#32, 0x300000#32, 0x20000000#32, 0x20200000#32].map
    fun a => ⟨.sec, a, a, 0, 0⟩

/-- A section of user space at a place of the environment's own. -/
def userCall (pa : BitVec 32) : MapCall := ⟨.sec, 0x400000#32, pa, 0, 0⟩

/-- What an environment with user space at `pa` maps, in its own domain. -/
def spaceCalls (pa domain : BitVec 32) : List MapCall :=
  (sharedCalls ++ [userCall pa]).map (MapCall.withDomain domain)

/-- A table with user space at an address below `0x100000000` that is a multiple
of a megabyte. -/
theorem spaceCalls_maps {k : Kernel} {live tables : List (BitVec 32)}
    {allocs : List (Owner × Region)} (h : k.Inv live tables allocs) {pt : BitVec 32}
    (hpt : pt ∈ tables) (hempty : tableOf k.st.mem pt = Table.empty) (pa : BitVec 32)
    (hpa : (userCall pa).Proper) (domain : BitVec 32)
    (hheap : k.st.heap.toNat + 12282 < 2 ^ 32) :
    ∃ s allocs', Kernel.Inv { k with st := s } live tables allocs' ∧
      Run OpStep k ((spaceCalls pa domain).map (.map pt)) { k with st := s } ∧
      s.heap.toNat ≤ k.st.heap.toNat + 12282 ∧
      (∃ r, walk s.mem pt 0x400000#32 = some r ∧ r.pa = pa ∧ r.attrs = flagAttrs 0) ∧
      ∀ pt' ∈ tables, pt' ≠ pt → tableOf s.mem pt' = tableOf k.st.mem pt' := by
  have hproper : ∀ c ∈ sharedCalls ++ [userCall pa], c.Proper := by
    intro c hc
    rcases List.mem_append.mp hc with hc | hc
    · have hall : ∀ c ∈ sharedCalls, c.Proper := by decide
      exact hall c hc
    · rw [List.mem_singleton.mp hc]
      exact hpa
  have hapart : (sharedCalls ++ [userCall pa]).Pairwise fun c c' => c'.Apart c := by
    have hshared : sharedCalls.Pairwise fun c c' => c'.Apart c := by decide
    have huser : ∀ c ∈ sharedCalls, (userCall 0).Apart c := by decide
    refine List.pairwise_append.mpr ⟨hshared, List.pairwise_singleton _ _, fun c hc c' hc' => ?_⟩
    rw [List.mem_singleton.mp hc']
    exact huser c hc
  obtain ⟨hproper', hapart'⟩ := proper_withDomain domain hproper hapart
  obtain ⟨s, allocs', hinv, hrun, hmaps, hend, hother⟩ :=
    h.run_maps hpt hempty hproper' hapart' hheap
  obtain ⟨r, hr, hrpa, hattrs, _⟩ := hmaps.inside ((userCall pa).withDomain domain)
    (by simp) 0 (Nat.two_pow_pos 20)
  have hzero : ∀ x : BitVec 32, x + 0 = x := fun x => BitVec.add_zero x
  refine ⟨s, allocs', hinv, hrun, hend, ⟨r, ?_, ?_, hattrs⟩, hother⟩
  · rw [hzero] at hr
    rw [walk_eq_tableOf_walk]
    exact hr
  · rw [hzero] at hrpa
    exact hrpa

/-- Two environments map user space to different places; after the switch from
the first to the second, the TLB answers with the first one's place. -/
theorem staleEntry_after_switch : ∃ (k k' : Kernel) (evs : List TlbEvent) (e : BitVec 32)
    (t : TlbEntry), k.AfterMmuInit ∧ Run TlbStep k (evs ++ [.op (.envSwitchTo e)]) k' ∧
    t ∈ k'.cp15.tlb ∧ t.Usable (k'.asidOf e) ∧ t.va = 0x400000#32 ∧
    t.translation.pa = 0x500000#32 ∧
    (walk k'.st.mem (k'.envs e).pt 0x400000#32).map Translation.pa = some 0x600000#32 := by
  let k₀ : Kernel := { Kernel.start 0x140000#32 with cp15 := mmuInit (Kernel.start 0x140000#32).cp15 }
  obtain ⟨k₁, hok₁, ⟨allocs₁, hinv₁⟩, hcp₁, hheap₁, hpid₁, _⟩ :=
    envInit_ok (k := k₀) rfl rfl (by decide)
  have hend₁ : k₁.st.heap.toNat = 0x140160 := hheap₁.trans (by decide)
  -- the two environments
  obtain ⟨e₂, k₂, pt₂, hok₂, _, _, hinv₂, hpt₂, _, hasid₂, hpid₂, _, hcp₂, hcnt₂, hbase₂, hheap₂,
    hempty₂, _⟩ := hinv₁.envAlloc (by simp) (by rw [hend₁]; decide)
  rw [hend₁] at hbase₂
  obtain ⟨e₃, k₃, pt₃, hok₃, hne₃, hnew₃, hinv₃, hpt₃, _, hasid₃, hpid₃, hkeep₃, hcp₃, _, hbase₃,
    hheap₃, hempty₃, htables₃⟩ := hinv₂.envAlloc (by simp) (by rw [hheap₂, hbase₂]; decide)
  rw [hheap₂, hbase₂] at hbase₃
  have hpt₂' : pt₂ = 0x144000#32 := BitVec.eq_of_toNat_eq (hbase₂.trans (by decide))
  have hpt₃' : pt₃ = 0x148000#32 := BitVec.eq_of_toNat_eq (hbase₃.trans (by decide))
  subst hpt₂' hpt₃'
  -- their tables
  have hpid : (k₃.envs e₂).pid = 1#32 ∧ (k₃.envs e₃).pid = 2#32 := by
    have hzero : k₁.pidCnt = 0 := hpid₁
    rw [hkeep₃ e₂ (by simp), hpid₂, hpid₃, hcnt₂, hzero]
    decide
  have hasid : (k₃.envs e₂).asid.toNat < 2 ^ 8 ∧ (k₃.envs e₃).asid.toNat < 2 ^ 8 := by
    have h₂ := (mem_idRange (by decide)).mp hasid₂
    have h₃ := (mem_idRange (by decide)).mp hasid₃
    rw [hkeep₃ e₂ (by simp)]
    omega
  have htable₂ : tableOf k₃.st.mem 0x144000#32 = Table.empty :=
    (htables₃ _ (by simp)).trans hempty₂
  obtain ⟨s₄, allocs₄, hinv₄, hrun₄, hend₄, ⟨r₂, hr₂, hrpa₂, hattrs₂⟩, hother₄⟩ :=
    spaceCalls_maps hinv₃ (by simp) htable₂ 0x500000#32 (by decide) (k₃.envs e₂).domain
      (by rw [hheap₃, hbase₃]; decide)
  obtain ⟨s₅, allocs₅, hinv₅, hrun₅, _, ⟨r₃, hr₃, hrpa₃, _⟩, hother₅⟩ :=
    spaceCalls_maps hinv₄ (by simp) ((hother₄ 0x148000#32 (by simp) (by decide)).trans hempty₃)
      0x600000#32 (by decide) (k₃.envs e₃).domain (by
        rw [hheap₃, hbase₃] at hend₄
        have h : roundUpNat (roundUpNat 0x140160 16384 + 16384) 16384 + 16384 + 24564 < 2 ^ 32 := by
          decide
        simp only
        omega)
  have hwalk₂ : walk s₅.mem 0x144000#32 0x400000#32 = some r₂ := by
    rw [walk_eq_tableOf_walk, hother₅ _ (by simp) (by decide), ← walk_eq_tableOf_walk]
    exact hr₂
  -- the first environment runs, and the hardware keeps its translation
  have hoff : k₃.cp15.mmuOn = false := by
    rw [hcp₃, hcp₂, hcp₁]
    decide
  obtain ⟨h₆, hok₆, hon₆, httbr₆, _, _, _⟩ := envSwitchTo_ok (k := { k₃ with st := s₅ }) (e := e₂)
    hoff (by rw [hpid.1]; decide) hasid.1
  let k₆ : Kernel := { k₃ with st := s₅, cp15 := h₆, currEnv := some e₂ }
  let t := k₆.cp15.entry 0x400000#32 r₂
  have hbase₆ : k₆.cp15.tableBase = 0x144000#32 := by
    have hpt : h₆.ttbr0 = 0x144000#32 := by rw [httbr₆, hkeep₃ e₂ (by simp)]; exact hpt₂
    rw [Cp15.tableBase, hpt]
    decide
  have hfill : TlbStep k₆ (.fill 0x400000#32) (k₆.withTlb (t :: k₆.cp15.tlb)) := by
    refine ⟨hon₆, r₂, ?_, rfl⟩
    rw [Kernel.translate, hbase₆]
    exact hwalk₂
  -- the second environment takes over
  obtain ⟨h₈, hok₈, hoff₈, c₈, hh₈⟩ := mmuDisable_ok
    (h := (k₆.withTlb (t :: k₆.cp15.tlb)).cp15) hon₆
  obtain ⟨h₉, hok₉, _, _, _, htlb₉, _⟩ := envSwitchTo_ok
    (k := { k₆ with cp15 := h₈ }) (e := e₃) hoff₈ (by show (k₃.envs e₃).pid.toNat < _; rw [hpid.2]; decide)
    hasid.2
  have hops : Run OpStep k₀ ([.envInit, .envAlloc, .envAlloc] ++
      (spaceCalls 0x500000#32 (k₃.envs e₂).domain).map (.map 0x144000#32) ++
      (spaceCalls 0x600000#32 (k₃.envs e₃).domain).map (.map 0x148000#32) ++ [.envSwitchTo e₂])
      k₆ := by
    have hstart : Run OpStep k₀ [.envInit, .envAlloc, .envAlloc] k₃ :=
      .cons hok₁ (.cons (bind_eq_ok.mpr ⟨_, hok₂, rfl⟩) (.cons (bind_eq_ok.mpr ⟨_, hok₃, rfl⟩)
        (.nil _)))
    exact ((hstart.append hrun₄).append hrun₅).snoc hok₆
  have hdisable : TlbStep (k₆.withTlb (t :: k₆.cp15.tlb)) (.op .mmuDisable) { k₆ with cp15 := h₈ } :=
    bind_eq_ok.mpr ⟨h₈, hok₈, rfl⟩
  refine ⟨k₀, _, _, e₃, t, ⟨Kernel.start 0x140000#32, rfl⟩,
    (((run_op hops).snoc hfill).snoc hdisable).snoc hok₉, ?_, Or.inl ?_, rfl, hrpa₂, ?_⟩
  · show t ∈ h₉.tlb
    rw [htlb₉, hh₈]
    exact List.mem_cons_self
  · show (if r₂.attrs.ng = 1 then some _ else none) = none
    rw [hattrs₂]
    rfl
  · show (walk s₅.mem (k₃.envs e₃).pt 0x400000#32).map Translation.pa = some 0x600000#32
    rw [hpt₃, hr₃, Option.map_some, hrpa₃]

end RpiVm
