import RpiVm.Env.Isolation
import RpiVm.Mmu.Bringup

/-!
# Filling and entering address spaces

Mapping calls on the tables of environments keep what isolates environments,
and a switch to an environment puts its table, domain register and context id
in force.
-/

namespace RpiVm

open CLib Transition

/-! ## Operations -/

/-- What the kernel and the programs do. -/
inductive KernelOp where
  /-- `env_init()`. -/
  | envInit
  /-- `env_alloc()`. -/
  | envAlloc
  /-- `env_free(e)`. -/
  | envFree (e : BitVec 32)
  /-- `env_switch_to(e)`. -/
  | envSwitchTo (e : BitVec 32)
  /-- `mmu_enable()`. -/
  | mmuEnable
  /-- `mmu_disable()`. -/
  | mmuDisable
  /-- `kmalloc(sz)`, for a program. -/
  | kmalloc (sz : BitVec 32)
  /-- A mapping call on the table `pt`. -/
  | map (pt : BitVec 32) (c : MapCall)
  /-- A program stores a word at the physical address `a`. -/
  | store (a v : BitVec 32)

/-- Running an operation. -/
def Kernel.exec (k : Kernel) : KernelOp → Except Panic Kernel
  | .envInit => RpiVm.envInit k
  | .envAlloc => do
    let (_, k) ← RpiVm.envAlloc k
    pure k
  | .envFree e => RpiVm.envFree k e
  | .envSwitchTo e => RpiVm.envSwitchTo k e
  | .mmuEnable => do
    let h ← RpiVm.mmuEnable k.cp15
    pure { k with cp15 := h }
  | .mmuDisable => do
    let h ← RpiVm.mmuDisable k.cp15
    pure { k with cp15 := h }
  | .kmalloc sz => pure { k with st := (RpiVm.kmalloc k.st sz).2 }
  | .map pt c => do
    let s ← c.exec k.st pt
    pure { k with st := s }
  | .store a v => pure { k with st := k.st.store32 a v }

/-- One operation that returns. -/
def OpStep (k : Kernel) (o : KernelOp) (k' : Kernel) : Prop := k.exec o = .ok k'

/-! ## Mapping calls -/

variable {k : Kernel} {live tables : List (BitVec 32)} {allocs : List (Owner × Region)}

/-- A mapping call on a table keeps the pools. -/
theorem Kernel.Inv.map (h : k.Inv live tables allocs) {pt : BitVec 32} {c : MapCall} {w : World}
    (hstep : (k.world tables allocs).Step (.map pt c) w) :
    Kernel.Inv { k with st := w.st } live tables w.allocs ∧
      OpStep k (.map pt c) { k with st := w.st } := by
  obtain ⟨_, heffect, hw⟩ := hstep.map_effect h.world
  have hinv := hstep.inv h.world
  have htables : w.tables = tables := hstep.tables_of_map
  have hworld : Kernel.world { k with st := w.st } tables w.allocs = w := by
    rw [← htables]
    rfl
  have hkeep : ∀ {b : Bvec} {ids held : List (BitVec 32)}, Pool b (k.world tables allocs) ids held →
      Pool b w ids held := by
    intro b ids held hpool
    obtain ⟨r, hr, hin⟩ := hpool.block
    refine hpool.congr ?_ fun p hp => ?_
    · exact (h.world.map_agreeOn hstep.1.1 heffect hr (by simp) (by simp)).symm.mono hin
    · rw [hw]
      exact List.mem_append_right _ hp
  refine ⟨⟨hworld ▸ hinv, hworld ▸ hkeep h.dom, hworld ▸ hkeep h.asid, hworld ▸ hkeep h.env,
    h.dom_asid, h.dom_env, h.asid_env, h.pt_mem, h.pt_nodup, h.domainReg_eq⟩, ?_⟩
  obtain ⟨s, hexec, hw'⟩ := bind_eq_ok.mp hstep.2
  cases hw'
  exact bind_eq_ok.mpr ⟨s, hexec, rfl⟩

/-- A run of mapping calls on a table, as a run of the kernel. -/
theorem Kernel.Inv.run_map (h : k.Inv live tables allocs) {pt : BitVec 32} {cs : List MapCall}
    {w : World} (hrun : Run World.Step (k.world tables allocs) (cs.map (.map pt)) w) :
    Kernel.Inv { k with st := w.st } live tables w.allocs ∧
      Run OpStep k (cs.map (.map pt)) { k with st := w.st } := by
  induction cs generalizing k allocs with
  | nil =>
    cases hrun
    exact ⟨h, .nil k⟩
  | cons c cs ih =>
    cases hrun with
    | @cons _ w₁ _ _ _ hstep hrun =>
      obtain ⟨h₁, hop⟩ := h.map hstep
      have hw₁ : Kernel.world { k with st := w₁.st } tables w₁.allocs = w₁ := by
        rw [← (show w₁.tables = tables from hstep.tables_of_map)]
        rfl
      obtain ⟨h₂, hops⟩ := ih (k := { k with st := w₁.st }) h₁ (by rw [hw₁]; exact hrun)
      exact ⟨h₂, .cons hop hops⟩

/-- Proper requests that are apart run to their end on the table of a live
environment; the other tables keep what they map. -/
theorem Kernel.Inv.run_maps (h : k.Inv live tables allocs) {pt : BitVec 32} (hpt : pt ∈ tables)
    (hempty : tableOf k.st.mem pt = Table.empty) {cs : List MapCall}
    (hproper : ∀ c ∈ cs, c.Proper) (hapart : cs.Pairwise fun c c' => c'.Apart c)
    (hheap : k.st.heap.toNat + 2047 * cs.length < 2 ^ 32) :
    ∃ s allocs', Kernel.Inv { k with st := s } live tables allocs' ∧
      Run OpStep k (cs.map (.map pt)) { k with st := s } ∧ (tableOf s.mem pt).Maps cs.reverse ∧
      s.heap.toNat ≤ k.st.heap.toNat + 2047 * cs.length ∧
      ∀ pt' ∈ tables, pt' ≠ pt → tableOf s.mem pt' = tableOf k.st.mem pt' := by
  have hmaps : (tableOf (k.world tables allocs).st.mem pt).Maps [] := by
    rw [show tableOf (k.world tables allocs).st.mem pt = Table.empty from hempty]
    exact Table.Maps.empty
  obtain ⟨w, hrun, _, hmaps', hend, hother⟩ :=
    h.world.run_maps hpt hmaps hproper (by simp) hapart hheap
  obtain ⟨h', hops⟩ := h.run_map hrun
  rw [List.append_nil] at hmaps'
  exact ⟨w.st, w.allocs, h', hops, hmaps', hend, hother⟩

/-! ## Switching -/

/-- With a small process id and ASID the assertions of `env_switch_to` itself hold, and what
remains is `mmu_enable`. -/
theorem envSwitchTo_eq {e : BitVec 32} (hpid : (k.envs e).pid.toNat < 2 ^ 24)
    (hasid : (k.envs e).asid.toNat < 2 ^ 8) :
    ∃ h₂ : Cp15, h₂ = { k.cp15 with
        domainCtrl := (k.envs e).domainReg
        ttbr0 := (k.envs e).pt
        ttbr1 := 0
        procid := (k.envs e).pid <<< 8 ||| (k.envs e).asid } ∧
      mmuGetCurpid h₂ = ((k.envs e).pid, (k.envs e).asid) ∧
      envSwitchTo k e =
        mmuEnable h₂ >>= fun h₃ => pure { k with cp15 := h₃, currEnv := some e } := by
  let h₂ := cp15SetProcidTtbr0 (cp15DomainCtrlWr k.cp15 (k.envs e).domainReg)
    ((k.envs e).pid <<< 8 ||| (k.envs e).asid) (k.envs e).pt
  obtain ⟨hcur, _⟩ := mmuGetCurpid_of_lt (h := h₂) hpid hasid rfl
  have hpids : ((mmuGetCurpid h₂).1 == (k.envs e).pid) = true :=
    beq_iff_eq.mpr (congrArg Prod.fst hcur)
  have hasids : ((mmuGetCurpid h₂).2 == (k.envs e).asid) = true :=
    beq_iff_eq.mpr (congrArg Prod.snd hcur)
  refine ⟨h₂, rfl, hcur, ?_⟩
  simp only [envSwitchTo]
  rw [assert_eq_ok (u := ()) |>.mpr hpids, assert_eq_ok (u := ()) |>.mpr hasids]
  rfl

/-- A switch with the MMU off puts the environment in force. -/
theorem envSwitchTo_ok {e : BitVec 32} (hoff : k.cp15.mmuOn = false)
    (hpid : (k.envs e).pid.toNat < 2 ^ 24) (hasid : (k.envs e).asid.toNat < 2 ^ 8) :
    ∃ h, envSwitchTo k e = .ok { k with cp15 := h, currEnv := some e } ∧ h.mmuOn = true ∧
      h.ttbr0 = (k.envs e).pt ∧ h.domainCtrl = (k.envs e).domainReg ∧ h.tlb = k.cp15.tlb ∧
      h.procid.toNat = (k.envs e).pid.toNat * 2 ^ 8 + (k.envs e).asid.toNat := by
  obtain ⟨h₂, hh₂, _, heq⟩ := envSwitchTo_eq (k := k) hpid hasid
  obtain ⟨h₃, hok, hon, hh₃⟩ := mmuEnable_ok (h := h₂) (by rw [hh₂]; exact hoff)
  obtain ⟨_, hvalue⟩ := mmuGetCurpid_of_lt (h := h₂) hpid hasid (by rw [hh₂])
  refine ⟨h₃, by rw [heq, hok]; rfl, hon, ?_⟩
  rw [hh₃]
  exact ⟨by rw [hh₂], by rw [hh₂], by rw [hh₂], hvalue⟩

end RpiVm
