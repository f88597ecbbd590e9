import RpiVm.Env.Cp15
import RpiVm.Lib.Arm

/-!
# The accessors of the coprocessor

The functions of `vm-asm.S` that read and write one register each, as the macros expand
them. `cp15_ttbr1_wr` is made of `TTBR0_SET`, so that it writes the table base in force.
-/

namespace RpiVm

open Arm

/-! ## Macros -/

/-- `DSB`. -/
def dsb (rd : Reg) : Inst := .mcr rd ⟨7, 10, 4⟩

/-- `PREFETCH_FLUSH`. -/
def prefetchFlush (rd : Reg) : Inst := .mcr rd ⟨7, 5, 4⟩

/-- `FLUSH_BTB`. -/
def flushBtb (rd : Reg) : Inst := .mcr rd ⟨7, 5, 6⟩

/-- `TTBR0_GET`. -/
def ttbr0Get (rd : Reg) : Inst := .mrc rd ⟨2, 0, 0⟩

/-- `TTBR0_SET`. -/
def ttbr0Set (rd : Reg) : Inst := .mcr rd ⟨2, 0, 0⟩

/-- `TTBR1_GET`. -/
def ttbr1Get (rd : Reg) : Inst := .mrc rd ⟨2, 0, 1⟩

/-- `TTBR_BASE_CTRL_RD`. -/
def ttbrBaseCtrlRd (rd : Reg) : Inst := .mrc rd ⟨2, 0, 2⟩

/-- `TTBR_BASE_CTRL_WR`. -/
def ttbrBaseCtrlWr (rd : Reg) : Inst := .mcr rd ⟨2, 0, 2⟩

/-- `DOMAIN_CTRL_RD`. -/
def domainCtrlRd (rd : Reg) : Inst := .mrc rd ⟨3, 0, 0⟩

/-- `DOMAIN_CTRL_WR`. -/
def domainCtrlWr (rd : Reg) : Inst := .mcr rd ⟨3, 0, 0⟩

/-- `CONTROL_REG1_RD`. -/
def controlReg1Rd (rd : Reg) : Inst := .mrc rd ⟨1, 0, 0⟩

/-- `CONTROL_REG1_WR`. -/
def controlReg1Wr (rd : Reg) : Inst := .mcr rd ⟨1, 0, 0⟩

/-- `CLR`. -/
def clr (reg : Reg) : Inst := .movImm reg 0

/-- `CP15_BARRIER`. -/
def cp15BarrierInsts (rz : Reg) : List Inst := [dsb rz, prefetchFlush rz]

/-- `CP15_SYNC`. -/
def cp15SyncInsts (rz : Reg) : List Inst := flushBtb rz :: cp15BarrierInsts rz

/-- `SYNCX`. -/
def syncx (inst : Inst) (rz : Reg) : List Inst := clr rz :: inst :: cp15SyncInsts rz

/-- `FN_WR_SYNC`, up to the return. -/
def fnWrSync (inst : Reg → Inst) : List Inst := syncx (inst 0) 1

/-- `FN_RD`, up to the return. -/
def fnRd (inst : Reg → Inst) : List Inst := [inst 0]

/-! ## The five pairs -/

/-- The registers that have a pair of accessors. -/
inductive CpName where
  /-- Translation table base 0. -/
  | ttbr0
  /-- Translation table base 1. -/
  | ttbr1
  /-- Control of the table bases. -/
  | ttbrCtrl
  /-- Domain access control. -/
  | domainCtrl
  /-- Control register 1. -/
  | ctrlReg1
  deriving DecidableEq, Repr

/-- `cp15_ttbr0_rd`, `cp15_ttbr1_rd`, `cp15_ttbr_ctrl_rd`, `cp15_domain_ctrl_rd` and
`cp15_ctrl_reg1_rd`. -/
def CpName.rd : CpName → List Inst
  | ttbr0 => fnRd ttbr0Get
  | ttbr1 => fnRd ttbr1Get
  | ttbrCtrl => fnRd ttbrBaseCtrlRd
  | domainCtrl => fnRd domainCtrlRd
  | ctrlReg1 => fnRd controlReg1Rd

/-- `cp15_ttbr0_wr`, `cp15_ttbr1_wr`, `cp15_ttbr_ctrl_wr`, `cp15_domain_ctrl_wr` and
`cp15_ctrl_reg1_wr`. -/
def CpName.wr : CpName → List Inst
  | ttbr0 => fnWrSync ttbr0Set
  | ttbr1 => fnWrSync ttbr0Set -- not `TTBR1_SET`
  | ttbrCtrl => fnWrSync ttbrBaseCtrlWr
  | domainCtrl => fnWrSync domainCtrlWr
  | ctrlReg1 => fnWrSync controlReg1Wr

/-- What a read function returns. -/
def CpName.read (x : CpName) (c : Core) : BitVec 32 := (c.run x.rd).get 0

/-- A call of a write function. -/
def CpName.write (x : CpName) (v : BitVec 32) (c : Core) : Core := (c.set 0 v).run x.wr

/-- Write functions called one after the other. -/
def writes (c : Core) (calls : List (CpName × BitVec 32)) : Core :=
  calls.foldl (fun c call => call.1.write call.2 c) c

/-- The register that a pair is named after. -/
def CpName.reg : CpName → CpReg
  | ttbr0 => ⟨2, 0, 0⟩
  | ttbr1 => ⟨2, 0, 1⟩
  | ttbrCtrl => ⟨2, 0, 2⟩
  | domainCtrl => ⟨3, 0, 0⟩
  | ctrlReg1 => ⟨1, 0, 0⟩

/-- The register that a write function reaches. -/
def CpName.target (x : CpName) : CpReg := if x = ttbr1 then CpName.ttbr0.reg else x.reg

/-- Different pairs are named after different registers. -/
theorem CpName.reg_inj {x y : CpName} : x.reg = y.reg ↔ x = y := by
  constructor
  · intro h
    cases x <;> cases y <;> first | rfl | exact absurd h (by decide)
  · exact congrArg CpName.reg

/-- A read function returns its own register. -/
theorem CpName.read_eq (x : CpName) (c : Core) : x.read c = c.cp x.reg := by
  cases x <;> exact Core.get_set_same _ _ _

/-- A write function sends its argument to the register that its macro names; the
synchronisation behind it leaves the registers. -/
theorem cp_run_fnWrSync {inst : Reg → Inst} {cr : CpReg} (hinst : ∀ rd, inst rd = .mcr rd cr)
    (hcr : ¬ cr.IsOperation) (c : Core) :
    (c.run (fnWrSync inst)).cp = Function.update c.cp cr (c.get 0) := by
  have hsync (c : Core) (rz : Reg) : (c.run (cp15SyncInsts rz)).cp = c.cp := rfl
  have hclr : (Inst.exec c (clr 1)).get 0 = c.get 0 := Core.get_set_of_ne _ _ (by decide)
  show ((Inst.exec (Inst.exec c (clr 1)) (inst 0)).run (cp15SyncInsts 1)).cp = _
  rw [hsync, hinst, Inst.exec, if_neg hcr, hclr]
  rfl

/-- What a write function does to the registers. -/
theorem CpName.write_cp (x : CpName) (v : BitVec 32) (c : Core) :
    (x.write v c).cp = Function.update c.cp x.target v := by
  have hget : (c.set 0 v).get 0 = v := Core.get_set_same _ _ _
  have hcp : (c.set 0 v).cp = c.cp := rfl
  rw [← hcp]
  nth_rewrite 2 [← hget]
  cases x <;> exact cp_run_fnWrSync (fun _ => rfl) (by decide) _

/-- A read after a write. -/
theorem CpName.read_write (x y : CpName) (v : BitVec 32) (c : Core) :
    y.read (x.write v c) = if y.reg = x.target then v else y.read c := by
  rw [read_eq, write_cp, read_eq, Function.update_apply]

/-! ## Histories -/

/-- The value that was written last under a name, or the initial one. -/
def lastWritten (x : CpName) (init : BitVec 32) (calls : List (CpName × BitVec 32)) : BitVec 32 :=
  calls.foldl (fun v call => if call.1 = x then call.2 else v) init

/-- One more call. -/
theorem lastWritten_concat (x : CpName) (init : BitVec 32) (calls : List (CpName × BitVec 32))
    (call : CpName × BitVec 32) : lastWritten x init (calls ++ [call]) =
      if call.1 = x then call.2 else lastWritten x init calls := by
  simp only [lastWritten, List.foldl_append, List.foldl_cons, List.foldl_nil]

/-- One more call of a write function. -/
theorem writes_concat (c : Core) (calls : List (CpName × BitVec 32)) (call : CpName × BitVec 32) :
    writes c (calls ++ [call]) = call.1.write call.2 (writes c calls) := by
  simp only [writes, List.foldl_append, List.foldl_cons, List.foldl_nil]

/-- At each point of a history every read function returns what was written last under its
name. -/
def IsRegisterFile (c : Core) (calls : List (CpName × BitVec 32)) : Prop :=
  ∀ pre, pre <+: calls → ∀ x : CpName, x.read (writes c pre) = lastWritten x (x.read c) pre

/-- Each `cp15_ttbr1_wr` of a history writes what both table bases should hold already. -/
def HarmlessTtbr1 (c : Core) (calls : List (CpName × BitVec 32)) : Prop :=
  ∀ pre v, pre ++ [(CpName.ttbr1, v)] <+: calls →
    v = lastWritten .ttbr0 (CpName.ttbr0.read c) pre ∧
      v = lastWritten .ttbr1 (CpName.ttbr1.read c) pre

/-- Over every history of writes with arbitrary values, the accessors are a register file exactly
when each `cp15_ttbr1_wr` writes what both table bases should hold already. -/
theorem isRegisterFile_iff {c : Core} {calls : List (CpName × BitVec 32)} :
    IsRegisterFile c calls ↔ HarmlessTtbr1 c calls := by
  constructor
  · intro h pre v hpre
    have hbefore := h pre ((List.prefix_append _ _).trans hpre)
    have hafter := h _ hpre
    simp only [writes_concat, lastWritten_concat, CpName.read_write] at hafter
    have h₀ := hafter .ttbr0
    have h₁ := hafter .ttbr1
    rw [if_pos (by decide), if_neg (by decide)] at h₀
    rw [if_neg (by decide), if_pos rfl, hbefore .ttbr1] at h₁
    exact ⟨h₀, h₁.symm⟩
  · intro h pre hpre x
    induction pre using List.reverseRecOn with
    | nil => rfl
    | append_singleton pre call ih =>
      have hread := ih ((List.prefix_append _ _).trans hpre)
      obtain ⟨y, v⟩ := call
      rw [writes_concat, lastWritten_concat, CpName.read_write, hread]
      dsimp only
      by_cases hy : y = .ttbr1
      · subst hy
        obtain ⟨h₀, h₁⟩ := h pre v hpre
        cases x with
        | ttbr0 => rw [if_pos (by decide), if_neg (by decide), ← h₀]
        | ttbr1 => rw [if_neg (by decide), if_pos rfl, ← h₁]
        | ttbrCtrl => rw [if_neg (by decide), if_neg (by decide)]
        | domainCtrl => rw [if_neg (by decide), if_neg (by decide)]
        | ctrlReg1 => rw [if_neg (by decide), if_neg (by decide)]
      · have hiff : x.reg = CpName.target y ↔ y = x := by
          rw [CpName.target, if_neg hy, CpName.reg_inj, eq_comm]
        simp only [hiff]

/-- A write under the name of `TTBR1` replaces the table base in force. -/
theorem ttbr1_wr_writes_ttbr0 : ∃ c : Core,
    CpName.ttbr0.read (CpName.ttbr1.write 0x4000 c) = 0x4000 ∧ CpName.ttbr0.read c = 0 ∧
    CpName.ttbr1.read (CpName.ttbr1.write 0x4000 c) = 0 ∧
    ¬ IsRegisterFile c [(.ttbr1, 0x4000)] := by
  refine ⟨⟨fun _ _ => 0, 0b11111, fun _ => 0, fun _ => 0, fun _ => 0⟩, by decide, by decide,
    by decide, fun h => ?_⟩
  exact absurd (h _ (List.prefix_refl _) .ttbr1) (by decide)

/-! ## The coprocessor of the kernel -/

/-- The registers of the core's coprocessor that the kernel uses. -/
def kernelCp15 (c : Core) (tlb : List TlbEntry) : Cp15 where
  ctrlReg1 := c.cp ⟨1, 0, 0⟩
  ttbr0 := c.cp ⟨2, 0, 0⟩
  ttbr1 := c.cp ⟨2, 0, 1⟩
  domainCtrl := c.cp ⟨3, 0, 0⟩
  procid := c.cp ⟨13, 0, 1⟩
  tlb := tlb

/-- The two write functions that the kernel calls act on its coprocessor as modelled there. -/
theorem cp15_write (c : Core) (tlb : List TlbEntry) (v : BitVec 32) :
    kernelCp15 (CpName.domainCtrl.write v c) tlb = cp15DomainCtrlWr (kernelCp15 c tlb) v ∧
      kernelCp15 (CpName.ctrlReg1.write v c) tlb = cp15CtrlReg1Wr (kernelCp15 c tlb) v := by
  constructor
  · simp only [kernelCp15, CpName.write_cp]
    rfl
  · simp only [kernelCp15, CpName.write_cp]
    rfl

end RpiVm
