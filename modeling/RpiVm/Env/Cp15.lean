import RpiVm.Lib.BitField
import RpiVm.Lib.Panic
import RpiVm.Mmu.Walk

/-!
# The system control coprocessor

The registers of `cp15` that the kernel uses, with the translations that the
hardware keeps in its TLB. The routines of `vm-asm.S` are lists of coprocessor
instructions; of these, barriers, the branch predictor and the caches have no
effect on what is modelled here.
-/

namespace RpiVm

open CLib

/-- A translation in the TLB: under one ASID, or under all when `asid` is `none`. -/
structure TlbEntry where
  /-- The virtual address. -/
  va : BitVec 32
  /-- The ASID that it is tagged with. -/
  asid : Option (BitVec 8)
  /-- What the walk yielded. -/
  translation : Translation
  deriving DecidableEq, Repr

/-- The coprocessor. -/
structure Cp15 where
  /-- Control register 1. -/
  ctrlReg1 : BitVec 32
  /-- Translation table base 0. -/
  ttbr0 : BitVec 32
  /-- Translation table base 1. -/
  ttbr1 : BitVec 32
  /-- The domain access control register. -/
  domainCtrl : BitVec 32
  /-- The context id: process id and ASID. -/
  procid : BitVec 32
  /-- The translations that the hardware keeps. -/
  tlb : List TlbEntry

/-! ## Instructions -/

/-- The instructions of `arm-coprocessor-insts.h` that the routines below use. -/
inductive Cp15Inst where
  | dsb
  | prefetchFlush
  | flushBtb
  | invIcache
  | invDcache
  | cleanInvDcache
  | invTlb
  | ttbr0Set (v : BitVec 32)
  | ttbr1Set (v : BitVec 32)
  | asidSet (v : BitVec 32)
  | domainCtrlWr (v : BitVec 32)
  | controlReg1Wr (v : BitVec 32)

/-- The effect of an instruction. -/
def Cp15Inst.exec (h : Cp15) : Cp15Inst → Cp15
  | .dsb | .prefetchFlush | .flushBtb | .invIcache | .invDcache | .cleanInvDcache => h
  | .invTlb => { h with tlb := [] }
  | .ttbr0Set v => { h with ttbr0 := v }
  | .ttbr1Set v => { h with ttbr1 := v }
  | .asidSet v => { h with procid := v }
  | .domainCtrlWr v => { h with domainCtrl := v }
  | .controlReg1Wr v => { h with ctrlReg1 := v }

/-- Instructions one after the other. -/
def Cp15.run (h : Cp15) (is : List Cp15Inst) : Cp15 := is.foldl Cp15Inst.exec h

/-- `CP15_SYNC`, which ends with a `CP15_BARRIER`. -/
def cp15Sync : List Cp15Inst := [.flushBtb, .dsb, .prefetchFlush]

/-! ## Routines of `vm-asm.S` -/

/-- `cp15_domain_ctrl_wr`. -/
def cp15DomainCtrlWr (h : Cp15) (r0 : BitVec 32) : Cp15 := h.run (.domainCtrlWr r0 :: cp15Sync)

/-- `cp15_ctrl_reg1_wr`. -/
def cp15CtrlReg1Wr (h : Cp15) (r0 : BitVec 32) : Cp15 := h.run (.controlReg1Wr r0 :: cp15Sync)

/-- `cp15_set_procid_ttbr0`. -/
def cp15SetProcidTtbr0 (h : Cp15) (r0 r1 : BitVec 32) : Cp15 :=
  h.run [.asidSet 0, .prefetchFlush, .ttbr0Set r1, .ttbr1Set 0, .prefetchFlush, .asidSet r0, .dsb]

/-- `mmu_reset`. -/
def mmuReset (h : Cp15) : Cp15 := h.run (.invDcache :: .invIcache :: .invTlb :: cp15Sync)

/-- `mmu_enable_set_asm`. -/
def mmuEnableSetAsm (h : Cp15) (r0 : BitVec 32) : Cp15 :=
  h.run [.dsb, .controlReg1Wr r0, .flushBtb, .dsb, .prefetchFlush]

/-- `mmu_disable_set_asm`. -/
def mmuDisableSetAsm (h : Cp15) (r0 : BitVec 32) : Cp15 :=
  let r2 := h.ctrlReg1 &&& ~~~(1#32 <<< 2)
  h.run [.dsb, .cleanInvDcache, .dsb, .prefetchFlush, .controlReg1Wr r2, .dsb, .prefetchFlush,
    .controlReg1Wr r0, .dsb, .prefetchFlush, .invIcache, .flushBtb, .dsb, .prefetchFlush]

/-! ## Routines of `mmu.c` and `cp15-arm.c` -/

namespace CtrlReg1

@[simp] def mmuEnabled : BitField 1 := ⟨0⟩
@[simp] def cUnifiedEnable : BitField 1 := ⟨2⟩
@[simp] def xpPt : BitField 1 := ⟨23⟩

end CtrlReg1

/-- The MMU translates. -/
def Cp15.mmuOn (h : Cp15) : Bool := CtrlReg1.mmuEnabled.get h.ctrlReg1 == 1

/-- `mmu_init`. -/
def mmuInit (h : Cp15) : Cp15 :=
  let h := mmuReset h
  cp15CtrlReg1Wr h (CtrlReg1.xpPt.set h.ctrlReg1 1)

/-- `mmu_enable_set`. -/
def mmuEnableSet (h : Cp15) (c : BitVec 32) : Except Panic Cp15 := do
  assert (CtrlReg1.mmuEnabled.get c != 0) "c.MMU_enabled"
  pure (mmuEnableSetAsm h c)

/-- `mmu_enable`. -/
def mmuEnable (h : Cp15) : Except Panic Cp15 := do
  let c := h.ctrlReg1
  assert (CtrlReg1.mmuEnabled.get c == 0) "!c.MMU_enabled"
  mmuEnableSet h (CtrlReg1.mmuEnabled.set c 1)

/-- `mmu_disable`. -/
def mmuDisable (h : Cp15) : Except Panic Cp15 := do
  let c := h.ctrlReg1
  assert (CtrlReg1.mmuEnabled.get c != 0) "c.MMU_enabled"
  let c := CtrlReg1.mmuEnabled.set c 0
  let c := CtrlReg1.cUnifiedEnable.set c 0
  pure (mmuDisableSetAsm h c)

/-- `mmu_get_curpid`: process id and ASID. -/
def mmuGetCurpid (h : Cp15) : BitVec 32 × BitVec 32 := (h.procid >>> 8, h.procid &&& 0xff)

/-- The context id of a small process id and an ASID decodes to both. -/
theorem mmuGetCurpid_of_lt {h : Cp15} {pid asid : BitVec 32} (hpid : pid.toNat < 2 ^ 24)
    (hasid : asid.toNat < 2 ^ 8) (hprocid : h.procid = pid <<< 8 ||| asid) :
    mmuGetCurpid h = (pid, asid) ∧ h.procid.toNat = pid.toNat * 2 ^ 8 + asid.toNat := by
  have hvalue : (pid <<< 8 ||| asid).toNat = pid.toNat * 2 ^ 8 + asid.toNat := by
    rw [BitVec.toNat_or, BitVec.toNat_shiftLeft, Nat.mod_eq_of_lt (by
      rw [Nat.shiftLeft_eq]
      omega), ← Nat.shiftLeft_add_eq_or_of_lt hasid, Nat.shiftLeft_eq]
  refine ⟨Prod.ext (BitVec.eq_of_toNat_eq ?_) (BitVec.eq_of_toNat_eq ?_), by rw [hprocid, hvalue]⟩
  · rw [mmuGetCurpid, hprocid, BitVec.toNat_ushiftRight, hvalue, Nat.shiftRight_eq_div_pow]
    simp only
    omega
  · have hmask : (0xff : BitVec 32).toNat = 2 ^ 8 - 1 := by decide
    rw [mmuGetCurpid, hprocid, BitVec.toNat_and, hvalue, hmask, Nat.and_two_pow_sub_one_eq_mod]
    simp only
    omega

/-- `mmu_enable` turns the MMU on, if it is off, and leaves the rest. -/
theorem mmuEnable_ok {h : Cp15} (hoff : h.mmuOn = false) :
    ∃ h', mmuEnable h = .ok h' ∧ h'.mmuOn = true ∧
      h' = { h with ctrlReg1 := CtrlReg1.mmuEnabled.set h.ctrlReg1 1 } := by
  have hbit : ∀ b : BitVec 1, (b == 1) = false → (b == 0) = true := by decide
  have hset : CtrlReg1.mmuEnabled.get (CtrlReg1.mmuEnabled.set h.ctrlReg1 1) = 1 := by
    simp [BitField.get]
  refine ⟨_, bind_eq_ok.mpr ⟨(), assert_eq_ok.mpr (hbit _ hoff), bind_eq_ok.mpr
    ⟨(), assert_eq_ok.mpr (by rw [hset]; decide), rfl⟩⟩, ?_, rfl⟩
  have hon : (CtrlReg1.mmuEnabled.get (CtrlReg1.mmuEnabled.set h.ctrlReg1 1) == 1) = true := by
    rw [hset]
    decide
  exact hon

/-- `mmu_disable` turns the MMU off, if it is on. -/
theorem mmuDisable_ok {h : Cp15} (hon : h.mmuOn = true) :
    ∃ h', mmuDisable h = .ok h' ∧ h'.mmuOn = false ∧ ∃ c, h' = { h with ctrlReg1 := c } := by
  have hbit : ∀ b : BitVec 1, (b == 1) = true → (b != 0) = true := by decide
  refine ⟨_, bind_eq_ok.mpr ⟨(), assert_eq_ok.mpr (hbit _ hon), rfl⟩, ?_, _, rfl⟩
  have hclear : CtrlReg1.mmuEnabled.get (CtrlReg1.cUnifiedEnable.set
      (CtrlReg1.mmuEnabled.set h.ctrlReg1 0) 0) = 0 := by
    simp [BitField.get]
  have hoff : (CtrlReg1.mmuEnabled.get (CtrlReg1.cUnifiedEnable.set
      (CtrlReg1.mmuEnabled.set h.ctrlReg1 0) 0) == 1) = false := by
    rw [hclear]
    decide
  exact hoff

/-! ## Translation -/

/-- The table that the hardware walks: bits 31 to 14 of `TTBR0`. The kernel
leaves the boundary in the translation control register at its reset value 0. -/
def Cp15.tableBase (h : Cp15) : BitVec 32 := h.ttbr0 &&& ~~~0x3fff

/-- The ASID in force. -/
def Cp15.asid (h : Cp15) : BitVec 8 := h.procid.extractLsb' 0 8

/-- The TLB entry for a translation: tagged if it is not global. -/
def Cp15.entry (h : Cp15) (va : BitVec 32) (r : Translation) : TlbEntry :=
  ⟨va, if r.attrs.ng = 1 then some h.asid else none, r⟩

/-- An entry answers under an ASID. -/
def TlbEntry.Usable (e : TlbEntry) (asid : BitVec 8) : Prop := e.asid = none ∨ e.asid = some asid

end RpiVm
