import RpiVm.Lib.Memory

/-!
# The core of an ARM processor

The registers with their banks, the status registers and a coprocessor, with a few
instructions of ARMv6 on them. The program counter is read and written only where code is
left: by a software interrupt and by the return from it.
-/

namespace Arm

open CLib

/-- The number of a core register. -/
abbrev Reg := Fin 16

/-- There is a register, so that numerals name registers. -/
scoped instance regs_neZero : NeZero 16 := ⟨by decide⟩

/-- The stack pointer. -/
def sp : Reg := 13

/-- The link register. -/
def lr : Reg := 14

/-- The program counter. -/
def pc : Reg := 15

/-- User mode, by its bits in a status register. -/
def usr : BitVec 5 := 0b10000

/-- The mode of fast interrupts. -/
def fiq : BitVec 5 := 0b10001

/-- Supervisor mode. -/
def svc : BitVec 5 := 0b10011

/-- System mode. -/
def sys : BitVec 5 := 0b11111

/-- A register of a coprocessor, as its instructions name it. -/
structure CpReg where
  /-- The number of the register. -/
  crn : ℕ
  /-- The additional register. -/
  crm : ℕ
  /-- The second opcode. -/
  opcode2 : ℕ
  deriving DecidableEq, Repr

/-- The core and memory. -/
structure Core where
  /-- The core registers, by bank. -/
  file : BitVec 5 → Reg → BitVec 32
  /-- The current status register. -/
  cpsr : BitVec 32
  /-- The saved status registers, by mode. -/
  spsr : BitVec 5 → BitVec 32
  /-- The registers of the coprocessor. -/
  cp : CpReg → BitVec 32
  /-- Memory. -/
  mem : Mem

/-- The mode bits of a status register. -/
def modeBits (psr : BitVec 32) : BitVec 5 := psr.extractLsb' 0 5

/-- The mode of the core. -/
def Core.mode (c : Core) : BitVec 5 := modeBits c.cpsr

/-- The bank that holds a register in a mode. Fast interrupts have five more registers of
their own; every mode but system mode has its own stack pointer and link register. -/
def bank (m : BitVec 5) (r : Reg) : BitVec 5 :=
  if r < 8 ∨ r = pc then usr
  else if r < 13 then if m = fiq then fiq else usr
  else if m = sys then usr else m

/-- The first eight registers are in one bank. -/
theorem bank_of_lt {m : BitVec 5} {r : Reg} (h : r < 8) : bank m r = usr := if_pos (Or.inl h)

/-- Reading a register. -/
def Core.get (c : Core) (r : Reg) : BitVec 32 := c.file (bank c.mode r) r

/-- Writing a register. -/
def Core.set (c : Core) (r : Reg) (v : BitVec 32) : Core :=
  let b := bank c.mode r
  { c with file := Function.update c.file b (Function.update (c.file b) r v) }

@[simp] theorem Core.set_mode (c : Core) (r : Reg) (v : BitVec 32) : (c.set r v).mode = c.mode := rfl
@[simp] theorem Core.set_cpsr (c : Core) (r : Reg) (v : BitVec 32) : (c.set r v).cpsr = c.cpsr := rfl
@[simp] theorem Core.set_spsr (c : Core) (r : Reg) (v : BitVec 32) : (c.set r v).spsr = c.spsr := rfl
@[simp] theorem Core.set_cp (c : Core) (r : Reg) (v : BitVec 32) : (c.set r v).cp = c.cp := rfl
@[simp] theorem Core.set_mem (c : Core) (r : Reg) (v : BitVec 32) : (c.set r v).mem = c.mem := rfl

/-- Writing a register changes it in its bank and nothing else. -/
theorem Core.set_file (c : Core) (r : Reg) (v : BitVec 32) (b : BitVec 5) (r' : Reg) :
    (c.set r v).file b r' = if b = bank c.mode r ∧ r' = r then v else c.file b r' := by
  by_cases hb : b = bank c.mode r
  · subst hb
    by_cases hr : r' = r
    · subst hr
      simp [Core.set]
    · simp [Core.set, hr]
  · simp [Core.set, hb]

/-- Reading the register just written. -/
@[simp] theorem Core.get_set_same (c : Core) (r : Reg) (v : BitVec 32) : (c.set r v).get r = v := by
  rw [Core.get, Core.set_file, if_pos ⟨rfl, rfl⟩]

/-- Reading another register. -/
theorem Core.get_set_of_ne (c : Core) {r r' : Reg} (v : BitVec 32) (h : r' ≠ r) :
    (c.set r v).get r' = c.get r' := by
  rw [Core.get, Core.set_file, if_neg fun hand => h hand.2]
  rfl

/-! ## Instructions -/

/-- Words stored one after the other. -/
def storeWords (m : Mem) (a : BitVec 32) : List (BitVec 32) → Mem
  | [] => m
  | v :: vs => storeWords (m.store32 a v) (a + 4) vs

/-- Registers loaded one after the other. -/
def loadRegs (c : Core) (a : BitVec 32) : List Reg → Core
  | [] => c
  | r :: rs => loadRegs (c.set r (c.mem.load32 a)) (a + 4) rs

/-- The number of bytes of a list of words. -/
def bytes {α : Type*} (l : List α) : BitVec 32 := BitVec.ofNat 32 (4 * l.length)

/-- Instructions. The registers of a list are in ascending order. -/
inductive Inst where
  /-- `mov rd, #imm`. -/
  | movImm (rd : Reg) (imm : BitVec 32)
  /-- `mov rd, rm`. -/
  | mov (rd rm : Reg)
  /-- `and rd, rn, #imm`. -/
  | andImm (rd rn : Reg) (imm : BitVec 32)
  /-- `ldr rd, [rn, #offset]`. -/
  | ldr (rd rn : Reg) (offset : BitVec 32)
  /-- `push {rs}`. -/
  | push (rs : List Reg)
  /-- `pop {rs}`. -/
  | pop (rs : List Reg)
  /-- `mcr p15, 0, rd, …`. -/
  | mcr (rd : Reg) (cr : CpReg)
  /-- `mrc p15, 0, rd, …`. -/
  | mrc (rd : Reg) (cr : CpReg)
  /-- `movs pc, rm`: the return from an exception. -/
  | movsPc (rm : Reg)

/-- Registers 7 and 8 of the coprocessor stand for operations on caches and the TLB, and
hold nothing. -/
def CpReg.IsOperation (cr : CpReg) : Prop := cr.crn = 7 ∨ cr.crn = 8

instance (cr : CpReg) : Decidable cr.IsOperation := by unfold CpReg.IsOperation; infer_instance

/-- The effect of an instruction. -/
def Inst.exec (c : Core) : Inst → Core
  | movImm rd imm => c.set rd imm
  | mov rd rm => c.set rd (c.get rm)
  | andImm rd rn imm => c.set rd (c.get rn &&& imm)
  | ldr rd rn offset => c.set rd (c.mem.load32 (c.get rn + offset))
  | push rs =>
    let a := c.get sp - bytes rs
    { c with mem := storeWords c.mem a (rs.map c.get) }.set sp a
  | pop rs =>
    let a := c.get sp
    (loadRegs c a rs).set sp (a + bytes rs)
  | mcr rd cr =>
    if cr.IsOperation then c else { c with cp := Function.update c.cp cr (c.get rd) }
  | mrc rd cr => c.set rd (c.cp cr)
  | movsPc rm =>
    let v := c.get rm
    { c with cpsr := c.spsr c.mode }.set pc v

/-- Instructions one after the other. -/
def Core.run (c : Core) (is : List Inst) : Core := is.foldl Inst.exec c

/-- The status register on entry to an exception: a mode, ARM state, interrupts off. -/
def entryCpsr (psr : BitVec 32) (m : BitVec 5) : BitVec 32 :=
  psr &&& ~~~0x3f ||| 0x80 ||| m.setWidth 32

/-- The entry to an exception is in the mode of the exception. -/
@[simp] theorem modeBits_entryCpsr (psr : BitVec 32) (m : BitVec 5) :
    modeBits (entryCpsr psr m) = m := by
  have hlow : ∀ i : Fin 5, (~~~(0x3f : BitVec 32)).getLsbD i = false ∧
      (0x80 : BitVec 32).getLsbD i = false := by decide
  apply BitVec.eq_of_getLsbD_eq
  intro i hi
  have hclear : (~~~(0x3f : BitVec 32)).getLsbD i = false := (hlow ⟨i, hi⟩).1
  have hirq : (0x80 : BitVec 32).getLsbD i = false := (hlow ⟨i, hi⟩).2
  rw [modeBits, entryCpsr, BitVec.getLsbD_extractLsb', Nat.zero_add, BitVec.getLsbD_or,
    BitVec.getLsbD_or, BitVec.getLsbD_and, hclear, hirq, BitVec.getLsbD_setWidth]
  have hi32 : i < 32 := by omega
  simp [hi, hi32]

/-- The address behind a software interrupt: the instruction has two bytes in Thumb state. -/
def Core.behindSwi (c : Core) : BitVec 32 :=
  c.get pc + if c.cpsr.getLsbD 5 then 2 else 4

/-- A software interrupt. -/
def Core.swi (c : Core) : Core :=
  { c with cpsr := entryCpsr c.cpsr svc, spsr := Function.update c.spsr svc c.cpsr }.set lr c.behindSwi

/-- The core in a software interrupt is in supervisor mode. -/
@[simp] theorem Core.swi_mode (c : Core) : c.swi.mode = svc := modeBits_entryCpsr _ _

/-- A software interrupt saves the status register. -/
@[simp] theorem Core.swi_spsr (c : Core) : c.swi.spsr svc = c.cpsr := by
  simp [Core.swi]

/-- A software interrupt leaves memory. -/
@[simp] theorem Core.swi_mem (c : Core) : c.swi.mem = c.mem := rfl

/-- A software interrupt writes one register: the link register of supervisor mode. -/
theorem Core.swi_file (c : Core) (b : BitVec 5) (r : Reg) :
    c.swi.file b r = if b = svc ∧ r = lr then c.behindSwi else c.file b r := by
  have hbank : bank (modeBits (entryCpsr c.cpsr svc)) lr = svc := by
    rw [modeBits_entryCpsr]
    decide
  rw [Core.swi, Core.set_file, Core.mode, hbank]

/-- What a C function keeps for its caller, apart from memory: four to eleven, the stack
pointer, the other banks, the mode and the saved status registers. -/
structure Keeps (c c' : Core) : Prop where
  /-- The registers that the callee saves. -/
  regs : ∀ r, 4 ≤ r ∧ r ≤ 11 ∨ r = sp → c'.get r = c.get r
  /-- The banks of other modes. -/
  banks : ∀ b r, b ≠ bank c.mode r → c'.file b r = c.file b r
  /-- The mode. -/
  mode : c'.mode = c.mode
  /-- The saved status registers. -/
  spsr : c'.spsr = c.spsr

/-! ## Saving and restoring registers -/

/-- Words stored lie in the region of their addresses. -/
theorem storeWords_agreeOn {m : Mem} {a : BitVec 32} {vs : List (BitVec 32)} {r : Region}
    (hfit : a.toNat + 4 * vs.length ≤ 2 ^ 32)
    (h : Region.Disjoint ⟨a.toNat, 4 * vs.length⟩ r) : Mem.AgreeOn (storeWords m a vs) m r := by
  induction vs generalizing m a with
  | nil => exact Mem.AgreeOn.refl _ _
  | cons v vs ih =>
    rw [List.length_cons] at hfit h
    have hword : Mem.AgreeOn (m.store32 a v) m r :=
      Mem.store32_agreeOn (by omega) (h.mono ⟨le_rfl, by simp only [Mem.wordAt]; omega⟩ ⟨le_rfl, le_rfl⟩)
    cases vs with
    | nil => exact hword
    | cons w vs =>
      rw [List.length_cons] at hfit h
      have hnext : (a + 4).toNat = a.toNat + 4 := by bv_omega
      refine (ih ?_ ?_).trans hword
      · rw [hnext, List.length_cons]
        omega
      · refine h.mono ?_ ⟨le_rfl, le_rfl⟩
        simp only [Region.Within, hnext, List.length_cons]
        omega

/-- Each word stored is loaded back from its place. -/
theorem load32_storeWords {m : Mem} {a : BitVec 32} {vs : List (BitVec 32)} {j : ℕ}
    (hj : j < vs.length) (hfit : a.toNat + 4 * vs.length ≤ 2 ^ 32) :
    (storeWords m a vs).load32 (a + BitVec.ofNat 32 (4 * j)) = vs[j] := by
  induction vs generalizing m a j with
  | nil => simp at hj
  | cons v vs ih =>
    rw [List.length_cons] at hfit
    cases j with
    | zero =>
      have hrest : Mem.AgreeOn (storeWords (m.store32 a v) (a + 4) vs) (m.store32 a v)
          (Mem.wordAt a) := by
        cases vs with
        | nil => exact Mem.AgreeOn.refl _ _
        | cons w vs =>
          rw [List.length_cons] at hfit
          have hnext : (a + 4).toNat = a.toNat + 4 := by bv_omega
          refine storeWords_agreeOn (by rw [hnext, List.length_cons]; omega) (Or.inr ?_)
          simp only [Mem.wordAt, hnext]
          omega
      have hword := Mem.load32_congr (by omega) hrest
      rw [Mem.load32_store32_same] at hword
      simpa [storeWords] using hword
    | succ j =>
      rw [List.length_cons] at hj
      have hnext : (a + 4).toNat = a.toNat + 4 := by bv_omega
      have haddr : a + BitVec.ofNat 32 (4 * (j + 1)) = a + 4 + BitVec.ofNat 32 (4 * j) := by bv_omega
      have hrest := ih (m := m.store32 a v) (a := a + 4) (j := j) (by omega) (by omega)
      rw [haddr]
      exact hrest

/-- Loading registers leaves memory, the status registers and the mode. -/
theorem loadRegs_same (c : Core) (a : BitVec 32) (rs : List Reg) :
    (loadRegs c a rs).mem = c.mem ∧ (loadRegs c a rs).cpsr = c.cpsr ∧
      (loadRegs c a rs).spsr = c.spsr := by
  induction rs generalizing c a with
  | nil => exact ⟨rfl, rfl, rfl⟩
  | cons r rs ih => exact ih _ _

/-- Loading registers leaves the others, and other banks. -/
theorem loadRegs_file {c : Core} {a : BitVec 32} {rs : List Reg} {b : BitVec 5} {r : Reg}
    (h : b = bank c.mode r → r ∉ rs) : (loadRegs c a rs).file b r = c.file b r := by
  induction rs generalizing c a with
  | nil => rfl
  | cons r' rs ih =>
    have hrest := ih (c := c.set r' (c.mem.load32 a)) (a := a + 4)
      fun hb hr => h hb (List.mem_cons_of_mem _ hr)
    rw [loadRegs, hrest, Core.set_file, if_neg]
    rintro ⟨hb, rfl⟩
    exact h hb List.mem_cons_self

/-- Each register of the list is loaded from its place. -/
theorem get_loadRegs {c : Core} {a : BitVec 32} {rs : List Reg} (hnodup : rs.Nodup) {j : ℕ}
    (hj : j < rs.length) :
    (loadRegs c a rs).get rs[j] = c.mem.load32 (a + BitVec.ofNat 32 (4 * j)) := by
  induction rs generalizing c a j with
  | nil => simp at hj
  | cons r rs ih =>
    obtain ⟨hnew, hnodup⟩ := List.nodup_cons.mp hnodup
    cases j with
    | zero =>
      have hmode : (loadRegs (c.set r (c.mem.load32 a)) (a + 4) rs).mode = c.mode :=
        congrArg modeBits (loadRegs_same _ _ _).2.1
      have hfile : (loadRegs (c.set r (c.mem.load32 a)) (a + 4) rs).file (bank c.mode r) r =
          (c.set r (c.mem.load32 a)).file (bank c.mode r) r := loadRegs_file fun _ => hnew
      rw [Core.set_file, if_pos ⟨rfl, rfl⟩] at hfile
      rw [loadRegs, List.getElem_cons_zero, Core.get, hmode, hfile]
      simp
    | succ j =>
      have hrest := ih (c := c.set r (c.mem.load32 a)) (a := a + 4) hnodup
        (Nat.lt_of_succ_lt_succ hj)
      have haddr : a + BitVec.ofNat 32 (4 * (j + 1)) = a + 4 + BitVec.ofNat 32 (4 * j) := by bv_omega
      rw [loadRegs, List.getElem_cons_succ, hrest, haddr]
      rfl

/-- `push` leaves the registers on the stack, in order. -/
theorem load32_push {c : Core} {rs : List Reg} {r : Reg} {j : ℕ} (hr : rs[j]? = some r)
    (hfit : (c.get sp - bytes rs).toNat + 4 * rs.length ≤ 2 ^ 32) :
    (Inst.exec c (.push rs)).mem.load32 (c.get sp - bytes rs + BitVec.ofNat 32 (4 * j)) =
      c.get r := by
  obtain ⟨hj, rfl⟩ := List.getElem?_eq_some_iff.mp hr
  have hj' : j < (rs.map c.get).length := by rwa [List.length_map]
  have hload : (storeWords c.mem (c.get sp - bytes rs) (rs.map c.get)).load32
      (c.get sp - bytes rs + BitVec.ofNat 32 (4 * j)) = (rs.map c.get)[j] :=
    load32_storeWords hj' (by rwa [List.length_map])
  rw [List.getElem_map] at hload
  exact hload

/-- `push` moves the stack pointer and leaves every register. -/
theorem file_push {c : Core} {rs : List Reg} {b : BitVec 5} {r : Reg} (h : b = bank c.mode r → r ≠ sp) :
    (Inst.exec c (.push rs)).file b r = c.file b r := by
  rw [Inst.exec, Core.set_file, if_neg]
  rintro ⟨hb, rfl⟩
  exact h hb rfl

/-- `pop` takes a register of its list from its place on the stack. -/
theorem get_pop {c : Core} {rs : List Reg} (hnodup : rs.Nodup) (hsp : sp ∉ rs) {r : Reg} {j : ℕ}
    (hr : rs[j]? = some r) : (Inst.exec c (.pop rs)).get r =
      c.mem.load32 (c.get sp + BitVec.ofNat 32 (4 * j)) := by
  obtain ⟨hj, rfl⟩ := List.getElem?_eq_some_iff.mp hr
  have hne : rs[j] ≠ sp := fun h => hsp (h ▸ List.getElem_mem hj)
  rw [Inst.exec, Core.get_set_of_ne _ _ hne, get_loadRegs hnodup hj]

/-- `pop` leaves the status registers. -/
theorem status_pop (c : Core) (rs : List Reg) :
    (Inst.exec c (.pop rs)).mode = c.mode ∧ (Inst.exec c (.pop rs)).spsr = c.spsr := by
  obtain ⟨_, hcpsr, hspsr⟩ := loadRegs_same c (c.get sp) rs
  exact ⟨congrArg modeBits hcpsr, hspsr⟩

/-- `pop` moves the stack pointer behind the words. -/
theorem file_pop_sp (c : Core) (rs : List Reg) :
    (Inst.exec c (.pop rs)).file (bank c.mode sp) sp = c.get sp + bytes rs := by
  have hmode : (loadRegs c (c.get sp) rs).mode = c.mode := (status_pop c rs).1
  rw [Inst.exec, Core.set_file, hmode, if_pos ⟨rfl, rfl⟩]

/-- `pop` leaves the other registers. -/
theorem file_pop {c : Core} {rs : List Reg} {b : BitVec 5} {r : Reg}
    (h : b = bank c.mode r → r ∉ rs ∧ r ≠ sp) : (Inst.exec c (.pop rs)).file b r = c.file b r := by
  have hmode : (loadRegs c (c.get sp) rs).mode = c.mode := (status_pop c rs).1
  rw [Inst.exec, Core.set_file, if_neg, loadRegs_file fun hb => (h hb).1]
  rintro ⟨hb, rfl⟩
  rw [hmode] at hb
  exact (h hb).2 rfl

/-- The return from an exception restores the status register and writes the program counter. -/
theorem movsPc_spec (c : Core) (rm : Reg) :
    (Inst.exec c (.movsPc rm)).cpsr = c.spsr c.mode ∧
      (Inst.exec c (.movsPc rm)).get pc = c.get rm ∧
      ∀ b r, r ≠ pc → (Inst.exec c (.movsPc rm)).file b r = c.file b r := by
  refine ⟨rfl, Core.get_set_same _ _ _, fun b r hr => ?_⟩
  rw [Inst.exec, Core.set_file, if_neg fun hand => hr hand.2]

end Arm
