import RpiVm.Lib.Copy
import RpiVm.Lib.Isa

/-!
# A fragment of the instruction set

Data processing, the pushes, the branch with link and the load of the program counter, on the core
registers of one mode. Other words are not executed.
-/

namespace Arm

open CLib

/-- The flags and the registers of a mode, without the program counter. -/
structure Regs where
  /-- The condition flags. -/
  flags : Flags
  /-- The registers. -/
  r : Reg → BitVec 32

/-- The register that a field names. -/
def regAt (w : BitVec 32) (i : ℕ) : Reg := (regField w i).toFin

/-- Reading a register, the program counter two words further than the instruction. -/
def Regs.read (c : Regs) (pc : BitVec 32) (r : Reg) : BitVec 32 :=
  if r = Arm.pc then pc + 8 else c.r r

/-- Writing a register. -/
def Regs.write (c : Regs) (r : Reg) (v : BitVec 32) : Regs :=
  { c with r := Function.update c.r r v }

/-- The register that was written. -/
@[simp] theorem Regs.write_same (c : Regs) (r : Reg) (v : BitVec 32) : (c.write r v).r r = v := by
  simp [write]

/-- Another one. -/
theorem Regs.write_of_ne (c : Regs) {r r' : Reg} (v : BitVec 32) (h : r' ≠ r) :
    (c.write r v).r r' = c.r r' := by
  simp [write, h]

/-- A value shifted by a constant, where the shifts to the right by nothing stand for others. -/
def shiftConst (kind : BitVec 2) (carry : Bool) (v : BitVec 32) (n : ℕ) : BitVec 32 :=
  match kind.toNat with
  | 0 => v <<< n
  | 1 => v >>> (if n = 0 then 32 else n)
  | 2 => v.sshiftRight (if n = 0 then 32 else n)
  | _ => if n = 0 then v >>> 1 ||| (BitVec.ofBool carry).setWidth 32 <<< 31 else v.rotateRight n

/-- A value shifted by a register. -/
def shiftReg (kind : BitVec 2) (v : BitVec 32) (n : ℕ) : BitVec 32 :=
  match kind.toNat with
  | 0 => v <<< n
  | 1 => v >>> n
  | 2 => v.sshiftRight n
  | _ => v.rotateRight n

/-- The operand of data processing. -/
def operand (c : Regs) (pc w : BitVec 32) : BitVec 32 :=
  if w.getLsbD 25 then
    ((w.extractLsb' 0 8).setWidth 32).rotateRight (2 * (w.extractLsb' 8 4).toNat)
  else
    let v := c.read pc (regAt w 0)
    if w.getLsbD 4 then
      shiftReg (w.extractLsb' 5 2) v ((c.r (regAt w 8)).extractLsb' 0 8).toNat
    else shiftConst (w.extractLsb' 5 2) c.flags.c v (w.extractLsb' 7 5).toNat

/-- The result of data processing. -/
def dataResult (c : Regs) (pc w : BitVec 32) : BitVec 32 :=
  let x := c.read pc (regAt w 16)
  let y := operand c pc w
  let carry := (BitVec.ofBool c.flags.c).setWidth 32
  match (w.extractLsb' 21 4).toNat with
  | 0 => x &&& y
  | 1 => x ^^^ y
  | 2 => x - y
  | 3 => y - x
  | 4 => x + y
  | 5 => x + y + carry
  | 6 => x - y - 1 + carry
  | 7 => y - x - 1 + carry
  | 12 => x ||| y
  | 13 => y
  | 14 => x &&& ~~~y
  | _ => ~~~y

/-- Pushing registers. -/
def pushed (s : Point Regs) (rs : List Reg) : Point Regs :=
  let sp := s.core.r Arm.sp - bytes rs
  { s.next with core := s.core.write Arm.sp sp, mem := storeWords s.mem sp (rs.map s.core.r) }

/-- Executing a word. -/
def execWord (s : Point Regs) (w : BitVec 32) : Option (Point Regs) :=
  let kind := w.extractLsb' 20 8
  if s.core.flags.pass (condition w) = false then some s.next
  else if IsData w then
    some { s.next with core := s.core.write (regAt w 12) (dataResult s.core s.pc w) }
  else if kind = 0x59 ∧ w.extractLsb' 12 8 = 0xff then
    some { s with pc := s.mem.load32 (s.pc + 8 + (w.extractLsb' 0 12).setWidth 32) }
  else if kind = 0x92 ∧ w.extractLsb' 16 4 = 0xd then some (pushed s (regList (w.extractLsb' 0 16)))
  else if kind = 0x52 ∧ w.extractLsb' 16 4 = 0xd ∧ w.extractLsb' 0 12 = 4 then
    some (pushed s [regAt w 12])
  else if w.extractLsb' 24 4 = 0xb then
    some { s with
      core := s.core.write lr (s.pc + 4)
      pc := blTarget s.pc (w.extractLsb' 0 24) }
  else none

/-! ## The words as they are encoded -/

/-- A word without a condition that is no data processing. -/
theorem execWord_guards {f : Flags} {w : BitVec 32} (hcond : condition w = 14)
    (hkind : w.extractLsb' 26 2 ≠ 0) : ¬ f.pass (condition w) = false ∧ ¬ IsData w := by
  refine ⟨?_, fun hw => hkind hw.kind⟩
  rw [hcond]
  exact Bool.noConfusion

/-- The load of the program counter is executed as such. -/
theorem execWord_ldrPc (s : Point Regs) (offset : BitVec 12) : execWord s (ldrPc offset) =
    some { s with pc := s.mem.load32 (s.pc + 8 + offset.setWidth 32) } := by
  have hfield {start len : ℕ} (h : 12 ≤ start) :
      (ldrPc offset).extractLsb' start len = (0xe59ff#20).extractLsb' (start - 12) len :=
    BitVec.extractLsb'_append_eq_of_le h
  have hoffset : (ldrPc offset).extractLsb' 0 12 = offset := BitVec.extractLsb'_append_eq_right
  obtain ⟨hpass, hdata⟩ := execWord_guards (f := s.core.flags)
    (hfield (by decide) : condition (ldrPc offset) = 14) (by rw [hfield (by decide)]; decide)
  have hcode : (ldrPc offset).extractLsb' 20 8 = 0x59 ∧ (ldrPc offset).extractLsb' 12 8 = 0xff :=
    ⟨hfield (by decide), hfield (by decide)⟩
  simp only [execWord, if_neg hpass, if_neg hdata, if_pos hcode, hoffset]

/-- So is the push of registers. -/
theorem execWord_pushRegs (s : Point Regs) (rs : BitVec 16) :
    execWord s (pushRegs rs) = some (pushed s (regList rs)) := by
  have hfield {start len : ℕ} (h : 16 ≤ start) :
      (pushRegs rs).extractLsb' start len = (0xe92d#16).extractLsb' (start - 16) len :=
    BitVec.extractLsb'_append_eq_of_le h
  have hlist : (pushRegs rs).extractLsb' 0 16 = rs := BitVec.extractLsb'_append_eq_right
  obtain ⟨hpass, hdata⟩ := execWord_guards (f := s.core.flags)
    (hfield (by decide) : condition (pushRegs rs) = 14) (by rw [hfield (by decide)]; decide)
  have hcode : (pushRegs rs).extractLsb' 20 8 = 0x92 := hfield (by decide)
  have hreg : (pushRegs rs).extractLsb' 16 4 = 0xd := hfield (by decide)
  have hload : ¬ ((pushRegs rs).extractLsb' 20 8 = 0x59 ∧ (pushRegs rs).extractLsb' 12 8 = 0xff) :=
    fun h => absurd (hcode.symm.trans h.1) (by decide)
  simp only [execWord, if_neg hpass, if_neg hdata, if_neg hload, if_pos (And.intro hcode hreg),
    hlist]

/-- So is the push of one register. -/
theorem execWord_pushReg (s : Point Regs) (r : BitVec 4) :
    execWord s (pushReg r) = some (pushed s [r.toFin]) := by
  have hfield {start len : ℕ} (h : 16 ≤ start) :
      (pushReg r).extractLsb' start len = (0xe52d#16).extractLsb' (start - 16) len :=
    BitVec.extractLsb'_append_eq_of_le h
  have hr : (pushReg r).extractLsb' 12 4 = r := by
    have hlow : (pushReg r).extractLsb' 12 4 = (r ++ 0x004#12).extractLsb' 12 4 :=
      BitVec.extractLsb'_append_eq_of_add_le (by decide)
    rw [hlow, BitVec.extractLsb'_append_eq_of_le (by decide)]
    exact BitVec.extractLsb'_eq_self
  have hlow : (pushReg r).extractLsb' 0 12 = 4 := by
    have hlow : (pushReg r).extractLsb' 0 12 = (r ++ 0x004#12).extractLsb' 0 12 :=
      BitVec.extractLsb'_append_eq_of_add_le (by decide)
    rw [hlow]
    exact BitVec.extractLsb'_append_eq_right
  obtain ⟨hpass, hdata⟩ := execWord_guards (f := s.core.flags)
    (hfield (by decide) : condition (pushReg r) = 14) (by rw [hfield (by decide)]; decide)
  have hcode : (pushReg r).extractLsb' 20 8 = 0x52 := hfield (by decide)
  have hreg : (pushReg r).extractLsb' 16 4 = 0xd := hfield (by decide)
  have hload : ¬ ((pushReg r).extractLsb' 20 8 = 0x59 ∧ (pushReg r).extractLsb' 12 8 = 0xff) :=
    fun h => absurd (hcode.symm.trans h.1) (by decide)
  have hmany : ¬ ((pushReg r).extractLsb' 20 8 = 0x92 ∧ (pushReg r).extractLsb' 16 4 = 0xd) :=
    fun h => absurd (hcode.symm.trans h.1) (by decide)
  simp only [execWord, if_neg hpass, if_neg hdata, if_neg hload, if_neg hmany,
    if_pos (And.intro hcode (And.intro hreg hlow)), regAt, regField, hr]

/-- So is the branch. -/
theorem execWord_bl (s : Point Regs) (offset : BitVec 24) : execWord s (bl offset) =
    some { s with core := s.core.write lr (s.pc + 4), pc := blTarget s.pc offset } := by
  have hfield {start len : ℕ} (h : 24 ≤ start) :
      (bl offset).extractLsb' start len = (0xeb#8).extractLsb' (start - 24) len :=
    BitVec.extractLsb'_append_eq_of_le h
  have hoffset : (bl offset).extractLsb' 0 24 = offset := BitVec.extractLsb'_append_eq_right
  obtain ⟨hpass, hdata⟩ := execWord_guards (f := s.core.flags)
    (hfield (by decide) : condition (bl offset) = 14) (by rw [hfield (by decide)]; decide)
  have hcode : (bl offset).extractLsb' 24 4 = 0xb := hfield (by decide)
  have hother {k : BitVec 8} (hk : k.extractLsb' 4 4 ≠ 0xb) : (bl offset).extractLsb' 20 8 ≠ k := by
    intro h
    apply hk
    rw [← h, ← hcode]
    apply BitVec.eq_of_getLsbD_eq
    intro i hi
    simp only [BitVec.getLsbD_extractLsb']
    have hin : 4 + i < 8 := by omega
    simp only [hin, decide_true, Bool.true_and, ← Nat.add_assoc]
  have hload : ¬ ((bl offset).extractLsb' 20 8 = 0x59 ∧ (bl offset).extractLsb' 12 8 = 0xff) :=
    fun h => hother (by decide) h.1
  have hmany : ¬ ((bl offset).extractLsb' 20 8 = 0x92 ∧ (bl offset).extractLsb' 16 4 = 0xd) :=
    fun h => hother (by decide) h.1
  have hone : ¬ ((bl offset).extractLsb' 20 8 = 0x52 ∧ (bl offset).extractLsb' 16 4 = 0xd ∧
      (bl offset).extractLsb' 0 12 = 4) :=
    fun h => hother (by decide) h.1
  simp only [execWord, if_neg hpass, if_neg hdata, if_neg hload, if_neg hmany, if_neg hone,
    if_pos hcode, hoffset]

/-! ## The instruction set -/

/-- Words stored one after the other change no byte outside of them. -/
theorem storeWords_outside {m : Mem} {a x : BitVec 32} {vs : List (BitVec 32)}
    (hlen : 4 * vs.length < 2 ^ 32) (h : 4 * vs.length ≤ (x - a).toNat) :
    storeWords m a vs x = m x := by
  induction vs generalizing m a with
  | nil => rfl
  | cons v vs ih =>
    rw [List.length_cons] at hlen h
    have hrest : 4 * vs.length ≤ (x - (a + 4)).toNat := by bv_omega
    rw [storeWords, ih (by omega) hrest]
    refine Mem.store32_of_ne m a v fun j hj => ?_
    bv_omega

/-- A push moves the stack pointer. -/
theorem pushed_sp (s : Point Regs) (rs : List Reg) :
    (pushed s rs).core.r Arm.sp = s.core.r Arm.sp - bytes rs :=
  Regs.write_same ..

/-- A push leaves the memory that is not below the stack pointer. -/
theorem pushed_mem {s : Point Regs} {rs : List Reg} (hlen : rs.length ≤ 16) {x : BitVec 32}
    (h : (bytes rs).toNat ≤ (x - (pushed s rs).core.r Arm.sp).toNat) :
    (pushed s rs).mem x = s.mem x := by
  rw [pushed_sp] at h
  have hbytes : (bytes rs).toNat = 4 * rs.length := by
    rw [bytes, BitVec.toNat_ofNat, Nat.mod_eq_of_lt (by omega)]
  refine storeWords_outside ?_ ?_
  · rw [List.length_map]
    omega
  · rw [List.length_map, ← hbytes]
    exact h

/-- The fragment as an instruction set. -/
def fragment : Isa where
  Core := Regs
  flags := Regs.flags
  sp c := c.r Arm.sp
  exec := execWord
  exec_skip s w h := if_pos h
  exec_data s w h := by
    by_cases hpass : s.core.flags.pass (condition w) = false
    · exact ⟨s.core, if_pos hpass, rfl, fun _ => rfl⟩
    · refine ⟨s.core.write (regAt w 12) (dataResult s.core s.pc w), ?_, rfl, fun hne => ?_⟩
      · simp only [execWord, if_neg hpass, if_pos h]
      · refine s.core.write_of_ne _ fun heq => hne ?_
        exact BitVec.eq_of_toFin_eq heq.symm
  exec_pushRegs s rs _ _ := ⟨_, _, execWord_pushRegs s rs, pushed_sp s _, fun x hx =>
    pushed_mem ((List.length_filter_le _ _).trans (List.length_finRange ..).le) hx⟩
  exec_pushReg s r _ _ := ⟨_, _, execWord_pushReg s r, pushed_sp s _, fun x hx =>
    @pushed_mem s [r.toFin] (by simp) x hx⟩
  exec_bl s offset := ⟨_, execWord_bl s offset⟩
  exec_ldrPc s offset _ _ := execWord_ldrPc s offset

end Arm
