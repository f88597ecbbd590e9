import RpiVm.Lib.Arm

/-!
# Words as instructions

Where execution goes on when words of memory are executed as ARM instructions. The instruction set
is a parameter: of it only the condition field, data processing, the push of registers, the
branch and the load of the program counter from a literal are used.
-/

namespace Arm

open CLib

/-- The condition flags. -/
structure Flags where
  /-- Negative. -/
  n : Bool
  /-- Zero. -/
  z : Bool
  /-- Carry. -/
  c : Bool
  /-- Overflow. -/
  v : Bool
  deriving DecidableEq, Repr

/-- The condition field of a word. -/
def condition (w : BitVec 32) : BitVec 4 := w.extractLsb' 28 4

/-- Whether the flags let an instruction with a condition execute. The last two have none. -/
def Flags.pass (f : Flags) (cond : BitVec 4) : Bool :=
  match cond.toNat with
  | 0 => f.z
  | 1 => !f.z
  | 2 => f.c
  | 3 => !f.c
  | 4 => f.n
  | 5 => !f.n
  | 6 => f.v
  | 7 => !f.v
  | 8 => f.c && !f.z
  | 9 => !f.c || f.z
  | 10 => f.n == f.v
  | 11 => f.n != f.v
  | 12 => !f.z && f.n == f.v
  | 13 => f.z || f.n != f.v
  | _ => true

/-! ## Encodings -/

/-- A register field of a word. -/
def regField (w : BitVec 32) (i : ℕ) : BitVec 4 := w.extractLsb' i 4

/-- Data processing that sets no flags, its result not in the program counter. The operand is a
constant, a register shifted by a constant, or a register shifted by a register; the last has no
program counter at all. A move has no first operand. -/
@[mk_iff] structure IsData (w : BitVec 32) : Prop where
  /-- All conditions but the last are conditions. -/
  condition : condition w ≠ 15
  /-- The kind of instruction. -/
  kind : w.extractLsb' 26 2 = 0
  /-- The flags are not set. -/
  setsNoFlags : w.getLsbD 20 = false
  /-- No comparison: these would set them. -/
  noTest : w.extractLsb' 23 2 ≠ 2
  /-- The result goes to another register. -/
  dest : regField w 12 ≠ 15
  /-- The operand. -/
  operand : w.getLsbD 25 = true ∨ w.getLsbD 4 = false ∨ w.getLsbD 7 = false ∧
    regField w 0 ≠ 15 ∧ regField w 8 ≠ 15 ∧ regField w 16 ≠ 15
  /-- Moves. -/
  move : w.extractLsb' 23 2 = 3 → w.getLsbD 21 = true → regField w 16 = 0

instance (w : BitVec 32) : Decidable (IsData w) := decidable_of_iff' _ (isData_iff w)

/-- `ldr pc, [pc, #offset]`. The program counter is two words further than the instruction. -/
def ldrPc (offset : BitVec 12) : BitVec 32 := 0xe59ff#20 ++ offset

/-- `push {rs}`, a bit for each register. -/
def pushRegs (rs : BitVec 16) : BitVec 32 := 0xe92d#16 ++ rs

/-- `push {r}`. -/
def pushReg (r : BitVec 4) : BitVec 32 := 0xe52d#16 ++ (r ++ 0x004#12)

/-- `bl` with an offset in words. -/
def bl (offset : BitVec 24) : BitVec 32 := 0xeb#8 ++ offset

/-- Where `bl` at an address branches to. -/
def blTarget (a : BitVec 32) (offset : BitVec 24) : BitVec 32 :=
  a + 8 + (offset ++ 0#2).signExtend 32

/-- The registers that are pushed. -/
def regList (rs : BitVec 16) : List Reg := (List.finRange 16).filter fun r => rs.getLsbD r

/-! ## Instruction sets -/

/-- A core about to execute a word. -/
structure Point (Core : Type) where
  /-- The core, apart from memory and the program counter. -/
  core : Core
  /-- Memory. -/
  mem : Mem
  /-- The program counter. -/
  pc : BitVec 32

/-- Going on with the next word. -/
def Point.next {Core : Type} (s : Point Core) : Point Core := { s with pc := s.pc + 4 }

/-- An instruction set. -/
structure Isa where
  /-- The core, apart from memory and the program counter. -/
  Core : Type
  /-- Its flags. -/
  flags : Core → Flags
  /-- Its stack pointer. -/
  sp : Core → BitVec 32
  /-- What comes after a word has been executed as an instruction, if anything. -/
  exec : Point Core → BitVec 32 → Option (Point Core)
  /-- An instruction whose condition fails does nothing. -/
  exec_skip : ∀ s w, (flags s.core).pass (condition w) = false → exec s w = some s.next
  /-- Data processing changes a register. -/
  exec_data : ∀ s w, IsData w → ∃ c, exec s w = some { s.next with core := c } ∧
    flags c = flags s.core ∧ (regField w 12 ≠ 13 → sp c = sp s.core)
  /-- A push stores registers below the stack pointer, which it moves. -/
  exec_pushRegs : ∀ s rs, rs.getLsbD 13 = false → rs.getLsbD 15 = false →
    ∃ c m, exec s (pushRegs rs) = some { s.next with core := c, mem := m } ∧
      sp c = sp s.core - bytes (regList rs) ∧
      ∀ x, (bytes (regList rs)).toNat ≤ (x - sp c).toNat → m x = s.mem x
  /-- So does the push of one register. -/
  exec_pushReg : ∀ s r, r ≠ 13 → r ≠ 15 →
    ∃ c m, exec s (pushReg r) = some { s.next with core := c, mem := m } ∧
      sp c = sp s.core - 4 ∧ ∀ x, 4 ≤ (x - sp c).toNat → m x = s.mem x
  /-- A branch with link. -/
  exec_bl : ∀ s offset, ∃ c, exec s (bl offset) =
    some { s with core := c, pc := blTarget s.pc offset }
  /-- Loading the program counter jumps to the word that is loaded. -/
  exec_ldrPc : ∀ s offset, (s.pc + 8 + offset.setWidth 32) % 4 = 0 →
    s.mem.load32 (s.pc + 8 + offset.setWidth 32) % 4 = 0 →
    exec s (ldrPc offset) = some { s with pc := s.mem.load32 (s.pc + 8 + offset.setWidth 32) }

namespace Isa

variable (isa : Isa)

/-- Executing the word that the program counter points to. -/
def step (s : Point isa.Core) : Option (Point isa.Core) := isa.exec s (s.mem.load32 s.pc)

/-- Executing a number of words. -/
def after : ℕ → Point isa.Core → Option (Point isa.Core)
  | 0, s => some s
  | n + 1, s => (isa.step s).bind (after n)

/-- Control comes to an address, by words at addresses of a kind only. -/
inductive Reaches (inside : BitVec 32 → Prop) (a : BitVec 32) : Point isa.Core → Prop
  | here (s : Point isa.Core) : s.pc = a → Reaches inside a s
  | step (s s' : Point isa.Core) : inside s.pc → isa.step s = some s' → Reaches inside a s' →
      Reaches inside a s

/-- Words that do not change where execution goes on: it is the next word. -/
def Inert (f : Flags) (w : BitVec 32) : Prop := f.pass (condition w) = false ∨ IsData w

instance (f : Flags) (w : BitVec 32) : Decidable (Inert f w) := by unfold Inert; infer_instance

/-- The load of the program counter is not of this kind. -/
theorem not_inert_ldrPc (f : Flags) (offset : BitVec 12) : ¬ Inert f (ldrPc offset) := by
  have hfield {start len : ℕ} (h : 12 ≤ start) :
      (ldrPc offset).extractLsb' start len = (0xe59ff#20).extractLsb' (start - 12) len :=
    BitVec.extractLsb'_append_eq_of_le h
  have hcond : condition (ldrPc offset) = 14 := hfield (by decide)
  rintro (hfail | hdata)
  · rw [hcond] at hfail
    exact Bool.noConfusion hfail
  · have hkind : (0xe59ff#20).extractLsb' 14 2 = 0 := (hfield (by decide)).symm.trans hdata.kind
    exact absurd hkind (by decide)

variable {isa} {inside : BitVec 32 → Prop} {a b : BitVec 32} {s s' : Point isa.Core}

/-- From a word that is executed an address is reached at once or from what comes after it. -/
theorem reaches_iff_of_step (hin : inside s.pc) (hstep : isa.step s = some s') :
    isa.Reaches inside a s ↔ s.pc = a ∨ isa.Reaches inside a s' := by
  constructor
  · intro h
    cases h with
    | here _ hpc => exact .inl hpc
    | step _ s₁ _ hstep₁ hrest =>
      obtain rfl : s' = s₁ := Option.some.inj (hstep.symm.trans hstep₁)
      exact .inr hrest
  · rintro (hpc | hrest)
    · exact .here s hpc
    · exact .step s s' hin hstep hrest

/-- Where no words of the kind are left, nothing else is reached. -/
theorem reaches_iff_of_outside (hout : ¬ inside s.pc) : isa.Reaches inside a s ↔ s.pc = a := by
  constructor
  · intro h
    cases h with
    | here _ hpc => exact hpc
    | step _ _ hin => exact absurd hin hout
  · exact .here s

/-- There is one address outside at most that is reached. -/
theorem Reaches.eq_of_outside (ha : isa.Reaches inside a s) (hout : ¬ inside a)
    (hb : isa.Reaches inside b s) (hout' : ¬ inside b) : a = b := by
  induction ha with
  | here s hpc =>
    rw [← hpc] at hout
    exact hpc.symm.trans ((reaches_iff_of_outside hout).mp hb)
  | step s s₁ hin hstep _ ih =>
    refine ih ?_
    obtain rfl | hrest := (reaches_iff_of_step hin hstep).mp hb
    · exact absurd hin hout'
    · exact hrest

/-- A word that changes nothing about where execution goes on. -/
theorem step_of_inert (h : Inert (isa.flags s.core) (s.mem.load32 s.pc)) :
    ∃ c, isa.step s = some { s.next with core := c } ∧ isa.flags c = isa.flags s.core := by
  obtain hfail | hdata := h
  · exact ⟨s.core, isa.exec_skip s _ hfail, rfl⟩
  · obtain ⟨c, hexec, hflags, -⟩ := isa.exec_data s _ hdata
    exact ⟨c, hexec, hflags⟩

/-- Through such words control comes to the word behind them, with the flags as they were; on the
way it was at each of them. -/
theorem reaches_iff_of_inert {n : ℕ} {pc : BitVec 32}
    (hinert : ∀ k < n, Inert (isa.flags s.core) (s.mem.load32 (s.pc + BitVec.ofNat 32 (4 * k))))
    (hin : ∀ k < n, inside (s.pc + BitVec.ofNat 32 (4 * k)))
    (hpc : pc = s.pc + BitVec.ofNat 32 (4 * n)) :
    ∃ c, isa.after n s = some ⟨c, s.mem, pc⟩ ∧ isa.flags c = isa.flags s.core ∧
      (isa.Reaches inside a s ↔
        (∃ k < n, a = s.pc + BitVec.ofNat 32 (4 * k)) ∨ isa.Reaches inside a ⟨c, s.mem, pc⟩) := by
  induction n generalizing s with
  | zero =>
    obtain rfl : pc = s.pc := hpc.trans (BitVec.add_zero _)
    exact ⟨s.core, rfl, rfl, by simp⟩
  | succ n ih =>
    have hnext (k : ℕ) : s.pc + 4 + BitVec.ofNat 32 (4 * k) =
        s.pc + BitVec.ofNat 32 (4 * (k + 1)) := by
      rw [Nat.mul_succ, BitVec.ofNat_add, BitVec.add_comm (BitVec.ofNat 32 (4 * k)),
        ← BitVec.add_assoc]
      rfl
    have hhere : s.pc + BitVec.ofNat 32 (4 * 0) = s.pc := BitVec.add_zero _
    have hfirst := hinert 0 n.succ_pos
    rw [hhere] at hfirst
    obtain ⟨c₁, hstep, hflags₁⟩ := step_of_inert hfirst
    obtain ⟨c, hafter, hflags, hiff⟩ := ih (s := { s.next with core := c₁ })
      (fun k hk => by
        rw [Point.next, hnext, hflags₁]
        exact hinert (k + 1) (by omega))
      (fun k hk => by
        rw [Point.next, hnext]
        exact hin (k + 1) (by omega))
      (by rw [Point.next, hnext, hpc])
    have hin₀ := hin 0 n.succ_pos
    rw [hhere] at hin₀
    refine ⟨c, ?_, hflags.trans hflags₁, ?_⟩
    · rw [after, hstep]
      exact hafter
    · rw [reaches_iff_of_step hin₀ hstep, hiff, ← or_assoc]
      refine or_congr_left ?_
      constructor
      · rintro (rfl | ⟨k, hk, rfl⟩)
        · exact ⟨0, n.succ_pos, hhere.symm⟩
        · exact ⟨k + 1, by omega, hnext k⟩
      · rintro ⟨_ | k, hk, rfl⟩
        · exact .inl hhere.symm
        · exact .inr ⟨k, by omega, (hnext k).symm⟩

end Isa

end Arm
