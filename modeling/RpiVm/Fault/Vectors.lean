import RpiVm.Lib.Copy
import RpiVm.Lib.Fragment
import RpiVm.Lib.Panic

/-!
# Exception vectors

`interrupts_init` copies a table to address zero: seven loads of the program counter, the code
for fast interrupts, and the addresses that are loaded. `int_set_handler` stores the address of a
handler over one of the loads, where it is executed as an instruction.
-/

namespace RpiVm

open CLib Arm

/-! ## The table -/

/-- `ldr pc, label` in the word with number `i`, for a label at the word with number `j`. -/
def ldrLabel (i j : ℕ) : BitVec 32 := ldrPc (BitVec.ofNat 12 (4 * j - (4 * i + 8)))

/-- The offset of `bl label` at an address. -/
def blOffset (a label : BitVec 32) : BitVec 24 := (label - (a + 8)).extractLsb' 2 24

/-- What the linker decides. -/
structure Labels where
  /-- `_interrupt_table`. -/
  interruptTable : BitVec 32
  /-- `reset_asm`. -/
  resetAsm : BitVec 32
  /-- `undefined_instruction_asm`. -/
  undefinedInstructionAsm : BitVec 32
  /-- `software_interrupt_asm`. -/
  softwareInterruptAsm : BitVec 32
  /-- `prefetch_abort_asm`. -/
  prefetchAbortAsm : BitVec 32
  /-- `data_abort_asm`. -/
  dataAbortAsm : BitVec 32
  /-- `interrupt_asm`. -/
  interruptAsm : BitVec 32
  /-- `fast_interrupt_vector`. -/
  fastInterruptVector : BitVec 32
  /-- The table does not wrap around. -/
  fits : interruptTable.toNat + 80 ≤ 2 ^ 32
  /-- The program lies behind the vectors. -/
  behind : ∀ a ∈ [interruptTable, resetAsm, undefinedInstructionAsm, softwareInterruptAsm,
    prefetchAbortAsm, dataAbortAsm, interruptAsm, fastInterruptVector], 80 ≤ a.toNat
  /-- The code that the table leads to is aligned. -/
  aligned : ∀ a ∈ [resetAsm, undefinedInstructionAsm, softwareInterruptAsm, prefetchAbortAsm,
    dataAbortAsm, interruptAsm], a % 4 = 0
  /-- The function for fast interrupts is not in the table. -/
  apart : fastInterruptVector.toNat < interruptTable.toNat ∨
    interruptTable.toNat + 80 ≤ fastInterruptVector.toNat
  /-- Where the table is assembled, its branch reaches this function. -/
  reach : blTarget (interruptTable + 44) (blOffset (interruptTable + 44) fastInterruptVector) =
    fastInterruptVector

/-- The words from `_interrupt_table` up to `_interrupt_table_end`. -/
def Labels.table (l : Labels) : List (BitVec 32) :=
  [ldrLabel 0 14, ldrLabel 1 15, ldrLabel 2 16, ldrLabel 3 17, ldrLabel 4 18, ldrLabel 5 14,
    ldrLabel 6 19,
    -- `fast_interrupt_asm`: sub lr, lr, #4; push {lr}; push {r0-r12}; mov r0, lr
    0xe24ee004, 0xe52de004, 0xe92d1fff, 0xe1a0000e,
    -- bl fast_interrupt_vector; pop {r0-r12}; ldm sp!, {pc}^
    bl (blOffset (l.interruptTable + 44) l.fastInterruptVector), 0xe8bd1fff, 0xe8fd8000,
    l.resetAsm, l.undefinedInstructionAsm, l.softwareInterruptAsm, l.prefetchAbortAsm,
    l.dataAbortAsm, l.interruptAsm]

/-- The default of an exception, apart from fast interrupts; number 5 is a gap. -/
def Labels.stub (l : Labels) (t : ℕ) : BitVec 32 :=
  match t with
  | 1 => l.undefinedInstructionAsm
  | 2 => l.softwareInterruptAsm
  | 3 => l.prefetchAbortAsm
  | 4 => l.dataAbortAsm
  | 6 => l.interruptAsm
  | _ => l.resetAsm

/-! ## The code -/

/-- What `interrupts-c.c` reads and writes. -/
structure Interrupts where
  /-- Memory. -/
  mem : Mem
  /-- `int_intialized_p`. -/
  intIntializedP : Bool
  /-- The stores of `PUT32`, latest first. -/
  puts : List (BitVec 32 × BitVec 32)
  /-- The status register. -/
  cpsr : BitVec 32

/-- `INTERRUPT_DISABLE_1`. -/
def interruptDisable1 : BitVec 32 := 0x2000b21c

/-- `INTERRUPT_DISABLE_2`. -/
def interruptDisable2 : BitVec 32 := 0x2000b220

/-- The types that `int_set_handler` accepts. -/
def AcceptedType (t : ℤ) : Prop := 0 ≤ t ∧ t < 7 ∧ t ≠ 5

instance (t : ℤ) : Decidable (AcceptedType t) := by unfold AcceptedType; infer_instance

/-- `int_set_handler`. -/
def intSetHandler (l : Labels) (s : Interrupts) (t : ℤ) (handler : BitVec 32) :
    Except Panic Interrupts := do
  demand (AcceptedType t) "t >= RESET_INT && t < FIQ_INT && t != INVALID" "invalid type"
  let s := { s with mem := s.mem.store32 (l.interruptTable + 4 * BitVec.ofInt 32 t) handler }
  demand (!s.intIntializedP) "!int_intialized_p" "must be called before copying vectors"
  pure s

/-- `install_handlers`. -/
def installHandlers (l : Labels) (s : Interrupts) : Interrupts :=
  { s with mem := s.mem.copyWords 0 l.interruptTable l.table.length }

/-- `interrupts_init`. -/
def interruptsInit (l : Labels) (s : Interrupts) : Interrupts :=
  let s := { s with puts := (interruptDisable2, 0xffffffff) ::
    (interruptDisable1, 0xffffffff) :: s.puts }
  -- `system_disable_interrupts`; the barrier behind it changes nothing here
  let s := { s with cpsr := s.cpsr ||| 1#32 <<< 7 }
  { installHandlers l s with intIntializedP := true }

/-- Some calls of `int_set_handler`, and `interrupts_init`. -/
def setAndInit (l : Labels) (s : Interrupts) (calls : List (ℤ × BitVec 32)) :
    Except Panic Interrupts := do
  let s ← calls.foldlM (fun s call => intSetHandler l s call.1 call.2) s
  pure (interruptsInit l s)

/-- The last handler set for a type. -/
def lastHandler (calls : List (ℤ × BitVec 32)) (t : ℤ) : Option (BitVec 32) :=
  calls.foldl (fun r call => if call.1 = t then some call.2 else r) none

/-- Before `interrupts_init` the table is as it was assembled. -/
structure Interrupts.Fresh (l : Labels) (s : Interrupts) : Prop where
  /-- `interrupts_init` was not called. -/
  not_initialized : s.intIntializedP = false
  /-- The words of the table. -/
  word : ∀ i < 20, s.mem.load32 (l.interruptTable + BitVec.ofNat 32 (4 * i)) = l.table.getD i 0

/-! ## What should happen -/

/-- Where an exception is taken. -/
def vector (t : ℕ) : BitVec 32 := BitVec.ofNat 32 (4 * t)

/-- The region of the vectors. -/
def vectors : Region := ⟨0, 80⟩

/-- An address of the vectors. -/
def InVectors (a : BitVec 32) : Prop := a.toNat < 80

/-- An exception is taken. The registers may hold anything, and so may memory, but for the
vectors. -/
structure Taken {Core : Type} (m : Mem) (t : ℕ) (s : Point Core) : Prop where
  /-- Execution is at the vector. -/
  pc : s.pc = vector t
  /-- The vectors are those of a memory. -/
  mem : s.mem.AgreeOn m vectors

/-- The handlers that were set run, and otherwise the defaults. What counts is where the words of
the vectors lead, in as many steps as it takes. -/
structure HandlersRun (isa : Isa) (l : Labels) (calls : List (ℤ × BitVec 32)) (m : Mem) : Prop where
  /-- An exception leads to the last handler set for it. -/
  override : ∀ (t : ℕ) (h : BitVec 32), t < 7 → lastHandler calls t = some h →
    ∀ s, Taken m t s → isa.Reaches InVectors h s
  /-- Without a handler it leads to its default. -/
  default : ∀ t : ℕ, t < 7 → lastHandler calls t = none →
    ∀ s, Taken m t s → isa.Reaches InVectors (l.stub t) s
  /-- The default of fast interrupts is the code at their vector. -/
  fast : ∀ s : Point isa.Core, Taken m 7 s →
    ∀ i < 7, s.mem.load32 (s.pc + BitVec.ofNat 32 (4 * i)) = l.table.getD (7 + i) 0

/-! ## Setting handlers -/

variable {l : Labels} {m : Mem} {calls : List (ℤ × BitVec 32)}

/-- The words of the table in memory. -/
def Labels.Holds (l : Labels) (m : Mem) (f : ℕ → BitVec 32) : Prop :=
  ∀ i < 20, m.load32 (l.interruptTable + BitVec.ofNat 32 (4 * i)) = f i

/-- A word of the table after some calls. -/
def Labels.entry (l : Labels) (calls : List (ℤ × BitVec 32)) (i : ℕ) : BitVec 32 :=
  (lastHandler calls i).getD (l.table.getD i 0)

/-- One more call. -/
theorem lastHandler_concat (calls : List (ℤ × BitVec 32)) (call : ℤ × BitVec 32) (t : ℤ) :
    lastHandler (calls ++ [call]) t = if call.1 = t then some call.2 else lastHandler calls t := by
  rw [lastHandler, List.foldl_append]
  rfl

/-- Only the loads are overridden. -/
theorem lastHandler_eq_none (hcalls : ∀ call ∈ calls, AcceptedType call.1) {i : ℕ} (hi : 7 ≤ i) :
    lastHandler calls i = none := by
  induction calls using List.reverseRecOn with
  | nil => rfl
  | append_singleton calls call ih =>
    have hcall : AcceptedType call.1 := hcalls call (by simp)
    have hne : call.1 ≠ (i : ℤ) := by
      have hlt := hcall.2.1
      omega
    rw [lastHandler_concat, if_neg hne]
    exact ih fun call' hmem => hcalls call' (by simp [hmem])

/-- A store into the table. -/
theorem Labels.Holds.store {f : ℕ → BitVec 32} (h : l.Holds m f) {k : ℕ} (hk : k < 20)
    (v : BitVec 32) :
    l.Holds (m.store32 (l.interruptTable + BitVec.ofNat 32 (4 * k)) v) (Function.update f k v) := by
  intro i hi
  have hfits := l.fits
  have haddr := Mem.toNat_add_ofNat_mul (n := 20) hi hfits
  have hstored := Mem.toNat_add_ofNat_mul (n := 20) hk hfits
  by_cases hik : i = k
  · subst hik
    rw [Mem.load32_store32_same, Function.update_self]
  · have hapart : (Mem.wordAt (l.interruptTable + BitVec.ofNat 32 (4 * k))).Disjoint
        (Mem.wordAt (l.interruptTable + BitVec.ofNat 32 (4 * i))) := by
      simp only [Region.Disjoint, Mem.wordAt]
      omega
    rw [Mem.load32_store32_of_disjoint (by omega) (by omega) hapart, Function.update_of_ne hik]
    exact h i hi

/-- A call that is accepted stores the handler over a word of the table. -/
theorem intSetHandler_eq {s : Interrupts} (hinit : s.intIntializedP = false) {k : ℕ}
    (hk : AcceptedType k) (handler : BitVec 32) :
    intSetHandler l s k handler = .ok { s with
      mem := s.mem.store32 (l.interruptTable + BitVec.ofNat 32 (4 * k)) handler } := by
  have haddr : (4 : BitVec 32) * BitVec.ofInt 32 k = BitVec.ofNat 32 (4 * k) := by
    rw [BitVec.ofInt_natCast, Mem.four_mul_ofNat]
  unfold intSetHandler
  refine bind_eq_ok.mpr ⟨(), demand_eq_ok.mpr (decide_eq_true hk), ?_⟩
  simp only [hinit, haddr]
  rfl

/-- After some calls the table holds, where it was overridden, the last handler. -/
theorem intSetHandler_holds {s : Interrupts} (hs : s.Fresh l)
    (hcalls : ∀ call ∈ calls, AcceptedType call.1) :
    ∃ s', calls.foldlM (fun s call => intSetHandler l s call.1 call.2) s = .ok s' ∧
      s'.intIntializedP = false ∧ l.Holds s'.mem (l.entry calls) := by
  induction calls using List.reverseRecOn with
  | nil => exact ⟨s, rfl, hs.not_initialized, hs.word⟩
  | append_singleton calls call ih =>
    obtain ⟨s₁, hok, hinit, hholds⟩ := ih fun call' hmem => hcalls call' (by simp [hmem])
    have hcall : AcceptedType call.1 := hcalls call (by simp)
    obtain ⟨t, handler⟩ := call
    obtain ⟨k, rfl⟩ := Int.eq_ofNat_of_zero_le hcall.1
    have hlt : k < 20 := by
      have := hcall.2.1
      simp only at this
      omega
    have hset := intSetHandler_eq (l := l) hinit hcall handler
    refine ⟨{ s₁ with
      mem := s₁.mem.store32 (l.interruptTable + BitVec.ofNat 32 (4 * k)) handler }, ?_, hinit, ?_⟩
    · rw [List.foldlM_append, ok_bind hok]
      exact bind_eq_ok.mpr ⟨_, hset, rfl⟩
    · have hstored := hholds.store hlt handler
      have hentry : Function.update (l.entry calls) k handler =
          l.entry (calls ++ [((k : ℤ), handler)]) := by
        funext i
        rw [Labels.entry, lastHandler_concat]
        by_cases hik : i = k
        · subst hik
          rw [Function.update_self, if_pos rfl]
          rfl
        · rw [Function.update_of_ne hik, if_neg (by simp only; omega)]
          rfl
      rwa [hentry] at hstored

/-- `interrupts_init` copies the table to the vectors. -/
theorem load32_interruptsInit {s : Interrupts} {f : ℕ → BitVec 32} (h : l.Holds s.mem f) {i : ℕ}
    (hi : i < 20) : (interruptsInit l s).mem.load32 (vector i) = f i := by
  have hcopy : (s.mem.copyWords 0 l.interruptTable 20).load32 (0 + BitVec.ofNat 32 (4 * i)) =
      s.mem.load32 (l.interruptTable + BitVec.ofNat 32 (4 * i)) :=
    Mem.load32_copyWords hi (by decide) l.fits (.inl (l.behind _ (by simp)))
  rw [zero_add] at hcopy
  exact hcopy.trans (h i hi)

/-! ## Taking an exception -/

/-- The word with the address that the load for an exception loads. -/
def literalIndex (t : ℕ) : ℕ := if t < 5 then 14 + t else if t = 5 then 14 else 19

/-- Each load at a vector loads the address of the default. -/
theorem Labels.table_load (l : Labels) {t : ℕ} (ht : t < 7) :
    ∃ offset : BitVec 12, l.table.getD t 0 = ldrPc offset ∧
      vector t + 8 + offset.setWidth 32 = vector (literalIndex t) ∧
      l.table.getD (literalIndex t) 0 = l.stub t := by
  interval_cases t <;> exact ⟨_, rfl, rfl, rfl⟩

/-- The code of a default is aligned. -/
theorem Labels.stub_aligned (l : Labels) (t : ℕ) : l.stub t % 4 = 0 := by
  unfold stub
  split <;> exact l.aligned _ (by simp)

/-- The code of a default is behind the vectors. -/
theorem Labels.not_inVectors_stub (l : Labels) (t : ℕ) : ¬ InVectors (l.stub t) := by
  have hbehind : 80 ≤ (l.stub t).toNat := by
    unfold stub
    split <;> exact l.behind _ (by simp)
  exact not_lt.mpr hbehind

/-- Vectors one after the other. -/
theorem vector_add (t k : ℕ) : vector t + BitVec.ofNat 32 (4 * k) = vector (t + k) := by
  rw [vector, vector, ← BitVec.ofNat_add, Nat.mul_add]

/-- The vectors are the words of their region. -/
theorem toNat_vector {i : ℕ} (hi : i < 20) : (vector i).toNat = 4 * i := by
  rw [vector, BitVec.toNat_ofNat, Nat.mod_eq_of_lt (by omega)]

/-- A vector is one. -/
theorem inVectors_vector {i : ℕ} (hi : i < 20) : InVectors (vector i) := by
  rw [InVectors, toNat_vector hi]
  omega

/-- The vectors hold the words of the table after some calls. -/
def Labels.Installed (l : Labels) (calls : List (ℤ × BitVec 32)) (m : Mem) : Prop :=
  ∀ i < 20, m.load32 (vector i) = l.entry calls i

/-- So does every memory that agrees on the vectors. -/
theorem Labels.Installed.congr {m' : Mem} (h : l.Installed calls m) (hm : m'.AgreeOn m vectors) :
    l.Installed calls m' := by
  intro i hi
  have hvector := toNat_vector hi
  rw [← h i hi]
  refine Mem.load32_congr (by omega) (hm.mono ?_)
  simp only [Region.Within, Mem.wordAt, vectors]
  omega

/-- Without a handler the word at a vector leads to the default. -/
theorem Labels.Installed.step_default {isa : Isa} (h : l.Installed calls m)
    (hcalls : ∀ call ∈ calls, AcceptedType call.1) {t : ℕ} (ht : t < 7)
    (hnone : lastHandler calls t = none) (c : isa.Core) :
    isa.step ⟨c, m, vector t⟩ = some ⟨c, m, l.stub t⟩ := by
  obtain ⟨offset, hword, haddr, hliteral⟩ := l.table_load ht
  have hindex : 7 ≤ literalIndex t ∧ literalIndex t < 20 := by
    unfold literalIndex
    split_ifs <;> omega
  have hload : m.load32 (vector t) = ldrPc offset := by
    rw [h t (by omega), entry, hnone]
    exact hword
  have hstub : m.load32 (vector t + 8 + offset.setWidth 32) = l.stub t := by
    rw [haddr, h _ hindex.2, entry, lastHandler_eq_none hcalls hindex.1]
    exact hliteral
  have haligned : (vector t + 8 + offset.setWidth 32) % 4 = 0 := by
    have hvector : ∀ k < 20, vector k % 4 = 0 := by decide
    rw [haddr]
    exact hvector _ hindex.2
  have hjump := isa.exec_ldrPc ⟨c, m, vector t⟩ offset haligned
    (by rw [hstub]; exact l.stub_aligned t)
  rw [Isa.step, hload, hjump, hstub]

/-- Without a handler control comes to the default, and but for the vector to nothing else. -/
theorem Labels.Installed.reaches_default_iff {isa : Isa} (h : l.Installed calls m)
    (hcalls : ∀ call ∈ calls, AcceptedType call.1) {t : ℕ} (ht : t < 7)
    (hnone : lastHandler calls t = none) (c : isa.Core) {a : BitVec 32} :
    isa.Reaches InVectors a ⟨c, m, vector t⟩ ↔ a = vector t ∨ a = l.stub t := by
  rw [Isa.reaches_iff_of_step (inVectors_vector (by omega)) (h.step_default hcalls ht hnone c),
    Isa.reaches_iff_of_outside (l.not_inVectors_stub t)]
  exact or_congr eq_comm eq_comm

/-! ## Handlers -/

/-- The first word from a vector on that may send execution elsewhere: the words before are
instructions whose condition fails or data processing. -/
structure Labels.Stops (l : Labels) (calls : List (ℤ × BitVec 32)) (f : Flags) (t u : ℕ) :
    Prop where
  /-- It is not before the vector. -/
  le : t ≤ u
  /-- The words before. -/
  inert : ∀ k, t ≤ k → k < u → Isa.Inert f (l.entry calls k)
  /-- The word. -/
  active : ¬ Isa.Inert f (l.entry calls u)

/-- The words of the vectors lead from the vector of an exception to a handler. With the first word
that may send execution elsewhere, the handler is at one of the vectors on the way; or the word is
that of a default, and this is the handler; or the word is itself the address of a handler, or
belongs to the code for fast interrupts, and as an instruction it goes on to the handler. -/
def AddressLeads (isa : Isa) (l : Labels) (calls : List (ℤ × BitVec 32)) (m : Mem) (t : ℕ)
    (h : BitVec 32) : Prop :=
  ∀ s, Taken m t s → ∀ u, l.Stops calls (isa.flags s.core) t u →
    (∃ k, t ≤ k ∧ k ≤ u ∧ h = vector k) ∨
      if u < 7 ∧ lastHandler calls u = none then h = l.stub u
      else ∃ s', isa.after (u - t) s = some s' ∧ isa.Reaches InVectors h s'

/-- The push in the code for fast interrupts. -/
theorem Labels.active_push (l : Labels) (hcalls : ∀ call ∈ calls, AcceptedType call.1) (f : Flags) :
    ¬ Isa.Inert f (l.entry calls 8) := by
  have hword : l.entry calls 8 = 0xe52de004 := by
    rw [entry, lastHandler_eq_none hcalls (by decide)]
    rfl
  rw [hword]
  rintro (hfail | hdata)
  · exact Bool.noConfusion hfail
  · exact absurd hdata (by decide)

/-- The code for fast interrupts goes on elsewhere at the latest. -/
theorem Labels.Stops.le_eight {f : Flags} {t u : ℕ} (h : l.Stops calls f t u) (ht : t < 7)
    (hcalls : ∀ call ∈ calls, AcceptedType call.1) : u ≤ 8 := by
  by_contra hlt
  exact l.active_push hcalls f (h.inert 8 (by omega) (by omega))

/-- There is such a word. -/
theorem Labels.exists_stops (l : Labels) (hcalls : ∀ call ∈ calls, AcceptedType call.1) (f : Flags)
    {t : ℕ} (ht : t < 7) : ∃ u, l.Stops calls f t u := by
  have hex : ∃ u, t ≤ u ∧ ¬ Isa.Inert f (l.entry calls u) :=
    ⟨8, by omega, l.active_push hcalls f⟩
  classical
  refine ⟨Nat.find hex, (Nat.find_spec hex).1, fun k hk hlt => ?_, (Nat.find_spec hex).2⟩
  by_contra hactive
  exact Nat.find_min hex hlt ⟨hk, hactive⟩

/-- Where the words of the vectors lead from an exception. -/
theorem Labels.Installed.reaches_iff {isa : Isa} (h : l.Installed calls m)
    (hcalls : ∀ call ∈ calls, AcceptedType call.1) {t u : ℕ} (ht : t < 7) {s : Point isa.Core}
    (hs : Taken m t s) (hu : l.Stops calls (isa.flags s.core) t u) {a : BitVec 32} :
    isa.Reaches InVectors a s ↔
      (∃ k, t ≤ k ∧ k ≤ u ∧ a = vector k) ∨
        if u < 7 ∧ lastHandler calls u = none then a = l.stub u
        else ∃ s', isa.after (u - t) s = some s' ∧ isa.Reaches InVectors a s' := by
  have hle := hu.le
  have hle8 := hu.le_eight ht hcalls
  have hwords := h.congr hs.mem
  have hat (k : ℕ) : s.pc + BitVec.ofNat 32 (4 * k) = vector (t + k) := by
    rw [hs.pc, vector_add]
  have hpc : vector u = s.pc + BitVec.ofNat 32 (4 * (u - t)) := by
    rw [hat, Nat.add_sub_cancel' hle]
  obtain ⟨c, hafter, -, hiff⟩ := Isa.reaches_iff_of_inert (a := a)
    (fun k hk => by
      rw [hat, hwords (t + k) (by omega)]
      exact hu.inert (t + k) (by omega) (by omega))
    (fun k hk => by
      rw [hat]
      exact inVectors_vector (by omega)) hpc
  have hbefore : (∃ k < u - t, a = s.pc + BitVec.ofNat 32 (4 * k)) ↔
      ∃ k, t ≤ k ∧ k < u ∧ a = vector k := by
    constructor
    · rintro ⟨k, hk, rfl⟩
      exact ⟨t + k, by omega, by omega, hat k⟩
    · rintro ⟨k, htk, hk, rfl⟩
      exact ⟨k - t, by omega, by rw [hat, Nat.add_sub_cancel' htk]⟩
  have hlast : (∃ k, t ≤ k ∧ k ≤ u ∧ a = vector k) ↔
      (∃ k, t ≤ k ∧ k < u ∧ a = vector k) ∨ a = vector u := by
    constructor
    · rintro ⟨k, htk, hk, rfl⟩
      obtain hlt | rfl := Nat.lt_or_eq_of_le hk
      · exact .inl ⟨k, htk, hlt, rfl⟩
      · exact .inr rfl
    · rintro (⟨k, htk, hk, rfl⟩ | rfl)
      · exact ⟨k, htk, hk.le, rfl⟩
      · exact ⟨u, hle, le_rfl, rfl⟩
  rw [hiff, hbefore, hlast, or_assoc]
  refine or_congr_right ?_
  split_ifs with hdefault
  · exact hwords.reaches_default_iff hcalls hdefault.1 hdefault.2 c
  · constructor
    · exact fun hreach => .inr ⟨_, hafter, hreach⟩
    · rintro (rfl | ⟨s', hs', hreach⟩)
      · exact .here _ rfl
      · obtain rfl : ⟨c, s.mem, vector u⟩ = s' := Option.some.inj (hafter.symm.trans hs')
        exact hreach

/-- Where the address of a handler is data processing, it sends execution on to the next vector. -/
theorem Labels.Stops.eq_succ {f : Flags} {t u : ℕ} (hu : l.Stops calls f t u) (ht : t < 6)
    (hdata : IsData (l.entry calls t)) (hnone : lastHandler calls (t + 1 : ℕ) = none) :
    u = t + 1 := by
  have hload : ¬ Isa.Inert f (l.entry calls (t + 1)) := by
    obtain ⟨offset, hword, -, -⟩ := l.table_load (show t + 1 < 7 by omega)
    rw [entry, hnone, Option.getD_none, hword]
    exact Isa.not_inert_ldrPc f offset
  have hle := hu.le
  by_contra hne
  obtain rfl | hlt : u = t ∨ t + 1 < u := by omega
  · exact hu.active (.inr hdata)
  · exact hload (hu.inert (t + 1) (by omega) hlt)

/-- Such a handler runs only if it is the default of the next exception or one of the two
vectors. -/
theorem Labels.Installed.reaches_iff_of_isData {isa : Isa} (h : l.Installed calls m)
    (hcalls : ∀ call ∈ calls, AcceptedType call.1) {t : ℕ} (ht : t < 6) {s : Point isa.Core}
    (hs : Taken m t s) (hdata : IsData (l.entry calls t))
    (hnone : lastHandler calls (t + 1 : ℕ) = none) {a : BitVec 32} :
    isa.Reaches InVectors a s ↔ a = vector t ∨ a = vector (t + 1) ∨ a = l.stub (t + 1) := by
  obtain ⟨u, hu⟩ := l.exists_stops hcalls (isa.flags s.core) (show t < 7 by omega)
  obtain rfl := hu.eq_succ ht hdata hnone
  rw [h.reaches_iff hcalls (by omega) hs hu, if_pos ⟨by omega, hnone⟩, ← or_assoc]
  refine or_congr_left ?_
  constructor
  · rintro ⟨k, htk, hk, rfl⟩
    obtain rfl | rfl : k = t ∨ k = t + 1 := by omega
    · exact .inl rfl
    · exact .inr rfl
  · rintro (rfl | rfl)
    · exact ⟨t, le_rfl, by omega, rfl⟩
    · exact ⟨t + 1, by omega, le_rfl, rfl⟩

/-! ## Fast interrupts -/

/-- What is pushed by a stack behind the vectors leaves them. -/
theorem Taken.mem_of_push {Core : Type} {t n : ℕ} {s : Point Core} {m' : Mem} {sp : BitVec 32}
    (hs : Taken m t s) (hn : n ≤ 56) (hsp : 80 ≤ sp.toNat) (hfit : sp.toNat + n ≤ 2 ^ 32)
    (hm : ∀ x, n ≤ (x - sp).toNat → m' x = s.mem x) : m'.AgreeOn m vectors := by
  intro x hx
  have hlt : x.toNat < 80 := by
    simp only [Region.Contains, vectors] at hx
    omega
  have hapart : n ≤ (x - sp).toNat := by bv_omega
  rw [hm x hapart]
  exact hs.mem x hx

/-- Behind the table, the branch for fast interrupts no longer reaches its function: what the copy
branches to is further down, by the address of the table. -/
theorem Labels.blTarget_copy (l : Labels) :
    blTarget 44 (blOffset (l.interruptTable + 44) l.fastInterruptVector) =
      l.fastInterruptVector - l.interruptTable := by
  have hreach := l.reach
  unfold blTarget at *
  bv_omega

/-- That is not in the vectors. -/
theorem Labels.not_inVectors_copy (l : Labels) :
    ¬ InVectors (l.fastInterruptVector - l.interruptTable) := by
  have hapart := l.apart
  have hfits := l.fits
  unfold InVectors
  bv_omega

/-- A fast interrupt, with a stack behind the vectors, ends in a branch. -/
theorem Labels.Installed.fast_reaches {isa : Isa} (h : l.Installed calls m)
    (hcalls : ∀ call ∈ calls, AcceptedType call.1) {s : Point isa.Core} (hs : Taken m 7 s)
    (hsp : 136 ≤ (isa.sp s.core).toNat) :
    isa.Reaches InVectors (l.fastInterruptVector - l.interruptTable) s := by
  have hword {i : ℕ} (hi : 7 ≤ i) (hi20 : i < 20) {m' : Mem} (hm' : m'.AgreeOn m vectors) :
      m'.load32 (vector i) = l.table.getD i 0 := by
    rw [(h.congr hm') i hi20, entry, lastHandler_eq_none hcalls hi]
    rfl
  obtain ⟨c, m₀, pc⟩ := s
  obtain rfl : pc = vector 7 := hs.pc
  -- sub lr, lr, #4
  obtain ⟨c₁, hexec₁, -, hsp₁⟩ := isa.exec_data ⟨c, m₀, vector 7⟩ 0xe24ee004 (by decide)
  have hstep₁ : isa.step ⟨c, m₀, vector 7⟩ = some ⟨c₁, m₀, vector 8⟩ := by
    rw [Isa.step, hword (by decide) (by decide) hs.mem]
    exact hexec₁
  have hsp₁' : isa.sp c₁ = isa.sp c := hsp₁ (by decide)
  -- push {lr}
  obtain ⟨c₂, m₂, hexec₂, hsp₂, hm₂⟩ :=
    isa.exec_pushReg ⟨c₁, m₀, vector 8⟩ 14 (by decide) (by decide)
  have hstep₂ : isa.step ⟨c₁, m₀, vector 8⟩ = some ⟨c₂, m₂, vector 9⟩ := by
    rw [Isa.step, hword (by decide) (by decide) hs.mem]
    exact hexec₂
  have hmem₂ : m₂.AgreeOn m vectors := by
    simp only [hsp₁'] at hsp₂
    exact hs.mem_of_push (by decide) (by bv_omega) (by bv_omega) hm₂
  -- push {r0-r12}
  obtain ⟨c₃, m₃, hexec₃, hsp₃, hm₃⟩ := isa.exec_pushRegs ⟨c₂, m₂, vector 9⟩ 0x1fff (by decide)
    (by decide)
  have hstep₃ : isa.step ⟨c₂, m₂, vector 9⟩ = some ⟨c₃, m₃, vector 10⟩ := by
    rw [Isa.step, hword (by decide) (by decide) hmem₂]
    exact hexec₃
  have hmem₃ : m₃.AgreeOn m vectors := by
    have hlen : bytes (regList 0x1fff) = 52 := by decide
    have hs₂ : Taken m 9 (⟨c₂, m₂, vector 9⟩ : Point isa.Core) := ⟨rfl, hmem₂⟩
    simp only [hsp₁', hlen] at hsp₂ hsp₃ hm₃
    exact hs₂.mem_of_push (by decide) (by bv_omega) (by bv_omega) hm₃
  -- mov r0, lr
  obtain ⟨c₄, hexec₄, -, -⟩ := isa.exec_data ⟨c₃, m₃, vector 10⟩ 0xe1a0000e (by decide)
  have hstep₄ : isa.step ⟨c₃, m₃, vector 10⟩ = some ⟨c₄, m₃, vector 11⟩ := by
    rw [Isa.step, hword (by decide) (by decide) hmem₃]
    exact hexec₄
  -- bl
  obtain ⟨c₅, hexec₅⟩ := isa.exec_bl ⟨c₄, m₃, vector 11⟩
    (blOffset (l.interruptTable + 44) l.fastInterruptVector)
  have hstep₅ : isa.step ⟨c₄, m₃, vector 11⟩ =
      some ⟨c₅, m₃, l.fastInterruptVector - l.interruptTable⟩ := by
    rw [Isa.step, hword (by decide) (by decide) hmem₃, ← l.blTarget_copy]
    exact hexec₅
  have hin {i : ℕ} (hi : i < 20) := inVectors_vector hi
  exact .step _ _ (hin (by decide)) hstep₁ <| .step _ _ (hin (by decide)) hstep₂ <|
    .step _ _ (hin (by decide)) hstep₃ <| .step _ _ (hin (by decide)) hstep₄ <|
    .step _ _ (hin (by decide)) hstep₅ <| .here _ rfl

/-- The function for fast interrupts itself is not reached. -/
theorem Labels.Installed.fast_not_reaches {isa : Isa} (h : l.Installed calls m)
    (hcalls : ∀ call ∈ calls, AcceptedType call.1) {s : Point isa.Core} (hs : Taken m 7 s)
    (hsp : 136 ≤ (isa.sp s.core).toNat) :
    ¬ isa.Reaches InVectors l.fastInterruptVector s := by
  intro hreach
  have hout : ¬ InVectors l.fastInterruptVector := not_lt.mpr (l.behind _ (by simp))
  have heq := (h.fast_reaches hcalls hs hsp).eq_of_outside l.not_inVectors_copy hreach hout
  have hbehind : 80 ≤ l.interruptTable.toNat := l.behind _ (by simp)
  bv_omega

/-! ## All exceptions -/

/-- For every instruction set, every layout and every sequence of calls that are accepted: the
handlers that were set run, and otherwise the defaults, exactly if for each last handler the words
of the vectors, with the addresses of handlers taken as instructions, lead to it. A fast interrupt
always ends in a branch that misses its function. -/
theorem handlersRun_iff (isa : Isa) {s : Interrupts} (hs : s.Fresh l)
    (hcalls : ∀ call ∈ calls, AcceptedType call.1) :
    ∃ s', setAndInit l s calls = .ok s' ∧
      (HandlersRun isa l calls s'.mem ↔
        ∀ (t : ℕ) (h : BitVec 32), lastHandler calls t = some h →
          AddressLeads isa l calls s'.mem t h) ∧
      ∀ p : Point isa.Core, Taken s'.mem 7 p → 136 ≤ (isa.sp p.core).toNat →
        isa.Reaches InVectors (l.fastInterruptVector - l.interruptTable) p ∧
          ¬ isa.Reaches InVectors l.fastInterruptVector p := by
  obtain ⟨s₁, hok, -, hholds⟩ := intSetHandler_holds hs hcalls
  have hinstalled : l.Installed calls (interruptsInit l s₁).mem :=
    fun i hi => load32_interruptsInit hholds hi
  refine ⟨interruptsInit l s₁, ok_bind hok _, ⟨fun hrun t h hlast => ?_, fun hleads => ?_⟩, ?_⟩
  · have ht : t < 7 := by
      by_contra hge
      rw [lastHandler_eq_none hcalls (not_lt.mp hge)] at hlast
      cases hlast
    intro p hp u hu
    exact (hinstalled.reaches_iff hcalls ht hp hu).mp (hrun.override t h ht hlast p hp)
  · refine ⟨fun t h ht hlast p hp => ?_, fun t ht hnone p hp => ?_, fun p hp i hi => ?_⟩
    · obtain ⟨u, hu⟩ := l.exists_stops hcalls (isa.flags p.core) ht
      exact (hinstalled.reaches_iff hcalls ht hp hu).mpr (hleads t h hlast p hp u hu)
    · obtain ⟨c, m, pc⟩ := p
      obtain rfl : pc = vector t := hp.pc
      exact ((hinstalled.congr hp.mem).reaches_default_iff hcalls ht hnone c).mpr (.inr rfl)
    · rw [hp.pc, vector_add, hinstalled.congr hp.mem (7 + i) (by omega), Labels.entry,
        lastHandler_eq_none hcalls (Nat.le_add_right 7 i)]
      rfl
  · exact fun p hp hsp =>
      ⟨hinstalled.fast_reaches hcalls hp hsp, hinstalled.fast_not_reaches hcalls hp hsp⟩

/-- A program at its usual place. -/
def sampleLabels : Labels where
  interruptTable := 0x8100
  resetAsm := 0x8200
  undefinedInstructionAsm := 0x8210
  softwareInterruptAsm := 0x8220
  prefetchAbortAsm := 0x8230
  dataAbortAsm := 0x8240
  interruptAsm := 0x8250
  fastInterruptVector := 0x9000
  fits := by decide
  behind := by simp
  aligned := by simp
  apart := by decide
  reach := by decide

/-- Its memory. -/
def sampleInterrupts : Interrupts :=
  ⟨storeWords (fun _ => 0) 0x8100 sampleLabels.table, false, [], 0x13⟩

/-- The table of the program. -/
theorem sampleInterrupts_fresh : sampleInterrupts.Fresh sampleLabels := by
  refine ⟨rfl, fun i hi => ?_⟩
  have hlen : i < sampleLabels.table.length := hi
  have hload : sampleInterrupts.mem.load32 (0x8100 + BitVec.ofNat 32 (4 * i)) =
      sampleLabels.table[i] := load32_storeWords hlen (by decide)
  rw [List.getD_eq_getElem _ _ hlen]
  exact hload

/-- Two handlers for software interrupts, the last of them the default of the prefetch abort: its
address is data processing, and the handler runs. -/
theorem handlersRun_iff_next_default :
    ∃ s', setAndInit sampleLabels sampleInterrupts [(2, 0x9000), (2, 0x8230)] = .ok s' ∧
      HandlersRun fragment sampleLabels [(2, 0x9000), (2, 0x8230)] s'.mem := by
  have hcalls : ∀ call ∈ [((2 : ℤ), (0x9000 : BitVec 32)), (2, 0x8230)], AcceptedType call.1 := by
    decide
  obtain ⟨s', hok, hiff, -⟩ := handlersRun_iff fragment sampleInterrupts_fresh hcalls
  refine ⟨s', hok, hiff.mpr fun t h hlast p hp u hu => ?_⟩
  have hlast' : (if (2 : ℤ) = t then some 0x8230#32
      else if (2 : ℤ) = t then some 0x9000 else none) = some h := hlast
  obtain rfl : t = 2 := by
    by_contra hne
    have hne' : (2 : ℤ) ≠ t := by omega
    rw [if_neg hne', if_neg hne'] at hlast'
    cases hlast'
  obtain rfl : 0x8230 = h := Option.some.inj hlast'
  obtain rfl := hu.eq_succ (by decide) (by decide) rfl
  exact .inr rfl

/-- A handler for software interrupts at `0x9000` does not run: its address is executed, as
`andeq r9, r0, r0`, and the default of the prefetch abort comes next. -/
theorem handler_not_run :
    ∃ s', setAndInit sampleLabels sampleInterrupts [(2, 0x9000)] = .ok s' ∧
      (∀ p : Point fragment.Core, Taken s'.mem 2 p → fragment.Reaches InVectors 0x8230 p) ∧
      ¬ HandlersRun fragment sampleLabels [(2, 0x9000)] s'.mem := by
  have hcalls : ∀ call ∈ [((2 : ℤ), (0x9000 : BitVec 32))], AcceptedType call.1 := by decide
  obtain ⟨s₁, hok, -, hholds⟩ := intSetHandler_holds sampleInterrupts_fresh hcalls
  have hinstalled : sampleLabels.Installed [(2, 0x9000)] (interruptsInit sampleLabels s₁).mem :=
    fun i hi => load32_interruptsInit hholds hi
  have hreaches {p : Point fragment.Core} (hp : Taken (interruptsInit sampleLabels s₁).mem 2 p)
      (a : BitVec 32) : fragment.Reaches InVectors a p ↔ a = vector 2 ∨ a = vector 3 ∨ a = 0x8230 :=
    hinstalled.reaches_iff_of_isData hcalls (by decide) hp (by decide) rfl
  refine ⟨interruptsInit sampleLabels s₁, ok_bind hok _, fun p hp => ?_, fun hrun => ?_⟩
  · exact (hreaches hp _).mpr (.inr (.inr rfl))
  · have hp : Taken (interruptsInit sampleLabels s₁).mem 2
        (⟨⟨⟨false, false, false, false⟩, fun _ => 0⟩, (interruptsInit sampleLabels s₁).mem,
          vector 2⟩ : Point fragment.Core) :=
      ⟨rfl, Mem.AgreeOn.refl _ _⟩
    have hwrong := (hreaches hp _).mp (hrun.override 2 0x9000 (by decide) rfl _ hp)
    exact absurd hwrong (by decide)

end RpiVm
