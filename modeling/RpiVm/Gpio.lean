import RpiVm.Lib.BitField

/-!
# Function select of the GPIO pins

Each pin has a field of three bits in one of the function-select registers, ten pins to a
register. A call reads the register of its pin, replaces the field and writes the register
back; together the registers are a map from 54 pins to functions.
-/

namespace RpiVm

open CLib

/-! ## The code -/

/-- The device: its registers by address, and the writes made so far. -/
structure Gpio where
  /-- The word at a register's address. -/
  regs : BitVec 32 → BitVec 32
  /-- The writes: address and value. -/
  writes : List (BitVec 32 × BitVec 32)

/-- `GET32`. -/
def Gpio.get32 (g : Gpio) (addr : BitVec 32) : BitVec 32 := g.regs addr

/-- `PUT32`. -/
def Gpio.put32 (g : Gpio) (addr v : BitVec 32) : Gpio where
  regs := Function.update g.regs addr v
  writes := g.writes ++ [(addr, v)]

/-- `GPIO_BASE`. -/
def gpioBase : BitVec 32 := 0x20200000

/-- `GPIO_PIN_FIRST`. -/
def gpioPinFirst : BitVec 32 := 0

/-- `GPIO_PIN_LAST`. -/
def gpioPinLast : BitVec 32 := 53

/-- `GPIO_FUNC_INPUT`. -/
def gpioFuncInput : BitVec 32 := 0

/-- `GPIO_FUNC_OUTPUT`. -/
def gpioFuncOutput : BitVec 32 := 1

/-- `GPIO_FUNC_ALT3`. -/
def gpioFuncAlt3 : BitVec 32 := 7

/-- `GPIO_INVALID_REQUEST`. -/
def gpioInvalidRequest : ℤ := -1

/-- `gpio_pin_to_fsel_reg`. -/
def gpioPinToFselReg (pin : BitVec 32) : BitVec 32 := gpioBase + 0x04 * (pin / 10)

/-- `gpio_pin_to_fsel_offset`. -/
def gpioPinToFselOffset (pin : BitVec 32) : BitVec 32 := pin % 10 * 3

/-- `gpio_is_valid_pin`. -/
def gpioIsValidPin (pin : BitVec 32) : Bool := pin ≥ gpioPinFirst && pin ≤ gpioPinLast

/-- `gpio_is_valid_function`. -/
def gpioIsValidFunction (fn : BitVec 32) : Bool := fn ≥ gpioFuncInput && fn ≤ gpioFuncAlt3

/-- `gpio_set_function`. -/
def gpioSetFunction (pin function : BitVec 32) (g : Gpio) : ℤ × Gpio :=
  if !gpioIsValidPin pin then (gpioInvalidRequest, g)
  else if !gpioIsValidFunction function then (gpioInvalidRequest, g)
  else
    let fselReg := gpioPinToFselReg pin
    let offset := gpioPinToFselOffset pin
    let value := g.get32 fselReg
    let mask := ~~~(0b111#32 <<< offset)
    let value := value &&& mask
    let value := value ||| (function <<< offset)
    (0, g.put32 fselReg value)

/-- `gpio_get_function`. -/
def gpioGetFunction (pin : BitVec 32) (g : Gpio) : BitVec 32 :=
  if !gpioIsValidPin pin then BitVec.ofInt 32 gpioInvalidRequest
  else
    let fselReg := gpioPinToFselReg pin
    let offset := gpioPinToFselOffset pin
    let value := g.get32 fselReg
    let mask := 0b111#32 <<< offset
    let value := value &&& mask
    value >>> offset

/-- `gpio_set_input`. -/
def gpioSetInput (pin : BitVec 32) (g : Gpio) : ℤ × Gpio := gpioSetFunction pin gpioFuncInput g

/-- `gpio_set_output`. -/
def gpioSetOutput (pin : BitVec 32) (g : Gpio) : ℤ × Gpio := gpioSetFunction pin gpioFuncOutput g

/-! ## The map -/

/-- The register that holds a pin: ten pins to a register. -/
def fselRegister (pin : BitVec 32) : BitVec 32 :=
  BitVec.ofNat 32 (0x20200000 + 4 * (pin.toNat / 10))

/-- The bits of a pin in its register. -/
def fselField (pin : BitVec 32) : BitField 3 := ⟨3 * (pin.toNat % 10)⟩

/-- The function that the registers select for a pin. -/
def Gpio.selected (g : Gpio) (pin : BitVec 32) : BitVec 3 :=
  (fselField pin).get (g.regs (fselRegister pin))

/-! ## Calls -/

/-- The calls that select a function. -/
inductive GpioCall where
  /-- `gpio_set_function`. -/
  | setFunction (pin function : BitVec 32)
  /-- `gpio_set_input`. -/
  | setInput (pin : BitVec 32)
  /-- `gpio_set_output`. -/
  | setOutput (pin : BitVec 32)
  deriving DecidableEq

namespace GpioCall

/-- A call: what it returns and the device after it. -/
def run : GpioCall → Gpio → ℤ × Gpio
  | setFunction pin function => gpioSetFunction pin function
  | setInput pin => gpioSetInput pin
  | setOutput pin => gpioSetOutput pin

/-- The pin that a call names. -/
def pin : GpioCall → BitVec 32
  | setFunction pin _ | setInput pin | setOutput pin => pin

/-- The function that a call asks for. -/
def function : GpioCall → BitVec 32
  | setFunction _ function => function
  | setInput _ => 0
  | setOutput _ => 1

/-- There is such a pin and such a function. -/
def Accepted (call : GpioCall) : Prop := call.pin ≤ 53 ∧ call.function ≤ 7

instance (call : GpioCall) : Decidable call.Accepted := by unfold Accepted; infer_instance

/-- Bit `i` of a register belongs to the call's pin. -/
def Owns (call : GpioCall) (reg : BitVec 32) (i : ℕ) : Prop :=
  reg = fselRegister call.pin ∧
    (fselField call.pin).off ≤ i ∧ i < (fselField call.pin).off + 3

/-- Every call is one of `gpio_set_function`. -/
theorem run_eq (call : GpioCall) : call.run = gpioSetFunction call.pin call.function := by
  cases call <;> rfl

end GpioCall

/-- The device after some calls. -/
def Gpio.after (g : Gpio) (calls : List GpioCall) : Gpio :=
  calls.foldl (fun g call => (call.run g).2) g

/-- One more call. -/
theorem Gpio.after_concat (g : Gpio) (calls : List GpioCall) (call : GpioCall) :
    g.after (calls ++ [call]) = (call.run (g.after calls)).2 := by
  rw [after, List.foldl_append]
  rfl

/-! ## The fields -/

/-- The register that the code computes. -/
theorem gpioPinToFselReg_eq (pin : BitVec 32) : gpioPinToFselReg pin = fselRegister pin := by
  apply BitVec.eq_of_toNat_eq
  simp only [gpioPinToFselReg, gpioBase, fselRegister, BitVec.toNat_add, BitVec.toNat_mul,
    BitVec.toNat_udiv, BitVec.ofNat_eq_ofNat, BitVec.toNat_ofNat, Nat.reducePow, Nat.reduceMod]
  omega

/-- The offset that the code computes. -/
theorem gpioPinToFselOffset_toNat (pin : BitVec 32) :
    (gpioPinToFselOffset pin).toNat = 3 * (pin.toNat % 10) := by
  simp only [gpioPinToFselOffset, BitVec.toNat_mul, BitVec.toNat_umod,
    BitVec.ofNat_eq_ofNat, BitVec.toNat_ofNat, Nat.reducePow, Nat.reduceMod]
  omega

/-- The check of a pin. -/
theorem gpioIsValidPin_iff {pin : BitVec 32} : gpioIsValidPin pin = true ↔ pin ≤ 53 := by
  have hfirst : gpioPinFirst ≤ pin := BitVec.le_def.mpr (Nat.zero_le _)
  rw [gpioIsValidPin, Bool.and_eq_true, decide_eq_true_iff, decide_eq_true_iff]
  exact and_iff_right hfirst

/-- The check of a function. -/
theorem gpioIsValidFunction_iff {fn : BitVec 32} : gpioIsValidFunction fn = true ↔ fn ≤ 7 := by
  have hfirst : gpioFuncInput ≤ fn := BitVec.le_def.mpr (Nat.zero_le _)
  rw [gpioIsValidFunction, Bool.and_eq_true, decide_eq_true_iff, decide_eq_true_iff]
  exact and_iff_right hfirst

/-- A rejected call. -/
theorem gpioSetFunction_rejected {pin function : BitVec 32} (h : ¬ (pin ≤ 53 ∧ function ≤ 7))
    (g : Gpio) : gpioSetFunction pin function g = (-1, g) := by
  rw [gpioSetFunction]
  by_cases hpin : gpioIsValidPin pin = true
  · have hfn : gpioIsValidFunction function = false := by
      rw [← Bool.not_eq_true, gpioIsValidFunction_iff]
      exact fun hfn => h ⟨gpioIsValidPin_iff.mp hpin, hfn⟩
    rw [hpin, hfn]
    rfl
  · rw [Bool.not_eq_true] at hpin
    rw [hpin]
    rfl

/-- A valid function fits a field. -/
theorem setWidth_function {function : BitVec 32} (h : function ≤ 7) :
    (function.setWidth 3).setWidth 32 = function := by
  have hle : function.toNat ≤ 7 := BitVec.le_def.mp h
  apply BitVec.eq_of_toNat_eq
  simp only [BitVec.toNat_setWidth]
  omega

/-- An accepted call assigns to the field of its pin. -/
theorem gpioSetFunction_accepted {pin function : BitVec 32} (hpin : pin ≤ 53)
    (hfn : function ≤ 7) (g : Gpio) :
    gpioSetFunction pin function g = (0, g.put32 (fselRegister pin)
      ((fselField pin).set (g.regs (fselRegister pin)) function)) := by
  rw [gpioSetFunction, gpioIsValidPin_iff.mpr hpin, gpioIsValidFunction_iff.mpr hfn, BitField.set,
    setWidth_function hfn, BitField.mask, fselField, ← gpioPinToFselOffset_toNat,
    ← gpioPinToFselReg_eq]
  rfl

/-- Reading a pin reads its field. -/
theorem gpioGetFunction_eq {pin : BitVec 32} (hpin : pin ≤ 53) (g : Gpio) :
    gpioGetFunction pin g = (g.selected pin).setWidth 32 := by
  apply BitVec.eq_of_getLsbD_eq
  intro i hi
  have hseven : (7#32).getLsbD i = decide (i < 3) := by
    interval_cases i <;> rfl
  have hoff := gpioPinToFselOffset_toNat pin
  have hbit : (gpioGetFunction pin g).getLsbD i =
      ((g.regs (fselRegister pin)).getLsbD (3 * (pin.toNat % 10) + i) && decide (i < 3)) := by
    rw [gpioGetFunction, gpioIsValidPin_iff.mpr hpin, ← gpioPinToFselReg_eq]
    by_cases hi3 : i < 3
    · have hin : 3 * (pin.toNat % 10) + i < 32 := by omega
      simp [Gpio.get32, hoff, hseven, hi3, hin]
    · simp [Gpio.get32, hoff, hseven, hi3]
  rw [hbit, Gpio.selected, BitField.get, fselField, BitVec.getLsbD_setWidth,
    BitVec.getLsbD_extractLsb']
  simp only [hi, decide_true, Bool.true_and, Bool.and_comm]

/-- Two pins share no bit. -/
theorem fselField_disjoint {p q : BitVec 32} (hp : p ≤ 53) (hq : q ≤ 53) (hne : p ≠ q)
    (hreg : fselRegister p = fselRegister q) :
    (fselField p).off + 3 ≤ (fselField q).off ∨ (fselField q).off + 3 ≤ (fselField p).off := by
  have hp' : p.toNat ≤ 53 := BitVec.le_def.mp hp
  have hq' : q.toNat ≤ 53 := BitVec.le_def.mp hq
  have hne' : p.toNat ≠ q.toNat := fun h => hne (BitVec.eq_of_toNat_eq h)
  have hreg' := congrArg BitVec.toNat hreg
  simp only [fselRegister, BitVec.toNat_ofNat] at hreg'
  simp only [fselField]
  omega

/-! ## One call -/

namespace GpioCall

/-- A rejected call returns -1 and leaves the device. -/
theorem run_rejected {call : GpioCall} (h : ¬ call.Accepted) (g : Gpio) :
    call.run g = (gpioInvalidRequest, g) := by
  rw [run_eq]
  exact gpioSetFunction_rejected h g

/-- An accepted call is one assignment. -/
theorem run_accepted {call : GpioCall} (h : call.Accepted) (g : Gpio) :
    call.run g = (0, g.put32 (fselRegister call.pin)
      ((fselField call.pin).set (g.regs (fselRegister call.pin)) call.function)) := by
  rw [run_eq]
  exact gpioSetFunction_accepted h.1 h.2 g

/-- A call keeps every bit that does not belong to its pin. -/
theorem getLsbD_run {call : GpioCall} {reg : BitVec 32} {i : ℕ}
    (h : call.Accepted → ¬ call.Owns reg i) (g : Gpio) :
    ((call.run g).2.regs reg).getLsbD i = (g.regs reg).getLsbD i := by
  by_cases hacc : call.Accepted
  · rw [run_accepted hacc]
    simp only [Gpio.put32, Function.update_apply]
    split_ifs with hreg
    · subst hreg
      exact BitField.getLsbD_set_of_outside _ _ _ fun hin => h hacc ⟨rfl, hin⟩
    · rfl
  · rw [run_rejected hacc]

/-- An accepted call selects its function for its pin, and every call leaves the others. -/
theorem selected_run (call : GpioCall) (g : Gpio) {p : BitVec 32} (hp : p ≤ 53) :
    (call.run g).2.selected p =
      if call.Accepted ∧ call.pin = p then call.function.setWidth 3 else g.selected p := by
  by_cases hacc : call.Accepted
  · rw [run_accepted hacc]
    simp only [Gpio.selected, Gpio.put32, BitField.get, Function.update_apply, hacc, true_and]
    by_cases hpin : call.pin = p
    · subst hpin
      rw [if_pos rfl, if_pos rfl]
      refine BitField.extractLsb'_set_same _ _ ?_
      simp only [fselField]
      omega
    · rw [if_neg hpin]
      split_ifs with hreg
      · rw [hreg]
        have hdisjoint := fselField_disjoint hp hacc.1 (Ne.symm hpin) hreg
        exact BitField.extractLsb'_set_of_disjoint _ _ hdisjoint
      · rfl
  · rw [run_rejected hacc, if_neg fun h => hacc h.1]

end GpioCall

/-! ## Every sequence of calls -/

/-- The function that the last accepted call for a pin asked for, or the given one. -/
def lastFunction (p init : BitVec 32) (calls : List GpioCall) : BitVec 32 :=
  calls.foldl (fun f call => if call.Accepted ∧ call.pin = p then call.function else f) init

/-- One more call. -/
theorem lastFunction_concat (p init : BitVec 32) (calls : List GpioCall) (call : GpioCall) :
    lastFunction p init (calls ++ [call]) =
      if call.Accepted ∧ call.pin = p then call.function else lastFunction p init calls := by
  simp only [lastFunction, List.foldl_append, List.foldl_cons, List.foldl_nil]

/-- What a pin's function is after some calls. -/
theorem gpioGetFunction_after (g : Gpio) (calls : List GpioCall) {p : BitVec 32} (hp : p ≤ 53) :
    gpioGetFunction p (g.after calls) = lastFunction p ((g.selected p).setWidth 32) calls := by
  induction calls using List.reverseRecOn with
  | nil => exact gpioGetFunction_eq hp g
  | append_singleton calls call ih =>
    rw [Gpio.after_concat, lastFunction_concat, gpioGetFunction_eq hp, GpioCall.selected_run _ _ hp]
    split_ifs with hlast
    · exact setWidth_function hlast.1.2
    · rw [← gpioGetFunction_eq hp, ih]

/-- Calls keep every bit that belongs to none of their pins. -/
theorem Gpio.getLsbD_after (g : Gpio) {calls : List GpioCall} {reg : BitVec 32} {i : ℕ}
    (hfree : ∀ call ∈ calls, call.Accepted → ¬ call.Owns reg i) :
    ((g.after calls).regs reg).getLsbD i = (g.regs reg).getLsbD i := by
  induction calls using List.reverseRecOn with
  | nil => rfl
  | append_singleton calls call ih =>
    have hcall := hfree call (List.mem_append_right _ List.mem_cons_self)
    rw [after_concat, GpioCall.getLsbD_run hcall]
    exact ih fun call' hmem => hfree call' (List.mem_append_left _ hmem)

/-- The two highest bits belong to no pin. -/
theorem GpioCall.not_owns_high (call : GpioCall) (reg : BitVec 32) {i : ℕ} (hi : 30 ≤ i) :
    ¬ call.Owns reg i := by
  rintro ⟨-, -, hlt⟩
  simp only [fselField] at hlt
  omega

/-- Function select is a map of 54 entries: a pin's function is the one that the last accepted
call asked for, or else its initial field; a rejected call returns -1 and writes nothing; and
the bits that belong to no accepted call's pin keep their values. -/
theorem gpio_isMap (g : Gpio) (calls : List GpioCall) :
    (∀ p : BitVec 32, p ≤ 53 →
      gpioGetFunction p (g.after calls) = lastFunction p ((g.selected p).setWidth 32) calls) ∧
    (∀ (pre : List GpioCall) (call : GpioCall), pre ++ [call] <+: calls →
      53 < call.pin ∨ 7 < call.function → call.run (g.after pre) = (-1, g.after pre)) ∧
    (∀ (reg : BitVec 32) (i : ℕ), (∀ call ∈ calls, call.Accepted → ¬ call.Owns reg i) →
      ((g.after calls).regs reg).getLsbD i = (g.regs reg).getLsbD i) ∧
    ∀ (reg : BitVec 32) (i : ℕ), 30 ≤ i →
      ((g.after calls).regs reg).getLsbD i = (g.regs reg).getLsbD i := by
  refine ⟨fun p hp => gpioGetFunction_after g calls hp, fun pre call _ hrej => ?_,
    fun reg i hfree => g.getLsbD_after hfree,
    fun reg i hi => g.getLsbD_after fun call _ _ => call.not_owns_high reg hi⟩
  refine GpioCall.run_rejected (fun hacc => ?_) _
  rcases hrej with hpin | hfn
  · exact absurd hacc.1 (BitVec.not_le.mpr hpin)
  · exact absurd hacc.2 (BitVec.not_le.mpr hfn)

end RpiVm
