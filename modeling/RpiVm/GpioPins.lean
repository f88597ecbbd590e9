import RpiVm.Gpio

/-!
# Levels and pulls of the GPIO pins

The registers for levels and pulls have one bit for each pin, in two words. A store to a set or
clear register changes the pins whose bit is one, and a store to a clock register gives them
the pull that is in `GPPUD`. Together with the function select all calls act on an array of 54
pins.
-/

namespace RpiVm

open CLib

/-! ## The device -/

/-- `GPIO_SET_BASE`. -/
def gpioSetBase : BitVec 32 := 0x2020001C

/-- `GPIO_CLR_BASE`. -/
def gpioClrBase : BitVec 32 := 0x20200028

/-- `GPIO_LEV_BASE`. -/
def gpioLevBase : BitVec 32 := 0x20200034

/-- `GPIO_PUD`. -/
def gpioPud : BitVec 32 := 0x20200094

/-- `GPIO_PUDCLK_BASE`. -/
def gpioPudclkBase : BitVec 32 := 0x20200098

/-- The pins and their registers. -/
structure Board where
  /-- The function select. -/
  gpio : Gpio
  /-- What each pin drives if it is an output. -/
  latch : ℕ → Bool
  /-- The control signal in `GPPUD`. -/
  pud : BitVec 32
  /-- The pull of each pin. -/
  pull : ℕ → BitVec 32

/-- The level at a pin, given the levels that come from outside. -/
def Board.level (b : Board) (outside : ℕ → Bool) (p : ℕ) : Bool :=
  if b.gpio.selected (BitVec.ofNat 32 p) = 1 then b.latch p else outside p

/-- The bit of a pin in a store to the word with number `n`. -/
def pinBit (n : ℕ) (v : BitVec 32) (p : ℕ) : Bool := p / 32 == n && v.getLsbD (p % 32)

/-- `GET32`. -/
def Board.get32 (b : Board) (outside : ℕ → Bool) (addr : BitVec 32) : BitVec 32 :=
  if addr = gpioLevBase then BitVec.ofFnLE fun i : Fin 32 => b.level outside i
  else if addr = gpioLevBase + 4 then BitVec.ofFnLE fun i : Fin 32 => b.level outside (32 + i)
  else b.gpio.get32 addr

/-- A store of ones to the set registers. -/
def Board.set (b : Board) (n : ℕ) (v : BitVec 32) : Board :=
  { b with latch := fun p => b.latch p || pinBit n v p }

/-- A store of ones to the clear registers. -/
def Board.clear (b : Board) (n : ℕ) (v : BitVec 32) : Board :=
  { b with latch := fun p => b.latch p && !pinBit n v p }

/-- A store of ones to the clock registers. -/
def Board.clock (b : Board) (n : ℕ) (v : BitVec 32) : Board :=
  { b with pull := fun p => if pinBit n v p then b.pud else b.pull p }

/-- `PUT32`. -/
def Board.put32 (b : Board) (addr v : BitVec 32) : Board :=
  if addr = gpioSetBase then b.set 0 v
  else if addr = gpioSetBase + 4 then b.set 1 v
  else if addr = gpioClrBase then b.clear 0 v
  else if addr = gpioClrBase + 4 then b.clear 1 v
  else if addr = gpioPud then { b with pud := v }
  else if addr = gpioPudclkBase then b.clock 0 v
  else if addr = gpioPudclkBase + 4 then b.clock 1 v
  else { b with gpio := b.gpio.put32 addr v }

/-! ## The code -/

/-- `GPIO_PUD_DISABLE`. -/
def gpioPudDisable : BitVec 32 := 0

/-- `GPIO_PUD_PULLDOWN`. -/
def gpioPudPulldown : BitVec 32 := 1

/-- `GPIO_PUD_PULLUP`. -/
def gpioPudPullup : BitVec 32 := 2

/-- `gpio_pin_to_param_reg`. -/
def gpioPinToParamReg (pin base : BitVec 32) : BitVec 32 := base + 0x04 * (pin / 32)

/-- `gpio_write`. -/
def gpioWrite (pin val : BitVec 32) (b : Board) : ℤ × Board :=
  if !gpioIsValidPin pin then (gpioInvalidRequest, b)
  else
    let reg := if val ≠ 0 then gpioPinToParamReg pin gpioSetBase
      else gpioPinToParamReg pin gpioClrBase
    (0, b.put32 reg (1#32 <<< (pin % 32)))

/-- `gpio_read`. -/
def gpioRead (pin : BitVec 32) (outside : ℕ → Bool) (b : Board) : BitVec 32 :=
  if !gpioIsValidPin pin then BitVec.ofInt 32 gpioInvalidRequest
  else
    let reg := gpioPinToParamReg pin gpioLevBase
    let value := b.get32 outside reg
    if value &&& (1#32 <<< (pin % 32)) ≠ 0 then 1 else 0

/-- `gpio_set_off`. -/
def gpioSetOff (pin : BitVec 32) (b : Board) : ℤ × Board := gpioWrite pin 0 b

/-- `gpio_set_on`. -/
def gpioSetOn (pin : BitVec 32) (b : Board) : ℤ × Board := gpioWrite pin 1 b

/-- `gpio_is_valid_pud`. -/
def gpioIsValidPud (pud : BitVec 32) : Bool := pud ≥ gpioPudDisable && pud ≤ gpioPudPullup

/-- `gpio_set_pud`; its delays are left out. -/
def gpioSetPud (pin pud : BitVec 32) (b : Board) : ℤ × Board :=
  if !gpioIsValidPin pin then (gpioInvalidRequest, b)
  else if !gpioIsValidPud pud then (gpioInvalidRequest, b)
  else
    let b := b.put32 gpioPud pud
    let pudclkReg := gpioPinToParamReg pin gpioPudclkBase
    let b := b.put32 pudclkReg (1#32 <<< (pin % 32))
    let b := b.put32 gpioPud gpioPudDisable
    (0, b.put32 pudclkReg 0)

/-- `gpio_set_pullup`. -/
def gpioSetPullup (pin : BitVec 32) (b : Board) : ℤ × Board := gpioSetPud pin gpioPudPullup b

/-- `gpio_set_pulldown`. -/
def gpioSetPulldown (pin : BitVec 32) (b : Board) : ℤ × Board := gpioSetPud pin gpioPudPulldown b

/-- A call, with the levels from outside at a read. -/
inductive PinCall where
  /-- A call that selects a function. -/
  | select (call : GpioCall)
  /-- `gpio_write`. -/
  | write (pin val : BitVec 32)
  /-- `gpio_set_on`. -/
  | setOn (pin : BitVec 32)
  /-- `gpio_set_off`. -/
  | setOff (pin : BitVec 32)
  /-- `gpio_read`. -/
  | read (pin : BitVec 32) (outside : ℕ → Bool)
  /-- `gpio_set_pud`. -/
  | setPud (pin pud : BitVec 32)
  /-- `gpio_set_pullup`. -/
  | setPullup (pin : BitVec 32)
  /-- `gpio_set_pulldown`. -/
  | setPulldown (pin : BitVec 32)

/-- What a call returns, as its 32 bits, and the registers after it. -/
def Board.call (b : Board) : PinCall → BitVec 32 × Board
  | .select call => (.ofInt 32 (call.run b.gpio).1, { b with gpio := (call.run b.gpio).2 })
  | .write pin val => (gpioWrite pin val b).map (.ofInt 32) id
  | .setOn pin => (gpioSetOn pin b).map (.ofInt 32) id
  | .setOff pin => (gpioSetOff pin b).map (.ofInt 32) id
  | .read pin outside => (gpioRead pin outside b, b)
  | .setPud pin pud => (gpioSetPud pin pud b).map (.ofInt 32) id
  | .setPullup pin => (gpioSetPullup pin b).map (.ofInt 32) id
  | .setPulldown pin => (gpioSetPulldown pin b).map (.ofInt 32) id

/-- What some calls return, and the registers after them. -/
def Board.calls (b : Board) : List PinCall → List (BitVec 32) × Board
  | [] => ([], b)
  | call :: cs => (((b.call call).2.calls cs)).map ((b.call call).1 :: ·) id

/-! ## The array -/

/-- A pin. -/
structure Pin where
  /-- Its function. -/
  function : BitVec 3
  /-- What it drives if it is an output. -/
  latch : Bool
  /-- Its pull. -/
  pull : BitVec 32

/-- The level of a pin. -/
def Pin.level (p : Pin) (outside : Bool) : Bool := if p.function = 1 then p.latch else outside

/-- What a call does to its pin; `none` if it does not accept the argument. -/
def PinCall.onPin : PinCall → Pin → Option Pin
  | .select call, p =>
    if call.function ≤ 7 then some { p with function := call.function.setWidth 3 } else none
  | .write _ val, p => some { p with latch := val != 0 }
  | .setOn _, p => some { p with latch := true }
  | .setOff _, p => some { p with latch := false }
  | .read _ _, p => some p
  | .setPud _ pud, p => if pud ≤ 2 then some { p with pull := pud } else none
  | .setPullup _, p => some { p with pull := 2 }
  | .setPulldown _, p => some { p with pull := 1 }

/-- The pin that a call names. -/
def PinCall.pin : PinCall → BitVec 32
  | .select call => call.pin
  | .write pin _ | .setOn pin | .setOff pin | .read pin _ | .setPud pin _ | .setPullup pin |
    .setPulldown pin => pin

/-- What an accepted call returns. -/
def PinCall.answer : PinCall → Pin → BitVec 32
  | .read pin outside, p => if p.level (outside pin.toNat) then 1 else 0
  | _, _ => 0

/-- A call on an array of 54 pins. -/
def callPins (pins : Fin 54 → Pin) (call : PinCall) : BitVec 32 × (Fin 54 → Pin) :=
  if h : call.pin.toNat < 54 then
    match call.onPin (pins ⟨call.pin.toNat, h⟩) with
    | some p => (call.answer (pins ⟨call.pin.toNat, h⟩), Function.update pins ⟨call.pin.toNat, h⟩ p)
    | none => (.ofInt 32 gpioInvalidRequest, pins)
  else (.ofInt 32 gpioInvalidRequest, pins)

/-- Some calls. -/
def callsPins (pins : Fin 54 → Pin) : List PinCall → List (BitVec 32) × (Fin 54 → Pin)
  | [] => ([], pins)
  | call :: cs => (callsPins (callPins pins call).2 cs).map ((callPins pins call).1 :: ·) id

/-- The array that the registers hold. -/
def Board.pins (b : Board) (p : Fin 54) : Pin :=
  ⟨b.gpio.selected (BitVec.ofNat 32 p), b.latch p, b.pull p⟩

/-! ## Bits -/

/-- The bit of a pin in its word, and no other. -/
theorem pinBit_shift {pin : BitVec 32} (n p : ℕ) (hn : n = pin.toNat / 32) :
    pinBit n (1#32 <<< (pin % 32)) p = decide (p = pin.toNat) := by
  have hmod : (pin % 32).toNat = pin.toNat % 32 := by rw [BitVec.toNat_umod]; rfl
  have hlt : p % 32 < 32 := Nat.mod_lt _ (by decide)
  have hbit : (1#32 <<< (pin % 32)).getLsbD (p % 32) = decide (p % 32 = pin.toNat % 32) := by
    rw [BitVec.shiftLeft_eq', hmod, BitVec.getLsbD_shiftLeft, BitVec.getLsbD_one]
    simp only [hlt]
    by_cases h : p % 32 < pin.toNat % 32
    · simp [h]
      omega
    · simp [h]
      omega
  rw [pinBit, hbit, hn]
  by_cases hp : p = pin.toNat
  · simp [hp]
  · simp only [hp, decide_false, Bool.and_eq_false_iff, beq_eq_false_iff_ne,
      decide_eq_false_iff_not]
    omega

/-- A store of zero. -/
theorem pinBit_zero (n p : ℕ) : pinBit n 0 p = false := by simp [pinBit]

/-- The two registers of a kind. -/
theorem gpioPinToParamReg_eq {pin : BitVec 32} (hpin : pin ≤ 53) (base : BitVec 32) :
    gpioPinToParamReg pin base = base ∧ pin.toNat / 32 = 0 ∨
      gpioPinToParamReg pin base = base + 4 ∧ pin.toNat / 32 = 1 := by
  have hle : pin.toNat ≤ 53 := hpin
  have hdiv : pin / 32 = BitVec.ofNat 32 (pin.toNat / 32) := by
    apply BitVec.eq_of_toNat_eq
    rw [BitVec.toNat_udiv, BitVec.toNat_ofNat, Nat.mod_eq_of_lt (by omega)]
    rfl
  rw [gpioPinToParamReg, hdiv]
  obtain h | h : pin.toNat / 32 = 0 ∨ pin.toNat / 32 = 1 := by omega
  · exact .inl ⟨by rw [h]; simp, h⟩
  · exact .inr ⟨by rw [h]; rfl, h⟩

/-- The test of one bit. -/
theorem and_shift_ne_zero_iff (v pin : BitVec 32) :
    v &&& (1#32 <<< (pin % 32)) ≠ 0 ↔ v.getLsbD (pin.toNat % 32) = true := by
  have hmod : (pin % 32).toNat = pin.toNat % 32 := by rw [BitVec.toNat_umod]; rfl
  have htwo : 1#32 <<< (pin % 32) = BitVec.twoPow 32 (pin.toNat % 32) := by
    rw [BitVec.shiftLeft_eq', hmod]
    rfl
  have hlt : pin.toNat % 32 < 32 := Nat.mod_lt _ (by decide)
  have hpos : BitVec.twoPow 32 (pin.toNat % 32) ≠ 0 := by
    intro hzero
    have hbit := congrArg (fun w : BitVec 32 => w.getLsbD (pin.toNat % 32)) hzero
    simp [hlt] at hbit
  rw [htwo, BitVec.and_twoPow]
  split_ifs with hbit
  · exact iff_of_true hpos hbit
  · exact iff_of_false (fun h => h rfl) hbit

/-! ## One call -/

section

variable {pin : BitVec 32} (b : Board)

/-- Setting a pin. -/
theorem put32_set (hpin : pin ≤ 53) :
    b.put32 (gpioPinToParamReg pin gpioSetBase) (1#32 <<< (pin % 32)) =
      { b with latch := Function.update b.latch pin.toNat true } := by
  have hlatch : ∀ n, n = pin.toNat / 32 → b.set n (1#32 <<< (pin % 32)) =
      { b with latch := Function.update b.latch pin.toNat true } := by
    intro n hn
    rw [Board.set]
    congr 1
    funext p
    rw [pinBit_shift n p hn, Function.update_apply]
    by_cases hp : p = pin.toNat <;> simp [hp]
  obtain ⟨hreg, hn⟩ | ⟨hreg, hn⟩ := gpioPinToParamReg_eq hpin gpioSetBase
  · rw [hreg, Board.put32, if_pos rfl]
    exact hlatch 0 hn.symm
  · rw [hreg, Board.put32, if_neg (by decide), if_pos rfl]
    exact hlatch 1 hn.symm

/-- Clearing a pin. -/
theorem put32_clear (hpin : pin ≤ 53) :
    b.put32 (gpioPinToParamReg pin gpioClrBase) (1#32 <<< (pin % 32)) =
      { b with latch := Function.update b.latch pin.toNat false } := by
  have hlatch : ∀ n, n = pin.toNat / 32 → b.clear n (1#32 <<< (pin % 32)) =
      { b with latch := Function.update b.latch pin.toNat false } := by
    intro n hn
    rw [Board.clear]
    congr 1
    funext p
    rw [pinBit_shift n p hn, Function.update_apply]
    by_cases hp : p = pin.toNat <;> simp [hp]
  obtain ⟨hreg, hn⟩ | ⟨hreg, hn⟩ := gpioPinToParamReg_eq hpin gpioClrBase
  · rw [hreg, Board.put32, if_neg (by decide), if_neg (by decide), if_pos rfl]
    exact hlatch 0 hn.symm
  · rw [hreg, Board.put32, if_neg (by decide), if_neg (by decide), if_neg (by decide), if_pos rfl]
    exact hlatch 1 hn.symm

/-- A store to the clock register of a pin. -/
theorem put32_clock (hpin : pin ≤ 53) (v : BitVec 32) :
    b.put32 (gpioPinToParamReg pin gpioPudclkBase) v = b.clock (pin.toNat / 32) v := by
  obtain ⟨hreg, hn⟩ | ⟨hreg, hn⟩ := gpioPinToParamReg_eq hpin gpioPudclkBase
  · rw [hreg, hn, Board.put32, if_neg (by decide), if_neg (by decide), if_neg (by decide),
      if_neg (by decide), if_neg (by decide), if_pos rfl]
  · rw [hreg, hn, Board.put32, if_neg (by decide), if_neg (by decide), if_neg (by decide),
      if_neg (by decide), if_neg (by decide), if_neg (by decide), if_pos rfl]

/-- A store to `GPPUD`. -/
theorem put32_pud (v : BitVec 32) : b.put32 gpioPud v = { b with pud := v } := by
  rw [Board.put32, if_neg (by decide), if_neg (by decide), if_neg (by decide), if_neg (by decide),
    if_pos rfl]

/-- `gpio_write` for a pin that there is. -/
theorem gpioWrite_accepted (hpin : pin ≤ 53) (val : BitVec 32) : gpioWrite pin val b =
    (0, { b with latch := Function.update b.latch pin.toNat (val != 0) }) := by
  rw [gpioWrite, gpioIsValidPin_iff.mpr hpin]
  simp only [Bool.not_true, Bool.false_eq_true, if_false]
  by_cases hval : val = 0
  · have hbne : (val != 0) = false := bne_eq_false_iff_eq.mpr hval
    rw [if_neg (not_not.mpr hval), put32_clear b hpin, hbne]
  · have hbne : (val != 0) = true := bne_iff_ne.mpr hval
    rw [if_pos hval, put32_set b hpin, hbne]

/-- `gpio_read` for a pin that there is. -/
theorem gpioRead_accepted (hpin : pin ≤ 53) (outside : ℕ → Bool) :
    gpioRead pin outside b = if b.level outside pin.toNat then 1 else 0 := by
  have hbit : (b.get32 outside (gpioPinToParamReg pin gpioLevBase)).getLsbD (pin.toNat % 32) =
      b.level outside pin.toNat := by
    have hlt : pin.toNat % 32 < 32 := Nat.mod_lt _ (by decide)
    have hsplit := Nat.div_add_mod pin.toNat 32
    obtain ⟨hreg, hn⟩ | ⟨hreg, hn⟩ := gpioPinToParamReg_eq hpin gpioLevBase
    · rw [hreg, Board.get32, if_pos rfl, BitVec.getLsbD_ofFnLE, dif_pos hlt]
      congr 1
      show pin.toNat % 32 = pin.toNat
      omega
    · rw [hreg, Board.get32, if_neg (by decide), if_pos rfl, BitVec.getLsbD_ofFnLE, dif_pos hlt]
      congr 1
      show 32 + pin.toNat % 32 = pin.toNat
      omega
  rw [gpioRead, gpioIsValidPin_iff.mpr hpin]
  simp only [Bool.not_true, Bool.false_eq_true, if_false, and_shift_ne_zero_iff, hbit]

/-- A pull that there is. -/
theorem gpioIsValidPud_iff {pud : BitVec 32} : gpioIsValidPud pud = true ↔ pud ≤ 2 := by
  have hzero : gpioPudDisable ≤ pud := Nat.zero_le _
  rw [gpioIsValidPud, Bool.and_eq_true, decide_eq_true_eq, decide_eq_true_eq]
  exact and_iff_right hzero

/-- `gpio_set_pud` for a pin and a pull that there are: the control signal is gone afterwards,
and the pulls of the other pins are not touched. -/
theorem gpioSetPud_accepted (hpin : pin ≤ 53) {pud : BitVec 32} (hpud : pud ≤ 2) :
    gpioSetPud pin pud b =
      (0, { b with pud := 0, pull := Function.update b.pull pin.toNat pud }) := by
  rw [gpioSetPud, gpioIsValidPin_iff.mpr hpin, gpioIsValidPud_iff.mpr hpud]
  simp only [Bool.not_true, Bool.false_eq_true, if_false, put32_pud, put32_clock _ hpin]
  simp only [Board.clock, pinBit_zero, Bool.false_eq_true, if_false, pinBit_shift _ _ rfl]
  refine Prod.ext rfl ?_
  show Board.mk _ _ _ _ = Board.mk _ _ _ _
  congr 1
  funext p
  rw [Function.update_apply]
  by_cases hp : p = pin.toNat <;> simp [hp]

/-- `gpio_write` for another pin. -/
theorem gpioWrite_rejected (hpin : ¬ pin ≤ 53) (val : BitVec 32) :
    gpioWrite pin val b = (gpioInvalidRequest, b) := by
  rw [gpioWrite, if_pos]
  rw [Bool.not_eq_true', ← Bool.not_eq_true, gpioIsValidPin_iff]
  exact hpin

/-- `gpio_read` for another pin. -/
theorem gpioRead_rejected (hpin : ¬ pin ≤ 53) (outside : ℕ → Bool) :
    gpioRead pin outside b = .ofInt 32 gpioInvalidRequest := by
  rw [gpioRead, if_pos]
  rw [Bool.not_eq_true', ← Bool.not_eq_true, gpioIsValidPin_iff]
  exact hpin

/-- `gpio_set_pud` for another pin or another pull. -/
theorem gpioSetPud_rejected {pud : BitVec 32} (h : ¬ (pin ≤ 53 ∧ pud ≤ 2)) :
    gpioSetPud pin pud b = (gpioInvalidRequest, b) := by
  rw [gpioSetPud]
  by_cases hpin : gpioIsValidPin pin = true
  · have hpud : gpioIsValidPud pud = false := by
      rw [← Bool.not_eq_true, gpioIsValidPud_iff]
      exact fun hpud => h ⟨gpioIsValidPin_iff.mp hpin, hpud⟩
    rw [hpin, hpud]
    rfl
  · rw [Bool.not_eq_true] at hpin
    rw [hpin]
    rfl

/-- The array with another latch. -/
theorem pins_latch (h : pin.toNat < 54) (v : Bool) :
    Board.pins { b with latch := Function.update b.latch pin.toNat v } =
      Function.update b.pins ⟨pin.toNat, h⟩ { b.pins ⟨pin.toNat, h⟩ with latch := v } := by
  refine Function.eq_update_iff.mpr ⟨by simp [Board.pins], fun p hp => ?_⟩
  have hne : p.val ≠ pin.toNat := fun heq => hp (Fin.ext heq)
  simp [Board.pins, Function.update_of_ne hne]

/-- The array with another pull. -/
theorem pins_pull (h : pin.toNat < 54) (pud v : BitVec 32) :
    Board.pins { b with pud := pud, pull := Function.update b.pull pin.toNat v } =
      Function.update b.pins ⟨pin.toNat, h⟩ { b.pins ⟨pin.toNat, h⟩ with pull := v } := by
  refine Function.eq_update_iff.mpr ⟨by simp [Board.pins], fun p hp => ?_⟩
  have hne : p.val ≠ pin.toNat := fun heq => hp (Fin.ext heq)
  simp [Board.pins, Function.update_of_ne hne]

/-- The array with another function. -/
theorem pins_select {call : GpioCall} (hacc : call.Accepted) (h : call.pin.toNat < 54) :
    Board.pins { b with gpio := (call.run b.gpio).2 } =
      Function.update b.pins ⟨call.pin.toNat, h⟩
        { b.pins ⟨call.pin.toNat, h⟩ with function := call.function.setWidth 3 } := by
  funext p
  have hp : BitVec.ofNat 32 p ≤ 53 := by
    rw [BitVec.le_def, BitVec.toNat_ofNat]
    exact (Nat.mod_le _ _).trans (Nat.le_of_lt_succ p.isLt)
  have hpin : call.pin = BitVec.ofNat 32 p ↔ p = ⟨call.pin.toNat, h⟩ := by
    have hlt := p.isLt
    rw [← BitVec.toNat_inj, BitVec.toNat_ofNat, Nat.mod_eq_of_lt (by omega), Fin.ext_iff, eq_comm]
  have hselected := GpioCall.selected_run call b.gpio hp
  simp only [hacc, true_and, hpin] at hselected
  rw [Function.update_apply]
  split_ifs at hselected ⊢ with heq
  · subst heq
    show Pin.mk _ _ _ = Pin.mk _ _ _
    rw [hselected]
    rfl
  · show Pin.mk _ _ _ = Pin.mk _ _ _
    rw [hselected]

/-- An accepted call on the array. -/
theorem callPins_accepted {pins : Fin 54 → Pin} {p : Pin} (call : PinCall) (hpin : call.pin = pin)
    (h : pin.toNat < 54) (hp : call.onPin (pins ⟨pin.toNat, h⟩) = some p) :
    callPins pins call = (call.answer (pins ⟨pin.toNat, h⟩),
      Function.update pins ⟨pin.toNat, h⟩ p) := by
  subst hpin
  rw [callPins, dif_pos h]
  simp only [hp]

/-- A rejected one. -/
theorem callPins_rejected {pins : Fin 54 → Pin} (call : PinCall)
    (hnone : ∀ h : call.pin.toNat < 54, call.onPin (pins ⟨call.pin.toNat, h⟩) = none) :
    callPins pins call = (.ofInt 32 gpioInvalidRequest, pins) := by
  rw [callPins]
  split_ifs with h
  · simp only [hnone h]
  · rfl

/-- A call for a pin that there is. -/
theorem Board.call_pins_of_le {call : PinCall} (hpin : call.pin ≤ 53) :
    (b.call call).1 = (callPins b.pins call).1 ∧
      (b.call call).2.pins = (callPins b.pins call).2 := by
  cases call with
  | select call =>
    replace hpin : call.pin ≤ 53 := hpin
    have h : call.pin.toNat < 54 := Nat.lt_succ_of_le hpin
    by_cases hfunction : call.function ≤ 7
    · have hacc : call.Accepted := ⟨hpin, hfunction⟩
      rw [callPins_accepted (.select call) rfl h (if_pos hfunction)]
      refine ⟨?_, pins_select b hacc h⟩
      show BitVec.ofInt 32 (call.run b.gpio).1 = 0
      rw [GpioCall.run_accepted hacc]
      rfl
    · have hrejected : ¬ call.Accepted := fun hacc => hfunction hacc.2
      rw [callPins_rejected (.select call) fun _ => if_neg hfunction, Board.call,
        GpioCall.run_rejected hrejected]
      exact ⟨rfl, rfl⟩
  | write pin val =>
    replace hpin : pin ≤ 53 := hpin
    have h : pin.toNat < 54 := Nat.lt_succ_of_le hpin
    rw [callPins_accepted (.write pin val) rfl h rfl, Board.call, gpioWrite_accepted b hpin]
    exact ⟨rfl, pins_latch b h _⟩
  | setOn pin =>
    replace hpin : pin ≤ 53 := hpin
    have h : pin.toNat < 54 := Nat.lt_succ_of_le hpin
    have hone : ((1 : BitVec 32) != 0) = true := by decide
    rw [callPins_accepted (.setOn pin) rfl h rfl, Board.call, gpioSetOn,
      gpioWrite_accepted b hpin, hone]
    exact ⟨rfl, pins_latch b h _⟩
  | setOff pin =>
    replace hpin : pin ≤ 53 := hpin
    have h : pin.toNat < 54 := Nat.lt_succ_of_le hpin
    have hzero : ((0 : BitVec 32) != 0) = false := by decide
    rw [callPins_accepted (.setOff pin) rfl h rfl, Board.call, gpioSetOff,
      gpioWrite_accepted b hpin, hzero]
    exact ⟨rfl, pins_latch b h _⟩
  | read pin outside =>
    replace hpin : pin ≤ 53 := hpin
    have h : pin.toNat < 54 := Nat.lt_succ_of_le hpin
    rw [callPins_accepted (.read pin outside) rfl h rfl, Board.call, gpioRead_accepted b hpin,
      Function.update_eq_self]
    exact ⟨rfl, rfl⟩
  | setPud pin pud =>
    replace hpin : pin ≤ 53 := hpin
    have h : pin.toNat < 54 := Nat.lt_succ_of_le hpin
    by_cases hpud : pud ≤ 2
    · rw [callPins_accepted (.setPud pin pud) rfl h (if_pos hpud), Board.call,
        gpioSetPud_accepted b hpin hpud]
      exact ⟨rfl, pins_pull b h _ _⟩
    · rw [callPins_rejected (.setPud pin pud) fun _ => if_neg hpud, Board.call,
        gpioSetPud_rejected b fun hacc => hpud hacc.2]
      exact ⟨rfl, rfl⟩
  | setPullup pin =>
    replace hpin : pin ≤ 53 := hpin
    have h : pin.toNat < 54 := Nat.lt_succ_of_le hpin
    have hpud : gpioPudPullup ≤ 2 := by decide
    rw [callPins_accepted (.setPullup pin) rfl h rfl, Board.call, gpioSetPullup,
      gpioSetPud_accepted b hpin hpud]
    exact ⟨rfl, pins_pull b h _ _⟩
  | setPulldown pin =>
    replace hpin : pin ≤ 53 := hpin
    have h : pin.toNat < 54 := Nat.lt_succ_of_le hpin
    have hpud : gpioPudPulldown ≤ 2 := by decide
    rw [callPins_accepted (.setPulldown pin) rfl h rfl, Board.call, gpioSetPulldown,
      gpioSetPud_accepted b hpin hpud]
    exact ⟨rfl, pins_pull b h _ _⟩

/-- A call for another pin does nothing. -/
theorem Board.call_rejected {call : PinCall} (hpin : ¬ call.pin ≤ 53) :
    b.call call = (.ofInt 32 gpioInvalidRequest, b) := by
  cases call with
  | select call =>
    have hrejected : ¬ call.Accepted := fun hacc => hpin hacc.1
    rw [Board.call, GpioCall.run_rejected hrejected]
  | write pin val =>
    replace hpin : ¬ pin ≤ 53 := hpin
    rw [Board.call, gpioWrite_rejected b hpin]
    rfl
  | setOn pin =>
    replace hpin : ¬ pin ≤ 53 := hpin
    rw [Board.call, gpioSetOn, gpioWrite_rejected b hpin]
    rfl
  | setOff pin =>
    replace hpin : ¬ pin ≤ 53 := hpin
    rw [Board.call, gpioSetOff, gpioWrite_rejected b hpin]
    rfl
  | read pin outside =>
    replace hpin : ¬ pin ≤ 53 := hpin
    rw [Board.call, gpioRead_rejected b hpin]
  | setPud pin pud =>
    have hrejected : ¬ (pin ≤ 53 ∧ pud ≤ 2) := fun hacc => hpin hacc.1
    rw [Board.call, gpioSetPud_rejected b hrejected]
    rfl
  | setPullup pin =>
    have hrejected : ¬ (pin ≤ 53 ∧ gpioPudPullup ≤ 2) := fun hacc => hpin hacc.1
    rw [Board.call, gpioSetPullup, gpioSetPud_rejected b hrejected]
    rfl
  | setPulldown pin =>
    have hrejected : ¬ (pin ≤ 53 ∧ gpioPudPulldown ≤ 2) := fun hacc => hpin hacc.1
    rw [Board.call, gpioSetPulldown, gpioSetPud_rejected b hrejected]
    rfl

/-- A call on the registers is the call on the array that they hold. -/
theorem Board.call_pins (call : PinCall) : (b.call call).1 = (callPins b.pins call).1 ∧
    (b.call call).2.pins = (callPins b.pins call).2 := by
  by_cases hpin : call.pin ≤ 53
  · exact b.call_pins_of_le hpin
  · have hnone : ¬ call.pin.toNat < 54 := fun h => hpin (Nat.le_of_lt_succ h)
    rw [b.call_rejected hpin, callPins_rejected call fun h => absurd h hnone]
    exact ⟨rfl, rfl⟩

end

/-! ## Every sequence of calls -/

/-- From any state of the registers, every sequence of calls, of all kinds and with any
arguments, returns what it returns on an array of 54 pins, and leaves the array that it
leaves there. -/
theorem gpio_isArray (b : Board) (cs : List PinCall) :
    (b.calls cs).1 = (callsPins b.pins cs).1 ∧ (b.calls cs).2.pins = (callsPins b.pins cs).2 := by
  induction cs generalizing b with
  | nil => exact ⟨rfl, rfl⟩
  | cons call cs ih =>
    obtain ⟨hanswer, hpins⟩ := b.call_pins call
    obtain ⟨hanswers, hlast⟩ := ih (b.call call).2
    rw [hpins] at hanswers hlast
    exact ⟨congrArg₂ List.cons hanswer hanswers, hlast⟩

end RpiVm
