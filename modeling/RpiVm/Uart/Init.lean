import RpiVm.Uart.Device

/-!
# The set-up of the UART

Whatever the registers and FIFOs hold, and whatever happens on the line meanwhile, `uart_init`
leaves both FIFOs empty and the transmitter and receiver on, connected to their pins.
-/

namespace RpiVm.Uart

open CLib Channel Transition

/-! ## The code on its own -/

/-- What the code works on, without the FIFOs: the last value loaded, the pins and the
registers. -/
abbrev Regs : Type := BitVec 32 × Gpio × (BitVec 32 → BitVec 32)

/-- One access. -/
def Instr.exec (s : Regs) : Instr → Regs
  | .setFunction pin function => (s.1, (gpioSetFunction pin function s.2.1).2, s.2.2)
  | .get32 a => (s.2.2 a, s.2)
  | .put32 a f => (s.1, s.2.1, if a = iir then s.2.2 else Function.update s.2.2 a (f s.1))

/-- The first accesses of `uart_init`. -/
def stateAt (g : Gpio) (r : BitVec 32 → BitVec 32) (n : ℕ) : Regs :=
  (uartInit.take n).foldl Instr.exec (0, g, r)

/-- One access more. -/
theorem stateAt_succ {g : Gpio} {r : BitVec 32 → BitVec 32} {n : ℕ} {i : Instr}
    (hi : uartInit[n]? = some i) : stateAt g r (n + 1) = i.exec (stateAt g r n) := by
  rw [stateAt, List.take_add_one, hi, List.foldl_append]
  rfl

/-- What `uart_init` leaves. -/
structure Configured (g : Gpio) (r : BitVec 32 → BitVec 32) (g' : Gpio) (d : Device) : Prop where
  /-- The pin for sending. -/
  tx_pin : Connected g' gpioTx
  /-- The pin for receiving. -/
  rx_pin : Connected g' gpioRx
  /-- The other pins. -/
  pins : ∀ p : BitVec 32, p ≤ 53 → p ≠ gpioTx → p ≠ gpioRx → g'.selected p = g.selected p
  /-- The UART is on. -/
  auxenb : d.regs auxenb = r auxenb ||| 1
  /-- So are transmitter and receiver. -/
  cntl : d.regs cntl = r cntl &&& ~~~(txEnable ||| rxEnable) ||| txEnable ||| rxEnable
  /-- Symbols of eight bits. -/
  lcr : d.regs lcr = r lcr ||| 0b11
  /-- The baud rate. -/
  baud : d.regs baud = baudrateRegVal
  /-- The other registers. -/
  others : ∀ a, a ≠ Uart.auxenb → a ≠ Uart.cntl → a ≠ Uart.lcr → a ≠ Uart.baud → d.regs a = r a
  /-- Nothing has arrived. -/
  rx : d.rx = []
  /-- Nothing is left to send. -/
  tx : d.tx = []

section

variable {g g' : Gpio} {r : BitVec 32 → BitVec 32} {d : Device}

/-- While the code sets up the device, transmitter and receiver are off. -/
theorem stateAt_disabled {n : ℕ} (hn : 6 ≤ n) (hn' : n < 13)
    (h : d.regs = (stateAt g r n).2.2) : d.rxEnabled = false ∧ d.txEnabled = false := by
  have hbits : ∀ w : BitVec 32, (w &&& ~~~(txEnable ||| rxEnable)).getLsbD 0 = false ∧
      (w &&& ~~~(txEnable ||| rxEnable)).getLsbD 1 = false := by
    intro w
    simp [txEnable, rxEnable]
  have hcntl : d.regs cntl = r cntl &&& ~~~(txEnable ||| rxEnable) := by
    rw [h]
    interval_cases n <;>
      simp [stateAt, uartInit, initGpio, disableTxrx, setBaudrate, setBitmode, clearFifoQueues,
        enableTxrx, Instr.exec, auxenb, cntl, baud, lcr, iir]
  rw [Device.rxEnabled, Device.txEnabled, hcntl, (hbits _).1, (hbits _).2]
  exact ⟨Bool.and_false _, Bool.and_false _⟩

/-- All accesses together. -/
theorem stateAt_end (h : (g', d.regs) = (stateAt g r 13).2) (hrx : d.rx = []) (htx : d.tx = []) :
    Configured g r g' d := by
  obtain ⟨hg, hr⟩ := Prod.mk.inj h
  have hg' : g' = ((GpioCall.setFunction gpioRx gpioFuncAlt5).run
      ((GpioCall.setFunction gpioTx gpioFuncAlt5).run g).2).2 := hg
  have hother : ∀ p : BitVec 32, p ≤ 53 → g'.selected p =
      if gpioRx = p then gpioFuncAlt5.setWidth 3
      else if gpioTx = p then gpioFuncAlt5.setWidth 3 else g.selected p := by
    intro p hp
    have hrxok : (GpioCall.setFunction gpioRx gpioFuncAlt5).Accepted := by decide
    have htxok : (GpioCall.setFunction gpioTx gpioFuncAlt5).Accepted := by decide
    rw [hg', GpioCall.selected_run _ _ hp, GpioCall.selected_run _ _ hp]
    simp only [hrxok, htxok, true_and]
    rfl
  have hregs : d.regs = Function.update (Function.update (Function.update (Function.update
      (Function.update r auxenb (r auxenb ||| 1)) cntl (r cntl &&& ~~~(txEnable ||| rxEnable)))
        baud baudrateRegVal) lcr (r lcr ||| 0b11)) cntl
          (r cntl &&& ~~~(txEnable ||| rxEnable) ||| txEnable ||| rxEnable) := hr
  refine ⟨?_, ?_, ?_, ?_, ?_, ?_, ?_, ?_, hrx, htx⟩
  · rw [Connected, hother _ (by decide), if_neg (by decide), if_pos rfl]
  · rw [Connected, hother _ (by decide), if_pos rfl]
  · intro p hp hne hne'
    rw [hother p hp, if_neg hne'.symm, if_neg hne.symm]
  · rw [hregs]
    simp [auxenb, cntl, baud, lcr]
  · rw [hregs, Function.update_self]
  · rw [hregs]
    simp [cntl, lcr]
  · rw [hregs]
    simp [cntl, baud, lcr]
  · intro a hauxenb hcntl hlcr hbaud
    rw [hregs]
    simp [hauxenb, hcntl, hlcr, hbaud]

end

/-! ## On the board -/

variable {σ τ : Type*} {M : Machine (BitVec 8) σ} {N : Machine (BitVec 8) τ}

/-- The system before `uart_init`. -/
def start (s : σ) (t : τ) (g : Gpio) (d : Device) (x y : List (BitVec 8)) : System σ τ :=
  ⟨s, .afterInit uartInit 0 t, g, d, x, y⟩

/-- So many accesses of `uart_init` have been made. -/
structure InitAt (g : Gpio) (r : BitVec 32 → BitVec 32) (t : τ) (n : ℕ) (c : System σ τ) :
    Prop where
  /-- There are so many. -/
  le : n ≤ 13
  /-- The accesses left, and the last value loaded. -/
  cpu : c.cpu = .afterInit (uartInit.drop n) (stateAt g r n).1 t
  /-- Pins and registers. -/
  regs : (c.gpio, c.uart.regs) = (stateAt g r n).2
  /-- The FIFOs stay empty once they have been cleared. -/
  fifos : 11 ≤ n → c.uart.rx = [] ∧ c.uart.tx = []

section

variable {g : Gpio} {r : BitVec 32 → BitVec 32} {t : τ} {n : ℕ} {c c' : System σ τ}

/-- Before the end the CPU is at an access. -/
theorem InitAt.exists_instr (h : InitAt g r t n c) (hn : n < 13) :
    ∃ i is, uartInit[n]? = some i ∧ uartInit.drop (n + 1) = is ∧
      c.cpu = .init i is (stateAt g r n).1 t := by
  have hlen : n < uartInit.length := hn
  refine ⟨uartInit[n], uartInit.drop (n + 1), List.getElem?_eq_getElem hlen, rfl, ?_⟩
  rw [h.cpu, List.drop_eq_getElem_cons hlen]
  rfl

/-- One access. -/
theorem InitAt.access (h : InitAt g r t n c) (hn : n < 13) {i : Instr} (hi : uartInit[n]? = some i)
    {s : σ} {g' : Gpio} {d : Device} {x y : List (BitVec 8)} {value : BitVec 32}
    (hexec : (value, g', d.regs) = i.exec ((stateAt g r n).1, c.gpio, c.uart.regs))
    (hfifos : 10 ≤ n → d.rx = [] ∧ d.tx = []) :
    InitAt g r t (n + 1) ⟨s, .afterInit (uartInit.drop (n + 1)) value t, g', d, x, y⟩ := by
  have hstate : (value, g', d.regs) = stateAt g r (n + 1) := by
    rw [stateAt_succ hi, hexec, h.regs]
  exact ⟨hn, by rw [← hstate], by rw [← hstate], fun hlast => hfifos (by omega)⟩

/-- A load neither takes a byte nor reads the line status. -/
theorem uartInit_get32 {a : BitVec 32} (hi : uartInit[n]? = some (.get32 a)) :
    a ≠ uartIo ∧ a ≠ uartLsr := by
  have hmem := List.mem_of_getElem? hi
  simp only [uartInit, initGpio, disableTxrx, setBaudrate, setBitmode, clearFifoQueues, enableTxrx,
    List.cons_append, List.nil_append, List.mem_cons, List.not_mem_nil, reduceCtorEq,
    Instr.get32.injEq, or_false, false_or] at hmem
  obtain rfl | rfl | rfl | rfl | rfl := hmem <;> decide

/-- No store sends, and only the eleventh access is to `iir`. -/
theorem uartInit_put32 {a : BitVec 32} {f : BitVec 32 → BitVec 32}
    (hi : uartInit[n]? = some (.put32 a f)) : a ≠ uartIo ∧ (a = iir → n = 10) := by
  have hn : n < 13 := by
    by_contra hge
    rw [List.getElem?_eq_none (Nat.not_lt.mp hge)] at hi
    cases hi
  interval_cases n <;> cases hi <;> simp [uartIo, auxenb, cntl, baud, lcr, iir]

/-- Storing to `iir` with both bits set clears both FIFOs. -/
theorem Device.put32_clearFifos (d : Device) (v : BitVec 32) :
    d.put32 iir (v ||| clearFifos) = { d with rx := [], tx := [] } := by
  have hbits : (v ||| clearFifos).getLsbD 1 = true ∧ (v ||| clearFifos).getLsbD 2 = true := by
    simp [clearFifos]
  rw [Device.put32, if_neg (by decide), if_pos rfl, hbits.1, hbits.2]
  rfl

/-- Every step, of whatever part, leaves the code where it is or one access further. -/
theorem InitAt.step {e : Event} (h : InitAt g r t n c) (hn : n < 13)
    (hstep : System.Step M N c e c') : InitAt g r t (n + if e = .cpu then 1 else 0) c' := by
  obtain ⟨i, is, hi, rfl, hcpu⟩ := h.exists_instr hn
  -- the FIFOs can give or take bytes only before the UART is disabled
  have hoff : 11 ≤ n → c.uart.rxEnabled = false ∧ c.uart.txEnabled = false := fun hlast =>
    stateAt_disabled (g := g) (r := r) (by omega) hn (congrArg Prod.snd h.regs)
  have hclear : n = 10 → i = .put32 iir fun reg => reg ||| clearFifos := by
    rintro rfl
    cases hi
    rfl
  have hfifos := h.fifos
  have hlate : n ≠ 10 → 10 ≤ n → c.uart.rx = [] ∧ c.uart.tx = [] := fun hne hge =>
    hfifos (by omega)
  obtain ⟨s, p, g₁, d, x, y⟩ := c
  simp only at hcpu hfifos hoff hlate
  subst hcpu
  cases hstep with
  | unixSend _ => exact ⟨h.le, h.cpu, h.regs, h.fifos⟩
  | unixRecv _ => exact ⟨h.le, h.cpu, h.regs, h.fifos⟩
  | setFunction => exact h.access hn hi rfl (hlate fun hten => nomatch hclear hten)
  | @get32 _ _ _ _ _ _ a =>
    obtain ⟨hio, hlsr⟩ := uartInit_get32 hi
    have hload : d.get32 a = (d.regs a, d) := by rw [Device.get32, if_neg hio, if_neg hlsr]
    rw [hload]
    exact h.access hn hi rfl (hlate fun hten => nomatch hclear hten)
  | @put32 _ _ _ _ _ _ a _ f =>
    obtain ⟨hio, hten⟩ := uartInit_put32 hi
    by_cases hiir : a = iir
    · obtain ⟨rfl, rfl⟩ := Instr.put32.inj (hclear (hten hiir))
      rw [Device.put32_clearFifos]
      exact h.access hn hi rfl fun _ => ⟨rfl, rfl⟩
    · have hne : n ≠ 10 := fun hn' => hiir (Instr.put32.inj (hclear hn')).1
      rw [Device.put32, if_neg hio, if_neg hiir]
      exact h.access hn hi (by rw [Instr.exec, if_neg hiir]) (hlate hne)
  | shiftOut henabled _ _ _ =>
    exact ⟨h.le, h.cpu, h.regs, fun hlast => nomatch (hoff hlast).2.symm.trans henabled⟩
  | shiftIn henabled _ _ _ =>
    exact ⟨h.le, h.cpu, h.regs, fun hlast => nomatch (hoff hlast).1.symm.trans henabled⟩
  | lost _ => exact ⟨h.le, h.cpu, h.regs, h.fifos⟩
  | overrun _ _ _ => exact ⟨h.le, h.cpu, h.regs, h.fifos⟩
  | cts => exact ⟨h.le, h.cpu, h.regs, h.fifos⟩

/-- A run makes as many accesses as the CPU takes steps, or comes to the end of the code. -/
theorem InitAt.run {as : List Event} (h : InitAt g r t n c) (hrun : Run (System.Step M N) c as c') :
    InitAt g r t (n + as.count .cpu) c' ∨
      ∃ pre post c₀, as = pre ++ post ∧ n + pre.count .cpu = 13 ∧ InitAt g r t 13 c₀ ∧
        Run (System.Step M N) c pre c₀ ∧ Run (System.Step M N) c₀ post c' := by
  induction hrun generalizing n with
  | nil c => exact .inl h
  | @cons c c₁ c' e as hstep htail ih =>
    obtain hn | hn := h.le.lt_or_eq
    · obtain h' | ⟨pre, post, c₀, rfl, hcount, h₀, hpre, hpost⟩ := ih (h.step hn hstep)
      · left
        rw [List.count_cons, Nat.add_comm (as.count _), ← Nat.add_assoc]
        simpa using h'
      · refine .inr ⟨e :: pre, post, c₀, rfl, ?_, h₀, .cons hstep hpre, hpost⟩
        rw [List.count_cons, Nat.add_comm (pre.count _), ← Nat.add_assoc]
        simpa using hcount
    · subst hn
      exact .inr ⟨[], e :: as, c, rfl, rfl, h, .nil c, .cons hstep htail⟩

end

/-- In every run with thirteen steps of the CPU, of which the first thirteen are those of
`uart_init`, the code comes to its end and has configured the UART. -/
theorem exists_configured {s : σ} {t : τ} {g : Gpio} {d : Device} {x y : List (BitVec 8)}
    {as : List Event} {c : System σ τ} (hrun : Run (System.Step M N) (start s t g d x y) as c)
    (hcount : 13 ≤ as.count .cpu) :
    ∃ pre post c₀, as = pre ++ post ∧ pre.count .cpu = 13 ∧
      Run (System.Step M N) (start s t g d x y) pre c₀ ∧ Run (System.Step M N) c₀ post c ∧
      c₀.cpu = .poll t ∧ Configured g d.regs c₀.gpio c₀.uart := by
  have h : InitAt g d.regs t 0 (start s t g d x y) :=
    ⟨by decide, rfl, rfl, fun hlast => nomatch hlast⟩
  have hend : ∀ {c₀ : System σ τ}, InitAt g d.regs t 13 c₀ →
      c₀.cpu = .poll t ∧ Configured g d.regs c₀.gpio c₀.uart := fun h₀ =>
    ⟨h₀.cpu, stateAt_end h₀.regs (h₀.fifos (by decide)).1 (h₀.fifos (by decide)).2⟩
  obtain h' | ⟨pre, post, c₀, has, hpre, h₀, hrun₀, hpost⟩ := h.run hrun
  · have heq : 0 + as.count .cpu = 13 := by
      have hle := h'.le
      omega
    rw [heq] at h'
    exact ⟨as, [], c, by simp, by omega, hrun, .nil c, hend h'⟩
  · exact ⟨pre, post, c₀, has, by omega, hrun₀, hpost, hend h₀⟩

end RpiVm.Uart