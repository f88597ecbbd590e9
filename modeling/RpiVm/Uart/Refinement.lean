import RpiVm.Uart.Init

/-!
# The UART as two channels

Once it is configured the UART is invisible: with its FIFOs and loops, the two programs do what
they would do on channels that lose nothing, and everything they could do there. The exception
is a byte that arrives while the receive FIFO is full. `uart_init` leaves three things as they
are, which have to be off: `DLAB`, the break and flow control.
-/

namespace RpiVm.Uart

open CLib Channel Transition

variable {σ τ : Type*} {M : Machine (BitVec 8) σ} {N : Machine (BitVec 8) τ}

/-- What `uart_init` does not turn off is off. -/
structure Plain (r : BitVec 32 → BitVec 32) : Prop where
  /-- `DLAB`. -/
  dlab : (r lcr).getLsbD 7 = false
  /-- The break. -/
  noBreak : (r lcr).getLsbD 6 = false
  /-- Flow control by CTS. -/
  flow : (r cntl).getLsbD 3 = false

/-- The UART is on and connected, and the two sides agree on the symbols. -/
structure Device.On (d : Device) (g : Gpio) : Prop where
  /-- The receiver is enabled. -/
  rx : d.rxEnabled = true
  /-- The transmitter is enabled. -/
  tx : d.txEnabled = true
  /-- The pin for receiving. -/
  rx_pin : Connected g gpioRx
  /-- The pin for sending. -/
  tx_pin : Connected g gpioTx
  /-- The symbols. -/
  agrees : d.Agrees
  /-- What `uart_init` leaves. -/
  plain : Plain d.regs

/-- This is about the registers. -/
theorem Device.On.of_regs {d d' : Device} {g : Gpio} (h : d.On g) (hregs : d'.regs = d.regs) :
    d'.On g := by
  refine ⟨?_, ?_, h.rx_pin, h.tx_pin, ?_, hregs ▸ h.plain⟩
  · rw [rxEnabled, hregs]
    exact h.rx
  · rw [txEnabled, hregs]
    exact h.tx
  · rw [Agrees, hregs]
    exact h.agrees

/-- The transmitter does not wait. -/
theorem Device.On.waits {d : Device} {g : Gpio} (h : d.On g) : d.waits = false := by
  rw [Device.waits, h.plain.flow]
  rfl

/-- So `uart_init` leaves it. -/
theorem Configured.on {g g' : Gpio} {r : BitVec 32 → BitVec 32} {d : Device}
    (h : Configured g r g' d) (hplain : Plain r) : d.On g' := by
  have hauxenb : (d.regs Uart.auxenb).getLsbD 0 = true := by simp [h.auxenb]
  have hcntl : (d.regs Uart.cntl).getLsbD 0 = true ∧ (d.regs Uart.cntl).getLsbD 1 = true := by
    simp [h.cntl, txEnable, rxEnable]
  have hbreak : (d.regs Uart.lcr).getLsbD 6 = false := by
    rw [h.lcr, BitVec.getLsbD_or, hplain.noBreak]
    rfl
  refine ⟨?_, ?_, h.rx_pin, h.tx_pin, ⟨?_, hbreak, h.baud⟩, ?_, hbreak, ?_⟩
  · rw [Device.rxEnabled, hauxenb, hcntl.1]
    rfl
  · rw [Device.txEnabled, hauxenb, hcntl.2]
    rfl
  · rw [h.lcr, BitVec.extractLsb'_or]
    exact BitVec.or_allOnes
  · rw [h.lcr, BitVec.getLsbD_or, hplain.dlab]
    rfl
  · rw [h.cntl, BitVec.getLsbD_or, BitVec.getLsbD_or, BitVec.getLsbD_and, hplain.flow]
    rfl

/-- The bit that a loop waits for: there is room for a byte to be sent, or a byte has been
received. -/
def Device.Ready (d : Device) : Action (BitVec 8) τ → Prop
  | .send _ _ => d.tx.length < fifoSize
  | .recv _ => d.rx ≠ []
  | .halt => False

/-- The system, without UART. -/
structure Abs (N : Machine (BitVec 8) τ) (c : System σ τ) (n : Net (BitVec 8) σ τ) : Prop where
  /-- The UART is on. -/
  on : c.uart.On c.gpio
  /-- The transmit FIFO is not overfull. -/
  room : c.uart.tx.length ≤ fifoSize
  /-- The UNIX side. -/
  left : c.left = n.left
  /-- The Pi, in one of the loops or just behind it. -/
  cpu : c.cpu = .poll n.right ∨ c.cpu = .ready n.right ∧ c.uart.Ready (N n.right)
  /-- What the Pi will receive. -/
  toRight : c.uart.rx ++ c.toRight = n.toRight
  /-- What the UNIX side will receive. -/
  toLeft : c.toLeft ++ c.uart.tx = n.toLeft

/-! ## The registers -/

/-- Of the line status, the code looks at two bits. -/
theorem Device.status_and (d : Device) {w : BitVec 32}
    (hw : ~~~(rxReady ||| txEmpty) &&& w = 0#32) :
    d.status &&& w = (if d.rx = [] then 0 else rxReady &&& w) |||
      if d.tx.length < fifoSize then txEmpty &&& w else 0 := by
  have hignored : d.regs uartLsr &&& ~~~(rxReady ||| txEmpty) &&& w = 0 := by
    rw [BitVec.and_assoc, hw, BitVec.and_zero]
    rfl
  rw [status, BitVec.and_or_distrib_right, BitVec.and_or_distrib_right, hignored]
  split_ifs <;> simp

/-- Room in one FIFO and bytes in the other stay. -/
theorem Device.Ready.mono {d d' : Device} {a : Action (BitVec 8) τ} (h : d.Ready a)
    (htx : d'.tx.length ≤ d.tx.length) (hrx : d.rx ≠ [] → d'.rx ≠ []) : d'.Ready a := by
  cases a with
  | send => exact htx.trans_lt h
  | recv => exact hrx h
  | halt => exact h

/-- The status tells whether a byte can be sent. -/
theorem Device.status_txEmpty (d : Device) :
    d.status &&& txEmpty = 0 ↔ ¬ d.tx.length < fifoSize := by
  rw [d.status_and (by decide)]
  split_ifs with hrx htx htx <;> simp [htx] <;> decide

/-- The status tells whether a byte has been received. -/
theorem Device.status_rxReady (d : Device) : d.status &&& rxReady = 0 ↔ d.rx = [] := by
  rw [d.status_and (by decide)]
  split_ifs with hrx htx htx <;> simp [hrx] <;> decide

/-- A load of the line status. -/
theorem Device.get32_lsr (d : Device) : d.get32 uartLsr = (d.status, d) := by
  rw [Device.get32, if_neg (by decide), if_pos rfl]

/-- A load that receives. -/
theorem Device.get32_io {d : Device} {b : BitVec 8} {rx : List (BitVec 8)} (hdlab : d.dlab = false)
    (h : d.rx = b :: rx) :
    ((d.get32 uartIo).1 &&& 0xff).setWidth 8 = b ∧ (d.get32 uartIo).2 = { d with rx := rx } := by
  rw [Device.get32, if_pos rfl, if_neg (by simp [hdlab]), h]
  refine ⟨?_, rfl⟩
  rw [setWidth_mask, BitVec.setWidth_append]
  simp

/-- A store that sends. -/
theorem Device.put32_io {d : Device} (hdlab : d.dlab = false) (h : d.tx.length < fifoSize)
    (c : BitVec 8) : d.put32 uartIo (c.setWidth 32 &&& 0xff) = { d with tx := d.tx ++ [c] } := by
  rw [Device.put32, if_pos rfl, if_neg (by simp [hdlab]), if_pos h, setWidth_mask,
    BitVec.setWidth_setWidth_of_le _ (by decide), BitVec.setWidth_eq]

/-! ## What the programs can do on channels -/

/-- Every step but a lost byte is a step on the channels, or none. -/
theorem Abs.step {c c' : System σ τ} {n : Net (BitVec 8) σ τ} {e : Event} (h : Abs N c n)
    (hstep : System.Step M N c e c') (he : e ≠ .overrun) :
    Abs N c' n ∨ ∃ side n', Net.Step M N n side n' ∧ Abs N c' n' := by
  obtain ⟨hon, hroom, hleft, hcpu, hx, hy⟩ := h
  obtain ⟨s, t, x', y'⟩ := n
  simp only at hleft hcpu hx hy hroom
  subst hleft hx hy
  cases hstep with
  | unixSend hM =>
    exact .inr ⟨.left, _, .leftSend hM, hon, hroom, rfl, hcpu, (List.append_assoc _ _ _).symm, rfl⟩
  | unixRecv hM => exact .inr ⟨.left, _, .leftRecv hM, hon, hroom, rfl, hcpu, rfl, rfl⟩
  | setFunction => simp at hcpu
  | get32 => simp at hcpu
  | put32 => simp at hcpu
  | putcLoop hN =>
    left
    obtain rfl : _ = t := by simpa using hcpu
    rw [Device.get32_lsr]
    split_ifs with hloop
    · exact ⟨hon, hroom, rfl, .inl rfl, rfl, rfl⟩
    · refine ⟨hon, hroom, rfl, .inr ⟨rfl, ?_⟩, rfl, rfl⟩
      simp only [hN]
      exact not_not.mp (mt (Device.status_txEmpty _).mpr hloop)
  | putc hN =>
    right
    obtain ⟨rfl, hready⟩ : _ = t ∧ _ := by simpa using hcpu
    simp only [hN] at hready
    rw [Device.put32_io hon.plain.dlab hready]
    have hroom' := Nat.succ_le_of_lt hready
    exact ⟨.right, _, .rightSend hN, hon.of_regs rfl, by simpa using hroom', rfl,
      .inl rfl, rfl, by simp⟩
  | getcLoop hN =>
    left
    obtain rfl : _ = t := by simpa using hcpu
    rw [Device.get32_lsr]
    split_ifs with hloop
    · exact ⟨hon, hroom, rfl, .inl rfl, rfl, rfl⟩
    · refine ⟨hon, hroom, rfl, .inr ⟨rfl, ?_⟩, rfl, rfl⟩
      simp only [hN]
      exact mt (Device.status_rxReady _).mpr hloop
  | getc hN =>
    right
    obtain ⟨rfl, hready⟩ : _ = t ∧ _ := by simpa using hcpu
    simp only [hN] at hready
    obtain ⟨b, rx, hrx⟩ := List.exists_cons_of_ne_nil hready
    obtain ⟨hb, hd⟩ := Device.get32_io hon.plain.dlab hrx
    rw [hb, hd, hrx]
    exact ⟨.right, _, .rightRecv hN, hon.of_regs rfl, hroom, rfl, .inl rfl, rfl, rfl⟩
  | shiftOut henabled hcts htx hbs =>
    left
    obtain rfl := hbs hon.agrees
    rw [htx] at hroom
    rw [if_pos hon.tx_pin]
    refine ⟨hon.of_regs rfl, Nat.le_of_succ_le hroom, rfl, ?_, rfl, by simp [htx]⟩
    exact hcpu.imp_right fun ⟨hcode, hready⟩ => ⟨hcode, hready.mono (by simp [htx]) id⟩
  | shiftIn henabled hconnected hbs hspace =>
    left
    obtain rfl := hbs hon.agrees
    refine ⟨hon.of_regs rfl, hroom, rfl, ?_, by simp, rfl⟩
    exact hcpu.imp_right fun ⟨hcode, hready⟩ => ⟨hcode, hready.mono le_rfl (by simp)⟩
  | lost hoff => exact absurd ⟨hon.rx, hon.rx_pin⟩ hoff
  | overrun henabled hconnected hfull => exact absurd rfl he
  | cts =>
    left
    exact ⟨hon.of_regs rfl, hroom, rfl, hcpu, rfl, rfl⟩

/-! ## What they could do on channels -/

/-- Steps at which no byte is lost. -/
def Lossless (M : Machine (BitVec 8) σ) (N : Machine (BitVec 8) τ) (c : System σ τ) (e : Event)
    (c' : System σ τ) : Prop := System.Step M N c e c' ∧ e ≠ .overrun

/-- A byte leaves the transmit FIFO. -/
theorem Abs.shiftOut {c : System σ τ} {n : Net (BitVec 8) σ τ} (h : Abs N c n)
    {b : BitVec 8} {tx : List (BitVec 8)} (htx : c.uart.tx = b :: tx) :
    ∃ c', Lossless M N c .shiftOut c' ∧ Abs N c' n ∧ c'.toLeft ≠ [] ∧ c'.uart.tx = tx := by
  obtain ⟨s, p, g, ⟨regs, rx, tx', cts⟩, x, y⟩ := c
  obtain rfl : tx' = b :: tx := htx
  have hstep : System.Step M N ⟨s, p, g, ⟨regs, rx, b :: tx, cts⟩, x, y⟩ .shiftOut _ :=
    .shiftOut h.on.tx h.on.waits rfl fun _ => rfl
  rw [if_pos h.on.tx_pin] at hstep
  refine ⟨_, ⟨hstep, by simp⟩, ⟨h.on.of_regs rfl, Nat.le_of_succ_le h.room, h.left,
    ?_, h.toRight, ?_⟩, by simp, rfl⟩
  · exact h.cpu.imp_right fun ⟨hcode, hready⟩ => ⟨hcode, hready.mono (by simp) id⟩
  · simpa using h.toLeft

/-- A byte enters the receive FIFO. -/
theorem Abs.shiftIn {c : System σ τ} {n : Net (BitVec 8) σ τ} (h : Abs N c n)
    {b : BitVec 8} {x : List (BitVec 8)} (hx : c.toRight = b :: x) (hrx : c.uart.rx = []) :
    ∃ c', Lossless M N c .shiftIn c' ∧ Abs N c' n ∧ c'.uart.rx ≠ [] := by
  obtain ⟨s, p, g, ⟨regs, rx, tx, cts⟩, x', y⟩ := c
  obtain rfl : x' = b :: x := hx
  obtain rfl : rx = [] := hrx
  refine ⟨_, ⟨.shiftIn h.on.rx h.on.rx_pin (fun _ => rfl) (by simp [fifoSize]), by simp⟩,
    ⟨h.on.of_regs rfl, h.room, h.left, ?_, h.toRight, h.toLeft⟩, by simp⟩
  exact h.cpu.imp_right fun ⟨hcode, hready⟩ => ⟨hcode, hready.mono le_rfl (by simp)⟩

/-- A byte that is under way to the UNIX side comes to the end of the line. -/
theorem Abs.exists_toLeft {c : System σ τ} {n : Net (BitVec 8) σ τ} (h : Abs N c n)
    (hne : n.toLeft ≠ []) : ∃ as c', Run (Lossless M N) c as c' ∧ Abs N c' n ∧ c'.toLeft ≠ [] := by
  by_cases hy : c.toLeft = []
  · have htx : c.uart.tx ≠ [] := by simpa [hy, ← h.toLeft] using hne
    obtain ⟨b, tx, htx⟩ := List.exists_cons_of_ne_nil htx
    obtain ⟨c', hstep, h', hy', _⟩ := h.shiftOut (M := M) htx
    exact ⟨[.shiftOut], c', .cons hstep (.nil c'), h', hy'⟩
  · exact ⟨[], c, .nil c, h, hy⟩

/-- The bit that a loop waits for comes. -/
theorem Abs.exists_uart_ready {c : System σ τ} {n : Net (BitVec 8) σ τ} (h : Abs N c n)
    (hhalt : N n.right ≠ .halt) (hrecv : ∀ f, N n.right = .recv f → n.toRight ≠ []) :
    ∃ as c', Run (Lossless M N) c as c' ∧ Abs N c' n ∧ c'.uart.Ready (N n.right) := by
  cases hN : N n.right with
  | halt => exact absurd hN hhalt
  | send a t =>
    cases htx : c.uart.tx with
    | nil => exact ⟨[], c, .nil c, h, by simp [Device.Ready, htx, fifoSize]⟩
    | cons b tx =>
      obtain ⟨c', hstep, h', _, htx'⟩ := h.shiftOut (M := M) htx
      have hroom := h.room
      rw [htx] at hroom
      refine ⟨[.shiftOut], c', .cons hstep (.nil c'), h', ?_⟩
      rw [Device.Ready, htx']
      exact hroom
  | recv f =>
    by_cases hrx : c.uart.rx = []
    · have hx : c.toRight ≠ [] := by simpa [hrx, ← h.toRight] using hrecv f hN
      obtain ⟨b, x, hx⟩ := List.exists_cons_of_ne_nil hx
      obtain ⟨c', hstep, h', hrx'⟩ := h.shiftIn (M := M) hx hrx
      exact ⟨[.shiftIn], c', .cons hstep (.nil c'), h', hrx'⟩
    · exact ⟨[], c, .nil c, h, hrx⟩

/-- The Pi comes to where it sends or receives, when there is a byte to receive. -/
theorem Abs.exists_ready {c : System σ τ} {n : Net (BitVec 8) σ τ} (h : Abs N c n)
    (hhalt : N n.right ≠ .halt) (hrecv : ∀ f, N n.right = .recv f → n.toRight ≠ []) :
    ∃ as c', Run (Lossless M N) c as c' ∧ Abs N c' n ∧ c'.cpu = .ready n.right ∧
      c'.uart.Ready (N n.right) := by
  obtain ⟨as, ⟨s, p, g, d, x, y⟩, hrun, ⟨hon, hroom, hleft, hcpu, hx, hy⟩, hready⟩ :=
    h.exists_uart_ready (M := M) hhalt hrecv
  obtain rfl | ⟨rfl, _⟩ := hcpu
  · have hloop : Lossless M N ⟨s, .poll n.right, g, d, x, y⟩ .cpu
        ⟨s, .ready n.right, g, d, x, y⟩ := by
      refine ⟨?_, by simp⟩
      cases hN : N n.right with
      | halt => exact absurd hN hhalt
      | send a t =>
        rw [hN] at hready
        have hstep := System.Step.putcLoop (M := M) (s := s) (g := g) (d := d) (x := x) (y := y) hN
        rwa [Device.get32_lsr, if_neg (mt d.status_txEmpty.mp (not_not.mpr hready))] at hstep
      | recv f =>
        rw [hN] at hready
        have hstep := System.Step.getcLoop (M := M) (s := s) (g := g) (d := d) (x := x) (y := y) hN
        rwa [Device.get32_lsr, if_neg (mt d.status_rxReady.mp hready)] at hstep
    refine ⟨as ++ [.cpu], ⟨s, .ready n.right, g, d, x, y⟩, hrun.snoc hloop, ?_, rfl, hready⟩
    exact ⟨hon, hroom, hleft, .inr ⟨rfl, hready⟩, hx, hy⟩
  · exact ⟨as, _, hrun, ⟨hon, hroom, hleft, .inr ⟨rfl, hready⟩, hx, hy⟩, rfl, hready⟩

/-- Every step on the channels is a run of the system. -/
theorem Abs.lift {c : System σ τ} {n n' : Net (BitVec 8) σ τ} {side : Side} (h : Abs N c n)
    (hstep : Net.Step M N n side n') : ∃ as c', Run (Lossless M N) c as c' ∧ Abs N c' n' := by
  cases hstep with
  | @leftSend s s' t x y a hM =>
    obtain ⟨s₀, p, g, d, x', y'⟩ := c
    obtain ⟨hon, hroom, rfl, hcpu, rfl, hy⟩ := h
    exact ⟨[.unix], _, .cons ⟨.unixSend hM, by simp⟩ (.nil _), hon, hroom, rfl, hcpu,
      (List.append_assoc _ _ _).symm, hy⟩
  | @leftRecv s t x y a f hM =>
    obtain ⟨as, ⟨s₀, p, g, d, x', y'⟩, hrun, ⟨hon, hroom, hleft, hcpu, hx, hy⟩, hne⟩ :=
      h.exists_toLeft (M := M) (by simp)
    simp only at hleft hcpu hx hy hne
    subst hleft hx
    obtain ⟨b, y', rfl⟩ := List.exists_cons_of_ne_nil hne
    obtain ⟨rfl, rfl⟩ := List.cons.inj hy
    refine ⟨as ++ [.unix], _, hrun.snoc ⟨.unixRecv hM, by simp⟩, ?_⟩
    exact ⟨hon, hroom, rfl, hcpu, rfl, rfl⟩
  | @rightSend s t t' x y a hN =>
    obtain ⟨as, ⟨s₀, p, g, d, x', y'⟩, hrun, ⟨hon, _, hleft, _, hx, hy⟩, hcpu, hready⟩ :=
      h.exists_ready (M := M) (by simp [hN]) (by simp [hN])
    simp only [hN] at hleft hcpu hx hy hready
    subst hleft hx hy hcpu
    have hstep : System.Step M N ⟨s₀, .ready t, g, d, x', y'⟩ .cpu _ := .putc hN
    rw [Device.put32_io hon.plain.dlab hready] at hstep
    have hroom := Nat.succ_le_of_lt hready
    refine ⟨as ++ [.cpu], _, hrun.snoc ⟨hstep, by simp⟩, ?_⟩
    exact ⟨hon.of_regs rfl, by simpa using hroom, rfl, .inl rfl, rfl, by simp⟩
  | @rightRecv s t x y a f hN =>
    obtain ⟨as, ⟨s₀, p, g, d, x', y'⟩, hrun, ⟨hon, hroom, hleft, _, hx, hy⟩, hcpu, hready⟩ :=
      h.exists_ready (M := M) (by simp [hN]) (by simp)
    simp only [hN] at hleft hcpu hx hy hready
    subst hleft hy hcpu
    obtain ⟨b, rx, hrx⟩ := List.exists_cons_of_ne_nil hready
    obtain ⟨hb, hd⟩ := Device.get32_io hon.plain.dlab hrx
    have hstep : System.Step M N ⟨s₀, .ready t, g, d, x', y'⟩ .cpu _ := .getc hN
    rw [hb, hd] at hstep
    rw [hrx] at hx
    obtain ⟨rfl, rfl⟩ := List.cons.inj hx
    refine ⟨as ++ [.cpu], _, hrun.snoc ⟨hstep, by simp⟩, ?_⟩
    exact ⟨hon.of_regs rfl, hroom, rfl, .inl rfl, rfl, rfl⟩

/-! ## The whole -/

/-- A run at which no byte is lost. -/
theorem lossless {c c' : System σ τ} {as : List Event} (hrun : Run (System.Step M N) c as c')
    (has : .overrun ∉ as) : Run (Lossless M N) c as c' := by
  induction hrun with
  | nil c => exact .nil c
  | cons hstep _ ih =>
    rw [List.mem_cons, not_or] at has
    exact .cons ⟨hstep, Ne.symm has.1⟩ (ih has.2)

/-- Such a run is a run. -/
theorem of_lossless {c c' : System σ τ} {as : List Event} (hrun : Run (Lossless M N) c as c') :
    Run (System.Step M N) c as c' ∧ .overrun ∉ as := by
  induction hrun with
  | nil c => exact ⟨.nil c, by simp⟩
  | cons hstep _ ih => exact ⟨.cons hstep.1 ih.1, by simp [hstep.2.symm, ih.2]⟩

/-- However a run starts, with `DLAB`, break and flow control off, after thirteen steps of the CPU
there is a system of channels that the UART stands for: without an overrun every run on is one on
the channels, and every run on the channels is one of the system. -/
theorem uart_refines {s : σ} {t : τ} {g : Gpio} {d : Device} (hplain : Plain d.regs)
    {x y : List (BitVec 8)} {as : List Event} {c : System σ τ}
    (hrun : Run (System.Step M N) (start s t g d x y) as c)
    (hcount : 13 ≤ as.count .cpu) :
    ∃ pre post c₀, as = pre ++ post ∧ pre.count .cpu = 13 ∧
      Run (System.Step M N) (start s t g d x y) pre c₀ ∧ Run (System.Step M N) c₀ post c ∧
      Configured g d.regs c₀.gpio c₀.uart ∧
      (.overrun ∉ post → ∃ sides n,
        Run (Net.Step M N) ⟨c₀.left, t, c₀.toRight, c₀.toLeft⟩ sides n ∧ Abs N c n) ∧
      ∀ sides n, Run (Net.Step M N) ⟨c₀.left, t, c₀.toRight, c₀.toLeft⟩ sides n →
        ∃ bs c', Run (System.Step M N) c₀ bs c' ∧ .overrun ∉ bs ∧ Abs N c' n := by
  obtain ⟨pre, post, c₀, has, hpre, hrun₀, hpost, hcpu, hconf⟩ := exists_configured hrun hcount
  have h₀ : Abs N c₀ ⟨c₀.left, t, c₀.toRight, c₀.toLeft⟩ :=
    ⟨hconf.on hplain, by simp [hconf.tx], rfl, .inl hcpu, by simp [hconf.rx], by simp [hconf.tx]⟩
  refine ⟨pre, post, c₀, has, hpre, hrun₀, hpost, hconf, ?_, ?_⟩
  · intro hlost
    exact (lossless hpost hlost).simulate (fun _ _ _ _ h hstep => h.step hstep.1 hstep.2) h₀
  · intro sides n hnet
    obtain ⟨bs, c', hrun', h'⟩ := hnet.lift (fun _ _ _ _ h hstep => h.lift (M := M) hstep) h₀
    obtain ⟨hrun', hlost⟩ := of_lossless hrun'
    exact ⟨bs, c', hrun', hlost, h'⟩

/-- A byte that the Pi sends after `uart_init`. -/
theorem uart_refines_byte :
    ∃ as c, Run (System.Step (fun s : Option (BitVec 8) => s.elim (.recv some) fun _ => .halt)
        fun t : Bool => bif t then .send 0x41 false else .halt)
      (start none true ⟨fun _ => 0, []⟩ ⟨fun _ => 0, [0x0a], [0x0d], true⟩ [] []) as c ∧
        c.left = some 0x41 := by
  have hinit : Run (System.Step (fun s : Option (BitVec 8) => s.elim (.recv some) fun _ => .halt)
      fun t : Bool => bif t then .send 0x41 false else .halt)
      (start none true ⟨fun _ => 0, []⟩ ⟨fun _ => 0, [0x0a], [0x0d], true⟩ [] [])
        (List.replicate 13 .cpu) _ :=
    .cons .setFunction (.cons .setFunction (.cons .get32 (.cons .put32 (.cons .get32 (.cons .put32
      (.cons .put32 (.cons .get32 (.cons .put32 (.cons .get32 (.cons .put32 (.cons .get32
        (.cons .put32 (.nil _)))))))))))))
  obtain ⟨pre, post, c₀, has, hcount, hpre, hpost, _, _, hlift⟩ :=
    uart_refines ⟨rfl, rfl, rfl⟩ hinit (by simp)
  have hpost' : post = [] := by
    have hle := pre.count_le_length (a := .cpu)
    have hlen := congrArg List.length has
    rw [List.length_append, List.length_replicate] at hlen
    exact List.eq_nil_of_length_eq_zero (by omega)
  subst hpost'
  cases hpost
  obtain ⟨bs, c, hrun, _, h⟩ := hlift [.right, .left] _
    (.cons (.rightSend rfl) (.cons (.leftRecv rfl) (.nil _)))
  exact ⟨_, c, hpre.append hrun, h.left⟩

end RpiVm.Uart
