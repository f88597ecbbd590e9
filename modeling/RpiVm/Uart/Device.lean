import RpiVm.Fault.Reboot
import RpiVm.Gpio
import RpiVm.Lib.Recording

/-!
# The UART

The registers of the mini UART with its two FIFOs, `my-uart.c` access by access, and the Pi,
the UART, the line and the UNIX side as one system. Bytes leave the transmit FIFO and arrive
in the receive FIFO at any time between two accesses, and as anything while the two sides do not
agree on the symbols.
-/

namespace RpiVm.Uart

open CLib Channel Transition

/-! ## The device -/

/-- `AUX_BASE + AUX_ENABLES_OFST`. -/
def auxenb : BitVec 32 := 0x20210000 + 0x5004

/-- `&uart->iir`. -/
def iir : BitVec 32 := 0x20215048

/-- `&uart->lcr`. -/
def lcr : BitVec 32 := 0x2021504c

/-- `&uart->cntl`. -/
def cntl : BitVec 32 := 0x20215060

/-- `&uart->baud`. -/
def baud : BitVec 32 := 0x20215068

/-- `RX_READY`. -/
def rxReady : BitVec 32 := 1

/-- `RX_ENABLE`. -/
def rxEnable : BitVec 32 := 1#32 <<< 0

/-- `TX_ENABLE`. -/
def txEnable : BitVec 32 := 1#32 <<< 1

/-- `CLEAR_FIFOS`. -/
def clearFifos : BitVec 32 := 1#32 <<< 1 ||| 1#32 <<< 2

/-- `BAUDRATE_REG_VAL`. -/
def baudrateRegVal : BitVec 32 := 270

/-- The bytes that each FIFO holds. -/
def fifoSize : ℕ := 8

/-- The device. -/
structure Device where
  /-- The words in the registers. -/
  regs : BitVec 32 → BitVec 32
  /-- The receive FIFO. -/
  rx : List (BitVec 8)
  /-- The transmit FIFO. -/
  tx : List (BitVec 8)
  /-- Whether the UNIX side asserts CTS. -/
  cts : Bool

namespace Device

/-- `DLAB`: accesses to `io` are to the low byte of the baud rate. -/
def dlab (d : Device) : Bool := (d.regs lcr).getLsbD 7

/-- The line status: whether a byte has been received, whether there is room for one to be
sent, and bits that the code does not look at. -/
def status (d : Device) : BitVec 32 :=
  (d.regs uartLsr &&& ~~~(rxReady ||| txEmpty)) ||| (if d.rx = [] then 0 else rxReady) |||
    if d.tx.length < fifoSize then txEmpty else 0

/-- `get32`. A load of `io` takes a byte out of the receive FIFO. -/
def get32 (d : Device) (a : BitVec 32) : BitVec 32 × Device :=
  if a = uartIo then
    if d.dlab = true then
      ((d.regs uartIo).extractLsb' 8 24 ++ (d.regs baud).extractLsb' 0 8, d)
    else
      match d.rx with
      | [] => (d.regs uartIo, d)
      | b :: rx => ((d.regs uartIo).extractLsb' 8 24 ++ b, { d with rx := rx })
  else if a = uartLsr then (d.status, d)
  else (d.regs a, d)

/-- `put32`. A store to `io` puts a byte into the transmit FIFO, if there is room, and a store
to `iir` clears the FIFOs. -/
def put32 (d : Device) (a v : BitVec 32) : Device :=
  if a = uartIo then
    if d.dlab = true then
      { d with
        regs := Function.update d.regs baud ((d.regs baud).extractLsb' 8 24 ++ v.setWidth 8) }
    else if d.tx.length < fifoSize then { d with tx := d.tx ++ [v.setWidth 8] }
    else d
  else if a = iir then
    { d with
      rx := if v.getLsbD 1 then [] else d.rx
      tx := if v.getLsbD 2 then [] else d.tx }
  else { d with regs := Function.update d.regs a v }

/-- The receiver is enabled. -/
def rxEnabled (d : Device) : Bool := (d.regs auxenb).getLsbD 0 && (d.regs cntl).getLsbD 0

/-- The transmitter is enabled. -/
def txEnabled (d : Device) : Bool := (d.regs auxenb).getLsbD 0 && (d.regs cntl).getLsbD 1

/-- The transmitter waits for CTS. -/
def waits (d : Device) : Bool := (d.regs cntl).getLsbD 3 && !d.cts

/-- The symbols on the line are those of the UNIX side: eight bits, at its baud rate, and no
break. -/
def Agrees (d : Device) : Prop :=
  (d.regs lcr).extractLsb' 0 2 = 0b11 ∧ (d.regs lcr).getLsbD 6 = false ∧
    d.regs baud = baudrateRegVal

end Device

/-! ## The code -/

/-- `GPIO_FUNC_ALT5`. -/
def gpioFuncAlt5 : BitVec 32 := 2

/-- `GPIO_TX`. -/
def gpioTx : BitVec 32 := 14

/-- `GPIO_RX`. -/
def gpioRx : BitVec 32 := 15

/-- An access of the code. -/
inductive Instr where
  /-- `gpio_set_function(pin, function)`. -/
  | setFunction (pin function : BitVec 32)
  /-- `value = get32(a)`. -/
  | get32 (a : BitVec 32)
  /-- `put32(a, f(value))`. -/
  | put32 (a : BitVec 32) (f : BitVec 32 → BitVec 32)

/-- `init_gpio`. -/
def initGpio : List Instr := [.setFunction gpioTx gpioFuncAlt5, .setFunction gpioRx gpioFuncAlt5]

/-- `disable_txrx`. -/
def disableTxrx : List Instr :=
  [.get32 cntl, .put32 cntl fun value => value &&& ~~~(txEnable ||| rxEnable)]

/-- `enable_txrx`. -/
def enableTxrx : List Instr :=
  [.get32 cntl, .put32 cntl fun value => value ||| txEnable ||| rxEnable]

/-- `set_baudrate`. -/
def setBaudrate : List Instr := [.put32 baud fun _ => baudrateRegVal]

/-- `set_bitmode`. -/
def setBitmode : List Instr := [.get32 lcr, .put32 lcr fun value => value ||| 0b11]

/-- `clear_fifo_queues`. -/
def clearFifoQueues : List Instr := [.get32 iir, .put32 iir fun reg => reg ||| clearFifos]

/-- `uart_init`; barriers have no effect here. -/
def uartInit : List Instr :=
  initGpio ++ [.get32 auxenb, .put32 auxenb fun value => value ||| 1] ++ disableTxrx ++
    setBaudrate ++ setBitmode ++ clearFifoQueues ++ enableTxrx

/-- Where the program on the Pi is: it sends by `uart_putc` and receives by `uart_getc`. -/
inductive Cpu (τ : Type*) where
  /-- In `uart_init`, with the accesses that are left and the last value loaded. -/
  | init (i : Instr) (is : List Instr) (value : BitVec 32) (t : τ)
  /-- At the loop of `uart_putc` or `uart_getc`. -/
  | poll (t : τ)
  /-- Behind the loop. -/
  | ready (t : τ)

/-- Behind an access of `uart_init`. -/
def Cpu.afterInit {τ : Type*} (is : List Instr) (value : BitVec 32) (t : τ) : Cpu τ :=
  match is with
  | [] => .poll t
  | i :: is => .init i is value t

/-! ## The system -/

/-- The UNIX side, the Pi, and the line between them. -/
structure System (σ τ : Type*) where
  /-- The state of the UNIX side. -/
  left : σ
  /-- The program on the Pi. -/
  cpu : Cpu τ
  /-- The pins. -/
  gpio : Gpio
  /-- The UART. -/
  uart : Device
  /-- On the line to the Pi. -/
  toRight : List (BitVec 8)
  /-- On the line to the UNIX side. -/
  toLeft : List (BitVec 8)

/-- What happens. -/
inductive Event where
  /-- The UNIX side sends or receives. -/
  | unix
  /-- An access of the Pi. -/
  | cpu
  /-- A byte leaves the transmit FIFO. -/
  | shiftOut
  /-- A byte arrives, and the receive FIFO takes it or the receiver is off. -/
  | shiftIn
  /-- A byte arrives when the receive FIFO is full. -/
  | overrun
  /-- The UNIX side asserts CTS, or does not any more. -/
  | cts
  deriving DecidableEq, Repr

/-- A pin is connected to the UART. -/
def Connected (g : Gpio) (pin : BitVec 32) : Prop := g.selected pin = gpioFuncAlt5.setWidth 3

instance (g : Gpio) (pin : BitVec 32) : Decidable (Connected g pin) :=
  inferInstanceAs (Decidable (_ = _))

variable {σ τ : Type*}

/-- One step of the system. -/
inductive System.Step (M : Machine (BitVec 8) σ) (N : Machine (BitVec 8) τ) :
    System σ τ → Event → System σ τ → Prop
  | unixSend {s s' : σ} {p : Cpu τ} {g : Gpio} {d : Device} {x y : List (BitVec 8)} {a : BitVec 8}
      (hM : M s = .send a s') : Step M N ⟨s, p, g, d, x, y⟩ .unix ⟨s', p, g, d, x ++ [a], y⟩
  | unixRecv {s : σ} {p : Cpu τ} {g : Gpio} {d : Device} {x y : List (BitVec 8)} {a : BitVec 8}
      {f : BitVec 8 → σ} (hM : M s = .recv f) :
      Step M N ⟨s, p, g, d, x, a :: y⟩ .unix ⟨f a, p, g, d, x, y⟩
  | setFunction {s : σ} {t : τ} {g : Gpio} {d : Device} {x y : List (BitVec 8)}
      {pin function value : BitVec 32} {is : List Instr} :
      Step M N ⟨s, .init (.setFunction pin function) is value t, g, d, x, y⟩ .cpu
        ⟨s, .afterInit is value t, (gpioSetFunction pin function g).2, d, x, y⟩
  | get32 {s : σ} {t : τ} {g : Gpio} {d : Device} {x y : List (BitVec 8)} {a value : BitVec 32}
      {is : List Instr} :
      Step M N ⟨s, .init (.get32 a) is value t, g, d, x, y⟩ .cpu
        ⟨s, .afterInit is (d.get32 a).1 t, g, (d.get32 a).2, x, y⟩
  | put32 {s : σ} {t : τ} {g : Gpio} {d : Device} {x y : List (BitVec 8)} {a value : BitVec 32}
      {f : BitVec 32 → BitVec 32} {is : List Instr} :
      Step M N ⟨s, .init (.put32 a f) is value t, g, d, x, y⟩ .cpu
        ⟨s, .afterInit is value t, g, d.put32 a (f value), x, y⟩
  | putcLoop {s : σ} {t t' : τ} {g : Gpio} {d : Device} {x y : List (BitVec 8)} {c : BitVec 8}
      (hN : N t = .send c t') :
      Step M N ⟨s, .poll t, g, d, x, y⟩ .cpu
        ⟨s, if (d.get32 uartLsr).1 &&& txEmpty = 0 then .poll t else .ready t, g,
          (d.get32 uartLsr).2, x, y⟩
  | putc {s : σ} {t t' : τ} {g : Gpio} {d : Device} {x y : List (BitVec 8)} {c : BitVec 8}
      (hN : N t = .send c t') :
      Step M N ⟨s, .ready t, g, d, x, y⟩ .cpu
        ⟨s, .poll t', g, d.put32 uartIo (c.setWidth 32 &&& 0xff), x, y⟩
  | getcLoop {s : σ} {t : τ} {g : Gpio} {d : Device} {x y : List (BitVec 8)} {f : BitVec 8 → τ}
      (hN : N t = .recv f) :
      Step M N ⟨s, .poll t, g, d, x, y⟩ .cpu
        ⟨s, if (d.get32 uartLsr).1 &&& rxReady = 0 then .poll t else .ready t, g,
          (d.get32 uartLsr).2, x, y⟩
  | getc {s : σ} {t : τ} {g : Gpio} {d : Device} {x y : List (BitVec 8)} {f : BitVec 8 → τ}
      (hN : N t = .recv f) :
      Step M N ⟨s, .ready t, g, d, x, y⟩ .cpu
        ⟨s, .poll (f (((d.get32 uartIo).1 &&& 0xff).setWidth 8)), g, (d.get32 uartIo).2, x, y⟩
  | shiftOut {s : σ} {p : Cpu τ} {g : Gpio} {d : Device} {x y tx bs : List (BitVec 8)}
      {b : BitVec 8} (henabled : d.txEnabled = true) (hcts : d.waits = false)
      (htx : d.tx = b :: tx) (hbs : d.Agrees → bs = [b]) :
      Step M N ⟨s, p, g, d, x, y⟩ .shiftOut
        ⟨s, p, g, { d with tx := tx }, x, if Connected g gpioTx then y ++ bs else y⟩
  | shiftIn {s : σ} {p : Cpu τ} {g : Gpio} {d : Device} {x y bs : List (BitVec 8)} {b : BitVec 8}
      (henabled : d.rxEnabled = true) (hconnected : Connected g gpioRx)
      (hbs : d.Agrees → bs = [b]) (hroom : d.rx.length + bs.length ≤ fifoSize) :
      Step M N ⟨s, p, g, d, b :: x, y⟩ .shiftIn ⟨s, p, g, { d with rx := d.rx ++ bs }, x, y⟩
  | lost {s : σ} {p : Cpu τ} {g : Gpio} {d : Device} {x y : List (BitVec 8)} {b : BitVec 8}
      (hoff : ¬ (d.rxEnabled = true ∧ Connected g gpioRx)) :
      Step M N ⟨s, p, g, d, b :: x, y⟩ .shiftIn ⟨s, p, g, d, x, y⟩
  | overrun {s : σ} {p : Cpu τ} {g : Gpio} {d : Device} {x y : List (BitVec 8)} {b : BitVec 8}
      (henabled : d.rxEnabled = true) (hconnected : Connected g gpioRx)
      (hfull : fifoSize ≤ d.rx.length) :
      Step M N ⟨s, p, g, d, b :: x, y⟩ .overrun ⟨s, p, g, d, x, y⟩
  | cts {s : σ} {p : Cpu τ} {g : Gpio} {d : Device} {x y : List (BitVec 8)} {asserted : Bool} :
      Step M N ⟨s, p, g, d, x, y⟩ .cts ⟨s, p, g, { d with cts := asserted }, x, y⟩

end RpiVm.Uart
