import RpiVm.Boot.Exchange
import RpiVm.Uart.Refinement

/-!
# The boot protocol over the UART

What `uart_init` does to bytes that are under way, and the two sides of the boot protocol on
the real line: the bootloader sets its UART up, and then the program comes through.
-/

namespace RpiVm.Uart

open CLib Channel Transition

variable {σ τ : Type*} {M : Machine (BitVec 8) σ} {N : Machine (BitVec 8) τ}

/-! ## Bytes under way during the set-up -/

/-- The state of the program on the Pi. -/
def Cpu.program : Cpu τ → τ
  | .init _ _ _ t => t
  | .poll t => t
  | .ready t => t

/-- After so many accesses of `uart_init`, with nothing to send in the transmit FIFO: what the UNIX
side has received and sent, and what of it has come to the Pi. -/
structure InitHistory (M : Machine (BitVec 8) σ) (s : σ) (t : τ) (x y : List (BitVec 8)) (n : ℕ)
    (c : System σ τ) (R Q : List (BitVec 8)) : Prop where
  /-- Where the code is. -/
  code : ∃ value, c.cpu = .afterInit (uartInit.drop n) value t
  /-- The history of the UNIX side. -/
  left : Trace M s R Q c.left
  /-- To the UNIX side come the bytes that were on the line. -/
  toLeft : R ++ c.toLeft = y
  /-- There are no others. -/
  tx : c.uart.tx = []
  /-- To the Pi, the last bytes are still on the line. -/
  toRight : c.toRight <:+ x ++ Q

section

variable {s : σ} {t : τ} {x y R Q : List (BitVec 8)} {n : ℕ} {c c' : System σ τ}

/-- The last bytes, with one more. -/
theorem suffix_concat {as bs : List (BitVec 8)} (h : as <:+ bs) (b : BitVec 8) :
    as ++ [b] <:+ bs ++ [b] := by
  obtain ⟨cs, rfl⟩ := h
  exact ⟨cs, by simp⟩

/-- A store that does not send leaves an empty transmit FIFO empty. -/
theorem Device.put32_tx {d : Device} {a v : BitVec 32} (ha : a ≠ uartIo) (htx : d.tx = []) :
    (d.put32 a v).tx = [] := by
  rw [Device.put32, if_neg ha]
  split_ifs <;> simp [htx]

/-- One step. -/
theorem InitHistory.step {e : Event} (h : InitHistory M s t x y n c R Q)
    (hn : e = .cpu → n < 13) (hstep : System.Step M N c e c') :
    ∃ R' Q', InitHistory M s t x y (n + if e = .cpu then 1 else 0) c' R' Q' ∧
      R'.length + Q'.length = R.length + Q.length + if e = .unix then 1 else 0 := by
  obtain ⟨⟨value, hcode⟩, hleft, htoLeft, htx, htoRight⟩ := h
  -- before the end the code is at one of its accesses
  have hat : e = .cpu → ∃ i, uartInit[n]? = some i ∧
      c.cpu = .init i (uartInit.drop (n + 1)) value t := by
    intro he
    have hlen : n < uartInit.length := hn he
    refine ⟨uartInit[n], List.getElem?_eq_getElem hlen, ?_⟩
    rw [hcode, List.drop_eq_getElem_cons hlen]
    rfl
  cases hstep with
  | unixSend hM =>
    exact ⟨_, _, ⟨⟨value, hcode⟩, hleft.send hM, htoLeft, htx,
      by simpa using suffix_concat htoRight _⟩, by simp; omega⟩
  | unixRecv hM =>
    exact ⟨_, _, ⟨⟨value, hcode⟩, hleft.recv _ hM, by simpa using htoLeft, htx, htoRight⟩,
      by simp; omega⟩
  | setFunction =>
    obtain ⟨i, -, hi⟩ := hat rfl
    cases hi
    exact ⟨R, Q, ⟨⟨_, rfl⟩, hleft, htoLeft, htx, htoRight⟩, by simp⟩
  | get32 =>
    obtain ⟨i, hget, hi⟩ := hat rfl
    cases hi
    obtain ⟨hio, hlsr⟩ := uartInit_get32 hget
    refine ⟨R, Q, ⟨⟨_, rfl⟩, hleft, htoLeft, ?_, htoRight⟩, by simp⟩
    rwa [Device.get32, if_neg hio, if_neg hlsr]
  | put32 =>
    obtain ⟨i, hget, hi⟩ := hat rfl
    cases hi
    exact ⟨R, Q, ⟨⟨_, rfl⟩, hleft, htoLeft, Device.put32_tx (uartInit_put32 hget).1 htx, htoRight⟩,
      by simp⟩
  | putcLoop hN =>
    obtain ⟨i, -, hi⟩ := hat rfl
    cases hi
  | putc hN =>
    obtain ⟨i, -, hi⟩ := hat rfl
    cases hi
  | getcLoop hN =>
    obtain ⟨i, -, hi⟩ := hat rfl
    cases hi
  | getc hN =>
    obtain ⟨i, -, hi⟩ := hat rfl
    cases hi
  | shiftOut _ _ htx' _ => cases htx.symm.trans htx'
  | shiftIn _ _ _ _ =>
    exact ⟨R, Q, ⟨⟨value, hcode⟩, hleft, htoLeft, htx, (List.suffix_cons _ _).trans htoRight⟩,
      by simp⟩
  | lost _ =>
    exact ⟨R, Q, ⟨⟨value, hcode⟩, hleft, htoLeft, htx, (List.suffix_cons _ _).trans htoRight⟩,
      by simp⟩
  | overrun _ _ _ =>
    exact ⟨R, Q, ⟨⟨value, hcode⟩, hleft, htoLeft, htx, (List.suffix_cons _ _).trans htoRight⟩,
      by simp⟩
  | cts => exact ⟨R, Q, ⟨⟨value, hcode⟩, hleft, htoLeft, htx, htoRight⟩, by simp⟩

/-- A run within `uart_init`. -/
theorem InitHistory.run {as : List Event} (h : InitHistory M s t x y n c R Q)
    (hrun : Run (System.Step M N) c as c') (hcount : n + as.count .cpu ≤ 13) :
    ∃ R' Q', InitHistory M s t x y (n + as.count .cpu) c' R' Q' ∧
      R'.length + Q'.length = R.length + Q.length + as.count .unix := by
  induction hrun generalizing n R Q with
  | nil => exact ⟨R, Q, h, rfl⟩
  | @cons c c₁ c' e as hstep _ ih =>
    rw [List.count_cons] at hcount
    have hn : e = .cpu → n < 13 := by
      rintro rfl
      simp at hcount
      omega
    obtain ⟨R₁, Q₁, h₁, hlen₁⟩ := h.step hn hstep
    have hn₁ : n + (if e = .cpu then 1 else 0) + as.count .cpu =
        n + (e :: as).count .cpu := by
      rw [List.count_cons, Nat.add_comm (as.count _), ← Nat.add_assoc]
      simp
    obtain ⟨R', Q', h', hlen'⟩ := ih h₁ (by rw [hn₁, List.count_cons]; exact hcount)
    refine ⟨R', Q', hn₁ ▸ h', ?_⟩
    rw [hlen', hlen₁, List.count_cons, Nat.add_comm (as.count _), ← Nat.add_assoc]
    simp

end

/-- With nothing to send in the transmit FIFO, up to the end of `uart_init` the UNIX side gets the
bytes on the line only; of those to the Pi the last are left. -/
theorem init_losses {s : σ} {t : τ} {g : Gpio} {d : Device} (htx : d.tx = [])
    {x y : List (BitVec 8)} {as : List Event} {c : System σ τ}
    (hrun : Run (System.Step M N) (start s t g d x y) as c) (hcount : as.count .cpu ≤ 13) :
    ∃ R Q, Trace M s R Q c.left ∧ R.length + Q.length = as.count .unix ∧
      R ++ c.toLeft = y ∧ c.toRight <:+ x ++ Q := by
  have h : InitHistory M s t x y 0 (start s t g d x y) [] [] :=
    ⟨⟨0, rfl⟩, .nil, rfl, htx, by simp [start]⟩
  obtain ⟨R, Q, h', hlen⟩ := h.run hrun (by omega)
  exact ⟨R, Q, h'.left, by simpa using hlen, h'.toLeft, h'.toRight⟩

/-! ## The boot protocol -/

section

variable {buf : List (BitVec 8)} {bssStart : BitVec 32} {mem : Mem}

/-- A step of the board and the UNIX side, with the programs of the boot protocol. -/
abbrev BoardStep (buf : List (BitVec 8)) (bssStart : BitVec 32) :=
  System.Step (framed wordCode (simpleBoot buf)) (framed wordCode (notmain bssStart))

/-- The channels have the program of the Pi. -/
theorem Abs.program {c : System σ τ} {n : Net (BitVec 8) σ τ} (h : Abs N c n) :
    c.cpu.program = n.right := by
  obtain hcpu | ⟨hcpu, -⟩ := h.cpu <;> rw [hcpu] <;> rfl

/-- The bootloader over the UART, which begins with `DLAB`, break and flow control off and with
nothing to send: when the UNIX side begins after `uart_init` with a program that fits, on empty
lines, and no byte is lost to a full FIFO, neither side fails, the Pi branches to the program only,
and from every state the boot can still come to its end. -/
theorem uart_boots (hfit : Fits buf) (hbss : 0x200000 < bssStart.toNat) {g : Gpio} {d : Device}
    (hplain : Plain d.regs) (htx : d.tx = []) {pre post : List Event}
    {c₀ c : System (Framed (BitVec 32) (BitVec 8) UnixState)
      (Framed (BitVec 32) (BitVec 8) PiState)}
    (hpre : Run (BoardStep buf bssStart)
      (start (.start .putSoh) (.start (.start mem)) g d [] []) pre c₀)
    (hcount : pre.count .cpu = 13) (hunix : .unix ∉ pre)
    (hpost : Run (BoardStep buf bssStart) c₀ post c) (hlost : .overrun ∉ pre ++ post) :
    (∀ msg v x error, c.left.state ≠ .panicked msg v x error) ∧
      (∀ code, c.cpu.program.state.pc ≠ .die code) ∧ c.cpu.program.state.pc ≠ .reboot ∧
      (c.cpu.program.state.pc = .branchTo →
        readBytes c.cpu.program.state.mem armbase buf.length = buf) ∧
      ∃ bs c', Run (BoardStep buf bssStart) c bs c' ∧ .overrun ∉ bs ∧
        c'.left.state = .returned ∧ c'.cpu.program.state.pc = .branchTo ∧
        readBytes c'.cpu.program.state.mem armbase buf.length = buf := by
  obtain ⟨p, q, c₁, rfl, hp, hrun₁, hq, hcpu, hconf⟩ := exists_configured hpre hcount.ge
  -- before that nothing is under way, and the UNIX side has not begun
  obtain ⟨R, Q, htrace, hlen, htoLeft, htoRight⟩ := init_losses htx hrun₁ hp.le
  have hnone : p.count .unix = 0 := List.count_eq_zero.mpr fun h => hunix (List.mem_append_left q h)
  have hR : R = [] := List.eq_nil_of_length_eq_zero (by omega)
  have hQ : Q = [] := List.eq_nil_of_length_eq_zero (by omega)
  subst hR hQ
  have hleft : c₁.left = .start .putSoh := by
    obtain ⟨-, -, h⟩ | ⟨_, _, _, -, h, -⟩ | ⟨_, _, _, -, h, -⟩ := htrace.head
    · exact h
    · cases h
    · cases h
  have h₁ : Abs (framed wordCode (notmain bssStart)) c₁
      ⟨.start .putSoh, .start (.start mem), [], []⟩ := by
    refine ⟨hconf.on hplain, by simp [hconf.tx], hleft, .inl hcpu, ?_, ?_⟩
    · simpa [hconf.rx] using htoRight
    · simpa [hconf.tx] using htoLeft
  rw [List.append_assoc] at hlost
  have hkept₁ := lossless (hq.append hpost) fun hmem => hlost (List.mem_append_right p hmem)
  obtain ⟨sides, n, hnet, h⟩ :=
    hkept₁.simulate (fun _ _ _ _ h hstep => h.step hstep.1 hstep.2) h₁
  have hboot : BootRun buf bssStart mem sides n := hnet
  have X := hboot.exchange hfit hbss
  rw [h.program, h.left]
  refine ⟨X.not_panicked, X.alive.1, X.alive.2, X.branch, ?_⟩
  obtain ⟨sides', n', hrest, hterm⟩ :=
    Run.exists_terminal (fun _ _ hrun => BootRun.length_le hrun hfit hbss) hboot
  have hwhole : BootRun buf bssStart mem (sides ++ sides') n' := hboot.append hrest
  obtain ⟨hreturned, hbranch, -⟩ := hwhole.finished hfit hbss hterm
  obtain ⟨bs, c', hrun', h'⟩ := hrest.lift (fun _ _ _ _ h hstep => h.lift hstep) h
  obtain ⟨hrun', hkept⟩ := of_lossless hrun'
  refine ⟨bs, c', hrun', hkept, ?_⟩
  rw [h'.program, h'.left]
  exact ⟨hreturned, hbranch, (hwhole.exchange hfit hbss).branch hbranch⟩

/-- A program of five bytes, right after `uart_init`. -/
theorem uart_boots_five :
    ∃ as c, Run (BoardStep [1, 2, 3, 4, 5] 0x201320)
      (start (.start .putSoh) (.start (.start fun _ => 0)) ⟨fun _ => 0, []⟩
        ⟨fun _ => 0, [0x0a], [], true⟩ [] []) as c ∧
      c.left.state = .returned ∧ c.cpu.program.state.pc = .branchTo ∧
      readBytes c.cpu.program.state.mem armbase 5 = [1, 2, 3, 4, 5] := by
  have hinit : Run (BoardStep [1, 2, 3, 4, 5] 0x201320)
      (start (.start .putSoh) (.start (.start fun _ => 0)) ⟨fun _ => 0, []⟩
        ⟨fun _ => 0, [0x0a], [], true⟩ [] []) (List.replicate 13 .cpu) _ :=
    .cons .setFunction (.cons .setFunction (.cons .get32 (.cons .put32 (.cons .get32 (.cons .put32
      (.cons .put32 (.cons .get32 (.cons .put32 (.cons .get32 (.cons .put32 (.cons .get32
        (.cons .put32 (.nil _)))))))))))))
  obtain ⟨-, -, -, -, bs, c, hrun, -, hend⟩ := uart_boots (by decide) (by decide)
    ⟨rfl, rfl, rfl⟩ rfl hinit (by simp) (by simp) (.nil _) (by simp)
  exact ⟨_, c, hinit.append hrun, hend⟩

end

end RpiVm.Uart
