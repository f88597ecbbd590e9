import RpiVm.Boot.Protocol

/-!
# Talking to the child

What the replayer sees of the child: the bytes that arrive on the socket, in pieces and
with pauses, and how the child ends. `read_exact` reads a number of bytes whatever the
pieces; a pause of more than the time-out, the end of the file or a failing read cuts
it short.
-/

namespace RpiVm.Replay

open CLib

/-! ## How a process ends -/

/-- The end of a process. -/
inductive WaitStatus where
  /-- It has exited with a code. -/
  | exited (code : BitVec 8)
  /-- A signal has killed it, with or without a core dump. -/
  | signaled (sig : BitVec 7) (core : Bool) (hsig : sig ≠ 0 ∧ sig ≠ 127)

/-- The status that `waitpid` stores. -/
def WaitStatus.raw : WaitStatus → BitVec 32
  | exited code => code.setWidth 32 <<< 8
  | signaled sig core _ => sig.setWidth 32 ||| (if core then 0x80 else 0)

/-- `WEXITSTATUS`. -/
def wexitstatus (status : BitVec 32) : BitVec 32 := (status >>> 8) &&& 0xff

/-- The code of a process that has exited. -/
theorem wexitstatus_exited (code : BitVec 8) :
    wexitstatus (WaitStatus.exited code).raw = code.setWidth 32 := by
  have hall : ∀ c : BitVec 8, ((c.setWidth 32 <<< 8) >>> 8) &&& 0xff#32 = c.setWidth 32 := by
    decide +kernel
  exact hall code

/-- It is zero only for the code zero. -/
theorem wexitstatus_exited_eq_zero {code : BitVec 8} :
    wexitstatus (WaitStatus.exited code).raw = 0 ↔ code = 0 := by
  have hall : ∀ c : BitVec 8, c.setWidth 32 = 0#32 ↔ c = 0 := by decide +kernel
  rw [wexitstatus_exited]
  exact hall code

/-- Of a process that was killed it makes the code zero. -/
theorem wexitstatus_signaled (sig : BitVec 7) (core : Bool) (hsig : sig ≠ 0 ∧ sig ≠ 127) :
    wexitstatus (WaitStatus.signaled sig core hsig).raw = 0 := by
  have hall : ∀ (s : BitVec 7) (c : Bool),
      ((s.setWidth 32 ||| (if c then 0x80#32 else 0)) >>> 8) &&& 0xff#32 = 0 := by
    decide +kernel
  exact hall sig core

/-! ## What arrives -/

/-- What `select` and `read` meet on the socket, one after the other. -/
inductive Arrival where
  /-- Bytes that are there, at least one. -/
  | chunk (b : BitVec 8) (bs : List (BitVec 8))
  /-- Nothing for longer than the time-out. -/
  | pause
  /-- A `read` fails. -/
  | readFailed
  /-- A `select` fails. -/
  | selectFailed

/-- Why the replayer stops without a verdict in favour. -/
inductive Stop where
  /-- `err`, by its format. -/
  | err (format : String)
  /-- `panic`, by its format. -/
  | panic (format : String)
  /-- `demand` found the expression false. -/
  | demand (expr msg : String)
  /-- `assert` found the expression false. -/
  | assertion (expr : String)
  /-- `sys_die`. -/
  | sysDie (call msg : String)
  /-- A loop or a call that does not end. -/
  | stuck

/-- `has_data`: behind the last arrival is the end of the file, which is data. -/
def hasData : List Arrival → Except Stop (Bool × List Arrival)
  | .pause :: a => pure (false, a)
  | .selectFailed :: _ => throw (.sysDie "select" "select failed")
  | a => pure (true, a)

/-- `read` of some bytes: what it returns, the bytes, and what arrives later. It blocks as
long as nothing arrives. -/
def readFd (nbytes : ℕ) : List Arrival → ℤ × List (BitVec 8) × List Arrival
  | [] => (0, [], [])
  | .chunk b bs :: a =>
    let got := (b :: bs).take nbytes
    match (b :: bs).drop nbytes with
    | [] => (got.length, got, a)
    | b' :: bs' => (got.length, got, .chunk b' bs' :: a)
  | .readFailed :: a => (-1, [], a)
  | .pause :: a => readFd nbytes a
  | .selectFailed :: a => readFd nbytes a

/-- Bytes stored in a buffer from an offset on. -/
def storeAt (buf : List (BitVec 8)) (offset : ℕ) (got : List (BitVec 8)) : List (BitVec 8) :=
  buf.take offset ++ got ++ buf.drop (offset + got.length)

/-- The loop of `read_exact`, with `totalBytesRead`, which is also the offset, `bytesRead`
and the buffer. -/
def readExactLoop (n totalBytesRead : ℕ) (bytesRead : ℤ) (buf : List (BitVec 8))
    (a : List Arrival) : Except Stop (ℤ × List (BitVec 8) × List Arrival) := do
  if totalBytesRead < n then
    let (ready, a) ← hasData a
    if ready then
      let (r, got, a) := readFd (n - totalBytesRead) a
      if r ≤ 0 then pure (r, buf, a)
      else readExactLoop n (totalBytesRead + r.toNat) r (storeAt buf totalBytesRead got) a
    else pure (bytesRead, buf, a)
  else pure (bytesRead, buf, a)
termination_by n - totalBytesRead

/-- `read_exact`: what it returns, and the buffer. `bytesRead` is not initialised. -/
def readExact (bytesRead : ℤ) (buf : List (BitVec 8)) (n : ℕ) (canFailP : Bool)
    (a : List Arrival) : Except Stop (ℤ × List (BitVec 8) × List Arrival) := do
  let (bytesRead, buf, a) ← readExactLoop n 0 bytesRead buf a
  if bytesRead < 0 then
    if !canFailP then throw (.err "read failed") else pure (0, buf, a)
  else pure (1, buf, a)

/-! ## The pieces do not matter -/

/-- What arrives, byte by byte. -/
inductive Sym where
  /-- A byte. -/
  | byte (b : BitVec 8)
  /-- A pause. -/
  | pause
  /-- A `read` fails. -/
  | readFailed
  /-- A `select` fails. -/
  | selectFailed
  deriving DecidableEq

/-- The symbols of an arrival. -/
def Arrival.syms : Arrival → List Sym
  | chunk b bs => .byte b :: bs.map .byte
  | pause => [.pause]
  | readFailed => [.readFailed]
  | selectFailed => [.selectFailed]

/-- The symbols of arrivals. -/
def symsOf (a : List Arrival) : List Sym := a.flatMap Arrival.syms

/-- How reading some bytes ends. -/
inductive Received where
  /-- With the bytes read, which are too few at a pause or the end of the file. -/
  | bytes (got : List (BitVec 8)) (rest : List Sym)
  /-- With a negative `bytesRead`. -/
  | failed (rest : List Sym)
  /-- In `select`. -/
  | died

/-- Reading some bytes more behind those read; `junk` is in `bytesRead` before the first. -/
def receive (junk : ℤ) : ℕ → List (BitVec 8) → List Sym → Received
  | 0, got, rest => .bytes got rest
  | _ + 1, got, [] => .bytes got []
  | n + 1, got, .byte b :: rest => receive junk n (got ++ [b]) rest
  | _ + 1, got, .pause :: rest => if got = [] ∧ junk < 0 then .failed rest else .bytes got rest
  | _ + 1, _, .readFailed :: rest => .failed rest
  | _ + 1, _, .selectFailed :: _ => .died

/-- Several bytes at once. -/
theorem receive_append (junk : ℤ) (n : ℕ) (got bs : List (BitVec 8)) (rest : List Sym) :
    receive junk (bs.length + n) got (bs.map .byte ++ rest) = receive junk n (got ++ bs) rest := by
  induction bs generalizing got with
  | nil => simp
  | cons b bs ih =>
    have hlen : (b :: bs).length + n = (bs.length + n) + 1 := by simp only [List.length_cons]; omega
    rw [hlen, List.map_cons, List.cons_append, receive, ih, List.append_assoc]
    rfl

/-- What the loop of `read_exact` does, by the symbols. -/
def LoopResult (old : List (BitVec 8)) (r : Received)
    (x : Except Stop (ℤ × List (BitVec 8) × List Arrival)) : Prop :=
  match r with
  | .bytes got rest => ∃ bytesRead a, 0 ≤ bytesRead ∧ symsOf a = rest ∧
      x = .ok (bytesRead, got ++ old.drop got.length, a)
  | .failed rest => ∃ bytesRead buf a, bytesRead < 0 ∧ symsOf a = rest ∧ x = .ok (bytesRead, buf, a)
  | .died => x = .error (.sysDie "select" "select failed")

/-- Storing behind the bytes read. -/
theorem storeAt_append {old got bs : List (BitVec 8)} :
    storeAt (got ++ old.drop got.length) got.length bs =
      (got ++ bs) ++ old.drop (got ++ bs).length := by
  rw [storeAt, List.take_left' rfl, List.length_append, List.drop_append, List.drop_eq_nil_of_le
    (Nat.le_add_right _ _), Nat.add_sub_cancel_left, List.drop_drop, List.nil_append]

/-- A read of a piece takes its first bytes and leaves the rest. -/
theorem readFd_chunk {m : ℕ} (hm : 0 < m) (b : BitVec 8) (bs : List (BitVec 8))
    (a : List Arrival) : ∃ got a', readFd m (.chunk b bs :: a) = ((got.length : ℤ), got, a') ∧
      0 < got.length ∧ got.length ≤ m ∧
      symsOf (.chunk b bs :: a) = got.map .byte ++ symsOf a' := by
  have hpos : 0 < ((b :: bs).take m).length := by
    rw [List.length_take, List.length_cons]
    omega
  have hsyms : symsOf (.chunk b bs :: a) =
      ((b :: bs).take m).map .byte ++ (((b :: bs).drop m).map .byte ++ symsOf a) := by
    rw [← List.append_assoc, ← List.map_append, List.take_append_drop]
    rfl
  rw [hsyms]
  cases hdrop : (b :: bs).drop m with
  | nil =>
    refine ⟨_, a, ?_, hpos, List.length_take_le _ _, rfl⟩
    rw [readFd, hdrop]
  | cons b' bs' =>
    refine ⟨_, .chunk b' bs' :: a, ?_, hpos, List.length_take_le _ _, rfl⟩
    rw [readFd, hdrop]

/-- The loop of `read_exact` depends on the symbols only. -/
theorem readExactLoop_eq {n : ℕ} (hn : 0 < n) {junk bytesRead : ℤ} {old got : List (BitVec 8)}
    {a : List Arrival} (hle : got.length ≤ n) (hfirst : got = [] → bytesRead = junk)
    (hlater : got ≠ [] → 0 < bytesRead) :
    LoopResult old (receive junk (n - got.length) got (symsOf a))
      (readExactLoop n got.length bytesRead (got ++ old.drop got.length) a) := by
  induction hd : n - got.length using Nat.strong_induction_on generalizing got bytesRead a with
  | _ d ih =>
    rw [readExactLoop]
    cases d with
    | zero =>
      have hne : got ≠ [] := by
        rintro rfl
        simp only [List.length_nil] at hd
        omega
      rw [if_neg (by omega)]
      exact ⟨bytesRead, a, (hlater hne).le, rfl, rfl⟩
    | succ d =>
      rw [if_pos (by omega)]
      cases a with
      | nil => exact ⟨0, [], le_rfl, rfl, rfl⟩
      | cons x a =>
        cases x with
        | chunk b bs =>
          obtain ⟨bs', a', hread, hpos, hlen, hsyms⟩ :=
            readFd_chunk (m := n - got.length) (by omega) b bs a
          have hd' : d + 1 = bs'.length + (n - (got ++ bs').length) := by
            rw [List.length_append]
            omega
          have hnil : got ++ bs' = [] → (bs'.length : ℤ) = junk := by
            intro h
            rw [(List.append_eq_nil_iff.mp h).2] at hpos
            exact absurd hpos (lt_irrefl 0)
          have hnext := @ih (n - (got ++ bs').length) (by omega) bs'.length (got ++ bs') a'
            (by rw [List.length_append]; omega) hnil (fun _ => by omega) rfl
          rw [hsyms, hd', receive_append, List.length_append] at *
          have hready : hasData (.chunk b bs :: a) = .ok (true, .chunk b bs :: a) := rfl
          have hneg : ¬ (bs'.length : ℤ) ≤ 0 := by omega
          simp only [hready, hread, bind, Except.bind, if_true, if_neg hneg, Int.toNat_natCast,
            storeAt_append]
          simpa using hnext
        | pause =>
          have hready : hasData (.pause :: a) = .ok (false, a) := rfl
          have hsyms : symsOf (.pause :: a) = .pause :: symsOf a := rfl
          simp only [hready, hsyms, receive, bind, Except.bind]
          by_cases hjunk : got = [] ∧ junk < 0
          · rw [if_pos hjunk]
            exact ⟨bytesRead, _, a, by rw [hfirst hjunk.1]; exact hjunk.2, rfl, rfl⟩
          · rw [if_neg hjunk]
            refine ⟨bytesRead, a, ?_, rfl, rfl⟩
            by_cases hnil : got = []
            · rw [hfirst hnil]
              exact not_lt.mp fun h => hjunk ⟨hnil, h⟩
            · exact (hlater hnil).le
        | readFailed => exact ⟨-1, _, a, by decide, rfl, rfl⟩
        | selectFailed => rfl

/-- `read_exact` by the symbols: it returns 1 also when the bytes are too few. -/
theorem readExact_eq {n : ℕ} (hn : 0 < n) (junk : ℤ) (old : List (BitVec 8)) (canFailP : Bool)
    (a : List Arrival) :
    match receive junk n [] (symsOf a) with
    | .bytes got rest => ∃ a', symsOf a' = rest ∧
        readExact junk old n canFailP a = .ok (1, got ++ old.drop got.length, a')
    | .failed rest => ∃ buf a', symsOf a' = rest ∧ readExact junk old n canFailP a =
        if canFailP then .ok (0, buf, a') else .error (.err "read failed")
    | .died => readExact junk old n canFailP a = .error (.sysDie "select" "select failed") := by
  have hloop := @readExactLoop_eq n hn junk junk old [] a (Nat.zero_le n) (fun _ => rfl)
    (fun h => absurd rfl h)
  rw [List.length_nil, Nat.sub_zero, List.nil_append, List.drop_zero] at hloop
  cases hreceive : receive junk n [] (symsOf a) with
  | bytes got rest =>
    rw [hreceive] at hloop
    obtain ⟨bytesRead, a', hge, hrest, heq⟩ := hloop
    refine ⟨a', hrest, ?_⟩
    simp only [readExact, heq, bind, Except.bind, if_neg (not_lt.mpr hge)]
    rfl
  | failed rest =>
    rw [hreceive] at hloop
    obtain ⟨bytesRead, buf, a', hlt, hrest, heq⟩ := hloop
    refine ⟨buf, a', hrest, ?_⟩
    simp only [readExact, heq, bind, Except.bind, if_pos hlt]
    cases canFailP <;> rfl
  | died =>
    rw [hreceive] at hloop
    have heq : readExactLoop n 0 junk old a = _ := hloop
    simp only [readExact, heq, bind, Except.bind]

end RpiVm.Replay
