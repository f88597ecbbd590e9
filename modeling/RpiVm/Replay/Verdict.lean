import RpiVm.Lib.Panic
import RpiVm.Replay.Process
import RpiVm.Replay.Queue

/-!
# The verdict of a replay

`replay` plays a log against a child and reports success or stops. The word read for an
entry goes into a variable that is not initialised, so that a read cut short may still
find the right word, and a child killed by a signal counts as one that exits with zero.
-/

namespace RpiVm.Replay

open CLib

/-! ## Replaying a log -/

/-- What a run depends on besides the log. -/
structure Behaviour where
  /-- What arrives from the child. -/
  arrivals : List Arrival
  /-- What `write` returns for an entry and a buffer. -/
  writes : ℕ → List (BitVec 8) → ℤ
  /-- What `temp` holds at an entry before it is read into. -/
  temp : ℕ → BitVec 32
  /-- What `bytesRead` holds at an entry before the first `read`. -/
  bytesRead : ℕ → ℤ
  /-- What `random` returns when an entry is corrupted. -/
  random : ℕ → List (BitVec 32)
  /-- How the child ends, if it does. -/
  wait : Option WaitStatus

/-- `corrupt32`: its loop ends at the first value that is different. -/
def corrupt32 (random : List (BitVec 32)) (v : BitVec 32) : Except Stop (BitVec 32) :=
  match random.find? (· ≠ v) with
  | some c => pure c
  | none => throw .stuck

/-- `proc_exit_code`. -/
def procExitCode (b : Behaviour) : Except Stop (BitVec 32) :=
  match b.wait with
  | some w => pure (wexitstatus w.raw)
  | none => throw .stuck

/-- `write_exact`, at an entry. -/
def writeExact (b : Behaviour) (n : ℕ) (buf : List (BitVec 8)) (canFailP : Bool) :
    Except Stop Unit := do
  let r := b.writes n buf
  if r < 0 ∧ !canFailP then throw (.panic "i/o error writing to <%s> = <%s>\n")
  if !canFailP ∧ r ≠ buf.length then throw (.demand "n == nbytes" "something is wrong")

/-- `is_eof`. -/
def isEof (a : List Arrival) : Except Stop Bool := do
  let (ready, a) ← hasData a
  if !ready then throw (.err "process <%s> should have exited after 1 sec\n")
  let (r, _, _) := readFd 1 a
  if r ≠ 0 then throw (.err "eof not read")
  pure true

/-- Where the loop over the log ends. -/
inductive LoopExit where
  /-- Behind the last entry. -/
  | consumed
  /-- At `goto error`. -/
  | error

/-- The loop of `replay` over the rest of the log. -/
def replayLoop (b : Behaviour) (corruptOp : BitVec 32) : ℕ → List Entry → Bool → List Arrival →
    Except Stop (LoopExit × Bool × List Arrival)
  | _, [], canFailP, a => pure (.consumed, canFailP, a)
  | n, e :: es, canFailP, a => do
    let (v, canFailP) ←
      if e.cnt = corruptOp then (corrupt32 (b.random n) e.val).map (·, true)
      else pure (e.val, canFailP)
    match e.op with
    | .read8 => do
      writeExact b n [v.setWidth 8] canFailP
      replayLoop b corruptOp (n + 1) es canFailP a
    | .read32 => do
      writeExact b n (wordBytes v) canFailP
      replayLoop b corruptOp (n + 1) es canFailP a
    | .write32 => do
      if BitVec.ofNat 32 n = corruptOp then throw (.assertion "n != corrupt_op")
      let (ret, temp, a) ← readExact (b.bytesRead n) (wordBytes (b.temp n)) 4 canFailP a
      if ret ≠ 1 then throw (.err "read exact messed up")
      if temp ≠ wordBytes v then
        if canFailP then pure (.error, canFailP, a)
        else throw (.panic "values don't match; expected: %s:%d:%x, got %x\n")
      else replayLoop b corruptOp (n + 1) es canFailP a

/-- `replay` from the label `error` on. -/
def replayError (b : Behaviour) (canFailP : Bool) : Except Stop (BitVec 32) := do
  if !canFailP then throw (.demand "can_fail_p" "something wrong")
  let status ← procExitCode b
  if status = 0 then throw (.err "process exited successfully, expected an error\n")
  pure status

/-- `replay`: the exit code in its report of success. -/
def replay (b : Behaviour) (corruptOp : BitVec 32) (log : List Entry) :
    Except Stop (BitVec 32) := do
  let (exit, canFailP, a) ← replayLoop b corruptOp 0 log false b.arrivals
  match exit with
  | .error => replayError b canFailP
  | .consumed =>
    if canFailP then replayError b canFailP
    else do
      if !(← isEof a) then throw (.panic "expected eof: got nothing\n")
      let status ← procExitCode b
      if status ≠ 0 then throw (.err "process exited with %d, expected 0\n")
      pure status

/-! ## What a log asks for -/

/-- What is written for an entry that is read. -/
def Entry.payload (e : Entry) : List (BitVec 8) :=
  match e.op with
  | .read8 => [e.val.setWidth 8]
  | _ => wordBytes e.val

/-- The bytes of the words that a log says are written. -/
def writtenBytes (log : List Entry) : List (BitVec 8) :=
  (log.filter fun e => e.op = .write32).flatMap fun e => wordBytes e.val

/-- The entries are numbered from zero, as `read_input` does, by an `int`. -/
def Numbered (log : List Entry) : Prop :=
  log.length < 2 ^ 31 ∧ ∀ i e, log[i]? = some e → e.cnt = BitVec.ofNat 32 i

/-- The word of an entry passes the comparison: its bytes arrive, or, when `cut`, some of
them do, then the file ends or there is a pause, and the others are in `temp` before. -/
inductive Piece (junk : ℤ) (temp v : BitVec 32) : Bool → List Sym → List Sym → Prop
  | whole {S : List Sym} : Piece junk temp v false ((wordBytes v).map .byte ++ S) S
  | eof {got : List (BitVec 8)} (hlt : got.length < 4)
      (hstale : got ++ (wordBytes temp).drop got.length = wordBytes v) :
      Piece junk temp v true (got.map .byte) []
  | pause {got : List (BitVec 8)} {S : List Sym} (hlt : got.length < 4)
      (hstale : got ++ (wordBytes temp).drop got.length = wordBytes v)
      (hjunk : got = [] → 0 ≤ junk) :
      Piece junk temp v true (got.map .byte ++ .pause :: S) S

/-- Entries from a number on pass, from one rest of the arrivals to another; the words of
some of them are cut. -/
inductive Passes (b : Behaviour) (canFailP : Bool) :
    ℕ → List Entry → ℕ → List Sym → List Sym → Prop
  | nil {n : ℕ} {S : List Sym} : Passes b canFailP n [] 0 S S
  | read {n c : ℕ} {e : Entry} {es : List Entry} {S S' : List Sym} (hop : e.op ≠ .write32)
      (hwrite : canFailP = false → b.writes n e.payload = e.payload.length)
      (h : Passes b canFailP (n + 1) es c S S') : Passes b canFailP n (e :: es) c S S'
  | write {n c : ℕ} {e : Entry} {es : List Entry} {cut : Bool} {S S₁ S' : List Sym}
      (hop : e.op = .write32) (hpiece : Piece (b.bytesRead n) (b.temp n) e.val cut S S₁)
      (h : Passes b canFailP (n + 1) es c S₁ S') :
      Passes b canFailP n (e :: es) (c + cut.toNat) S S'

/-- A read for a word ends with an error of `read` or `select`, or with a pause before the
first byte while `bytesRead` is negative. -/
inductive CutByFailure (junk : ℤ) : List Sym → Prop
  | read {got : List (BitVec 8)} {S : List Sym} (hlt : got.length < 4) :
      CutByFailure junk (got.map .byte ++ .readFailed :: S)
  | select {got : List (BitVec 8)} {S : List Sym} (hlt : got.length < 4) :
      CutByFailure junk (got.map .byte ++ .selectFailed :: S)
  | pause {S : List Sym} (hjunk : junk < 0) : CutByFailure junk (.pause :: S)

/-- After a corruption, such a read comes before any difference is found. -/
inductive FailsRead (b : Behaviour) : ℕ → List Entry → List Sym → Prop
  | here {n : ℕ} {e : Entry} {es : List Entry} {S : List Sym} (hop : e.op = .write32)
      (hcut : CutByFailure (b.bytesRead n) S) : FailsRead b n (e :: es) S
  | read {n : ℕ} {e : Entry} {es : List Entry} {S : List Sym} (hop : e.op ≠ .write32)
      (h : FailsRead b (n + 1) es S) : FailsRead b n (e :: es) S
  | write {n : ℕ} {e : Entry} {es : List Entry} {cut : Bool} {S S₁ : List Sym}
      (hop : e.op = .write32) (hpiece : Piece (b.bytesRead n) (b.temp n) e.val cut S S₁)
      (h : FailsRead b (n + 1) es S₁) : FailsRead b n (e :: es) S

/-! ## One entry -/

/-- No entry is corrupted. -/
def Uncorrupted (corruptOp : BitVec 32) (n : ℕ) (es : List Entry) : Prop :=
  ∀ i e, es[i]? = some e → e.cnt ≠ corruptOp ∧ BitVec.ofNat 32 (n + i) ≠ corruptOp

/-- The first entry, and the others. -/
theorem uncorrupted_cons {corruptOp : BitVec 32} {n : ℕ} {e : Entry} {es : List Entry} :
    Uncorrupted corruptOp n (e :: es) ↔
      (e.cnt ≠ corruptOp ∧ BitVec.ofNat 32 n ≠ corruptOp) ∧ Uncorrupted corruptOp (n + 1) es := by
  constructor
  · intro h
    refine ⟨h 0 e rfl, fun i e' he' => ?_⟩
    have hnext := h (i + 1) e' he'
    rwa [Nat.add_right_comm, Nat.add_assoc] at *
  · rintro ⟨hfirst, hrest⟩ i e' he'
    cases i with
    | zero =>
      obtain rfl := Option.some.inj he'
      exact hfirst
    | succ i =>
      have hnext := hrest i e' he'
      rwa [Nat.add_assoc, Nat.add_comm 1] at hnext

/-- What `receive` makes of the bytes in front. -/
theorem receive_front (junk : ℤ) {got : List (BitVec 8)} (hlt : got.length < 4) (S : List Sym) :
    ∃ m, receive junk 4 [] (got.map .byte ++ S) = receive junk (m + 1) got S := by
  have hlen : 4 = got.length + (3 - got.length + 1) := by omega
  refine ⟨3 - got.length, ?_⟩
  rw [hlen, receive_append, List.nil_append]

/-- The bytes in front, up to four. -/
theorem exists_front (S : List Sym) : ∃ got rest, S = List.map .byte got ++ rest ∧
    (got.length = 4 ∨ got.length < 4 ∧ ∀ b rest', rest ≠ .byte b :: rest') := by
  have hall : ∀ n, ∃ got rest, S = List.map .byte got ++ rest ∧
      (got.length = n ∨ got.length < n ∧ ∀ b rest', rest ≠ .byte b :: rest') := by
    intro n
    induction n with
    | zero => exact ⟨[], S, rfl, .inl rfl⟩
    | succ n ih =>
      obtain ⟨got, rest, rfl, hlen | ⟨hlt, hrest⟩⟩ := ih
      · cases rest with
        | nil => exact ⟨got, [], rfl, .inr ⟨by omega, nofun⟩⟩
        | cons s rest =>
          cases s with
          | byte b => exact ⟨got ++ [b], rest, by simp, .inl (by simp [hlen])⟩
          | _ => exact ⟨got, _, rfl, .inr ⟨by omega, nofun⟩⟩
      · exact ⟨got, rest, rfl, .inr ⟨by omega, hrest⟩⟩
  exact hall 4

/-- The word found in `temp` is that of the entry exactly when its piece passes. -/
theorem piece_iff {junk : ℤ} {temp v : BitVec 32} {S S' : List Sym} :
    (∃ cut, Piece junk temp v cut S S') ↔ ∃ got, receive junk 4 [] S = .bytes got S' ∧
      got ++ (wordBytes temp).drop got.length = wordBytes v := by
  constructor
  · rintro ⟨cut, h⟩
    cases h with
    | whole => exact ⟨wordBytes v, receive_append junk 0 [] (wordBytes v) S', by simp [wordBytes]⟩
    | @eof got hlt hstale =>
      obtain ⟨m, hm⟩ := receive_front junk hlt []
      rw [List.append_nil] at hm
      exact ⟨got, hm, hstale⟩
    | @pause got _ hlt hstale hjunk =>
      obtain ⟨m, hm⟩ := receive_front junk hlt (.pause :: S')
      refine ⟨got, ?_, hstale⟩
      rw [hm, receive, if_neg fun h => absurd (hjunk h.1) (not_le.mpr h.2)]
  · rintro ⟨got, hreceive, hstale⟩
    obtain ⟨bs, rest, rfl, hlen | ⟨hlt, hrest⟩⟩ := exists_front S
    · have hall := receive_append junk 0 [] bs rest
      rw [hlen] at hall
      obtain ⟨rfl, rfl⟩ := Received.bytes.inj (hall.symm.trans hreceive)
      rw [List.drop_eq_nil_of_le (by simp [wordBytes, hlen]), List.append_nil] at hstale
      have hbs : bs = wordBytes v := hstale
      rw [hbs]
      exact ⟨false, .whole⟩
    · obtain ⟨m, hm⟩ := receive_front junk hlt rest
      rw [hm] at hreceive
      cases rest with
      | nil =>
        obtain ⟨rfl, rfl⟩ := Received.bytes.inj hreceive
        rw [List.append_nil]
        exact ⟨true, .eof hlt hstale⟩
      | cons s rest =>
        cases s with
        | byte b => exact absurd rfl (hrest b rest)
        | pause =>
          rw [receive] at hreceive
          split_ifs at hreceive with hjunk
          obtain ⟨rfl, rfl⟩ := Received.bytes.inj hreceive
          exact ⟨true, .pause hlt hstale fun h => not_lt.mp fun hneg => hjunk ⟨h, hneg⟩⟩
        | readFailed => cases hreceive
        | selectFailed => cases hreceive

/-- The read of a word fails exactly when it gives no bytes. -/
theorem cutByFailure_iff {junk : ℤ} {S : List Sym} :
    CutByFailure junk S ↔ ∀ got rest, receive junk 4 [] S ≠ .bytes got rest := by
  constructor
  · intro h got rest hreceive
    cases h with
    | @read bs S hlt =>
      obtain ⟨m, hm⟩ := receive_front junk hlt (.readFailed :: S)
      cases hm.symm.trans hreceive
    | @select bs S hlt =>
      obtain ⟨m, hm⟩ := receive_front junk hlt (.selectFailed :: S)
      cases hm.symm.trans hreceive
    | pause hjunk =>
      rw [receive, if_pos ⟨rfl, hjunk⟩] at hreceive
      cases hreceive
  · intro h
    obtain ⟨bs, rest, rfl, hlen | ⟨hlt, hrest⟩⟩ := exists_front S
    · have hall := receive_append junk 0 [] bs rest
      rw [hlen] at hall
      exact absurd hall (h _ _)
    · obtain ⟨m, hm⟩ := receive_front junk hlt rest
      cases rest with
      | nil => exact absurd hm (h _ _)
      | cons s rest =>
        cases s with
        | byte b => exact absurd rfl (hrest b rest)
        | pause =>
          by_cases hjunk : bs = [] ∧ junk < 0
          · rw [hjunk.1]
            exact .pause hjunk.2
          · rw [receive, if_neg hjunk] at hm
            exact absurd hm (h _ _)
        | readFailed => exact .read hlt
        | selectFailed => exact .select hlt

/-- Otherwise it gives some. -/
theorem exists_bytes_of_not_cutByFailure {junk : ℤ} {S : List Sym} (h : ¬ CutByFailure junk S) :
    ∃ got rest, receive junk 4 [] S = .bytes got rest := by
  rw [cutByFailure_iff] at h
  push Not at h
  exact h

/-! ## Steps of the loop -/

section

variable {b : Behaviour} {corruptOp : BitVec 32} {n : ℕ} {e : Entry} {es : List Entry}
  {canFailP : Bool}

/-- `write_exact` returns when all is written, or when it may fail. -/
theorem writeExact_eq_ok {buf : List (BitVec 8)} :
    writeExact b n buf canFailP = .ok () ↔ (canFailP = false → b.writes n buf = buf.length) := by
  cases canFailP with
  | true => exact iff_of_true (by simp [writeExact]) nofun
  | false =>
    by_cases heq : b.writes n buf = buf.length
    · have hlen : ¬ (buf.length : ℤ) < 0 := by omega
      refine iff_of_true ?_ fun _ => heq
      simp only [writeExact, heq, hlen, false_and, if_false, ne_eq, not_true_eq_false, and_false]
      rfl
    · refine iff_of_false (fun hok => ?_) fun h => heq (h rfl)
      by_cases hneg : b.writes n buf < 0
      · simp [writeExact, hneg] at hok
        cases hok
      · simp [writeExact, hneg, heq] at hok

/-- An entry that is read. -/
theorem replayLoop_read (hop : e.op ≠ .write32) (hcnt : e.cnt ≠ corruptOp) (a : List Arrival) :
    replayLoop b corruptOp n (e :: es) canFailP a =
      writeExact b n e.payload canFailP >>= fun _ =>
        replayLoop b corruptOp (n + 1) es canFailP a := by
  rw [replayLoop, if_neg hcnt]
  cases hop' : e.op with
  | write32 => exact absurd hop' hop
  | _ => simp [Entry.payload, hop']

/-- An entry that is written. -/
theorem replayLoop_write (hop : e.op = .write32) (hcnt : e.cnt ≠ corruptOp)
    (hn : BitVec.ofNat 32 n ≠ corruptOp) (a : List Arrival) :
    replayLoop b corruptOp n (e :: es) canFailP a =
      readExact (b.bytesRead n) (wordBytes (b.temp n)) 4 canFailP a >>= fun x =>
        if x.1 ≠ 1 then throw (.err "read exact messed up")
        else if x.2.1 ≠ wordBytes e.val then
          if canFailP then pure (.error, canFailP, x.2.2)
          else throw (.panic "values don't match; expected: %s:%d:%x, got %x\n")
        else replayLoop b corruptOp (n + 1) es canFailP x.2.2 := by
  rw [replayLoop, if_neg hcnt]
  simp [hop, hn]
  rfl

/-- An entry that is written, when a word or a part of one is read. -/
theorem replayLoop_write_bytes (canFailP : Bool) (hop : e.op = .write32)
    (hes : Uncorrupted corruptOp n (e :: es)) {a : List Arrival} {got : List (BitVec 8)} {rest : List Sym}
    (hreceive : receive (b.bytesRead n) 4 [] (symsOf a) = .bytes got rest) :
    ∃ a', symsOf a' = rest ∧ replayLoop b corruptOp n (e :: es) canFailP a =
      if got ++ (wordBytes (b.temp n)).drop got.length ≠ wordBytes e.val then
        if canFailP then pure (.error, canFailP, a')
        else throw (.panic "values don't match; expected: %s:%d:%x, got %x\n")
      else replayLoop b corruptOp (n + 1) es canFailP a' := by
  obtain ⟨⟨hcnt, hn⟩, _⟩ := uncorrupted_cons.mp hes
  have hread := readExact_eq (n := 4) (by decide) (b.bytesRead n) (wordBytes (b.temp n)) canFailP a
  rw [hreceive] at hread
  obtain ⟨a', hrest, heq⟩ := hread
  refine ⟨a', hrest, ?_⟩
  rw [replayLoop_write hop hcnt hn, heq]
  rfl

/-- An entry that is written, when the read fails. -/
theorem replayLoop_write_failed (hop : e.op = .write32) (hes : Uncorrupted corruptOp n (e :: es))
    {a : List Arrival} (hcut : CutByFailure (b.bytesRead n) (symsOf a)) :
    ∃ stop, replayLoop b corruptOp n (e :: es) canFailP a = .error stop := by
  obtain ⟨⟨hcnt, hn⟩, _⟩ := uncorrupted_cons.mp hes
  have hread := readExact_eq (n := 4) (by decide) (b.bytesRead n) (wordBytes (b.temp n)) canFailP a
  have hnone := cutByFailure_iff.mp hcut
  rw [replayLoop_write hop hcnt hn]
  cases hreceive : receive (b.bytesRead n) 4 [] (symsOf a) with
  | bytes got rest => exact absurd hreceive (hnone got rest)
  | failed rest =>
    rw [hreceive] at hread
    obtain ⟨buf, a', _, heq⟩ := hread
    cases canFailP with
    | false => exact ⟨.err "read failed", by rw [heq]; rfl⟩
    | true => exact ⟨.err "read exact messed up", by rw [heq]; rfl⟩
  | died =>
    rw [hreceive] at hread
    exact ⟨.sysDie "select" "select failed", by rw [hread]; rfl⟩

/-! ## Runs of the loop -/

/-- Entries that pass are consumed. -/
theorem Passes.run {c : ℕ} {S S' : List Sym} (h : Passes b canFailP n es c S S')
    (hes : Uncorrupted corruptOp n es) {a : List Arrival} (ha : symsOf a = S) :
    ∃ a', symsOf a' = S' ∧
      replayLoop b corruptOp n es canFailP a = .ok (.consumed, canFailP, a') := by
  induction h generalizing a with
  | nil => exact ⟨a, ha, rfl⟩
  | read hop hwrite _ ih =>
    obtain ⟨⟨hcnt, _⟩, hrest⟩ := uncorrupted_cons.mp hes
    obtain ⟨a', ha', hrun⟩ := ih hrest ha
    refine ⟨a', ha', ?_⟩
    rw [replayLoop_read hop hcnt, writeExact_eq_ok.mpr hwrite, ← hrun]
    rfl
  | write hop hpiece _ ih =>
    obtain ⟨got, hreceive, hstale⟩ := piece_iff.mp ⟨_, hpiece⟩
    rw [← ha] at hreceive
    obtain ⟨a₁, ha₁, heq⟩ := replayLoop_write_bytes canFailP hop hes hreceive
    obtain ⟨a', ha', hrun⟩ := ih (uncorrupted_cons.mp hes).2 ha₁
    refine ⟨a', ha', ?_⟩
    rw [heq, if_neg (not_not.mpr hstale), hrun]

/-- The loop does not change the flag where no entry is corrupted. -/
theorem canFailP_of_run {exit : LoopExit} {canFailP' : Bool} {a a' : List Arrival}
    (hes : Uncorrupted corruptOp n es)
    (hrun : replayLoop b corruptOp n es canFailP a = .ok (exit, canFailP', a')) :
    canFailP' = canFailP := by
  induction es generalizing n a with
  | nil =>
    cases hrun
    rfl
  | cons e es ih =>
    obtain ⟨⟨hcnt, hn⟩, hrest⟩ := uncorrupted_cons.mp hes
    by_cases hop : e.op = .write32
    · rw [replayLoop_write hop hcnt hn] at hrun
      obtain ⟨x, _, hrun⟩ := bind_eq_ok.mp hrun
      split_ifs at hrun
      · cases hrun
        rfl
      · exact ih hrest hrun
    · rw [replayLoop_read hop hcnt] at hrun
      obtain ⟨_, _, hrun⟩ := bind_eq_ok.mp hrun
      exact ih hrest hrun

/-- Entries that are consumed pass. -/
theorem passes_of_run {canFailP' : Bool} {a a' : List Arrival} (hes : Uncorrupted corruptOp n es)
    (hrun : replayLoop b corruptOp n es canFailP a = .ok (.consumed, canFailP', a')) :
    ∃ c, Passes b canFailP n es c (symsOf a) (symsOf a') := by
  induction es generalizing n a with
  | nil =>
    cases hrun
    exact ⟨0, .nil⟩
  | cons e es ih =>
    obtain ⟨⟨hcnt, _⟩, hrest⟩ := uncorrupted_cons.mp hes
    by_cases hop : e.op = .write32
    · by_cases hcut : CutByFailure (b.bytesRead n) (symsOf a)
      · obtain ⟨stop, heq⟩ := replayLoop_write_failed hop hes hcut
        cases heq.symm.trans hrun
      · obtain ⟨got, rest, hreceive⟩ := exists_bytes_of_not_cutByFailure hcut
        obtain ⟨a₁, rfl, heq⟩ := replayLoop_write_bytes canFailP hop hes hreceive
        rw [heq] at hrun
        by_cases hword : got ++ (wordBytes (b.temp n)).drop got.length = wordBytes e.val
        · rw [if_neg (not_not.mpr hword)] at hrun
          obtain ⟨cut, hpiece⟩ := piece_iff.mpr ⟨got, hreceive, hword⟩
          obtain ⟨c, hpasses⟩ := ih hrest hrun
          exact ⟨_, .write hop hpiece hpasses⟩
        · rw [if_pos hword] at hrun
          cases canFailP <;> cases hrun
    · rw [replayLoop_read hop hcnt] at hrun
      obtain ⟨_, hwrite, hrun⟩ := bind_eq_ok.mp hrun
      obtain ⟨c, hpasses⟩ := ih hrest hrun
      exact ⟨c, .read hop (writeExact_eq_ok.mp hwrite) hpasses⟩

/-- After a corruption the loop stops without a verdict exactly when a read fails before a
difference is found. -/
theorem failsRead_iff {a : List Arrival} (hes : Uncorrupted corruptOp n es) :
    FailsRead b n es (symsOf a) ↔ ∃ stop, replayLoop b corruptOp n es true a = .error stop := by
  induction es generalizing n a with
  | nil => exact iff_of_false nofun nofun
  | cons e es ih =>
    obtain ⟨⟨hcnt, _⟩, hrest⟩ := uncorrupted_cons.mp hes
    by_cases hop : e.op = .write32
    · by_cases hcut : CutByFailure (b.bytesRead n) (symsOf a)
      · exact iff_of_true (.here hop hcut) (replayLoop_write_failed hop hes hcut)
      · obtain ⟨got, rest, hreceive⟩ := exists_bytes_of_not_cutByFailure hcut
        obtain ⟨a₁, rfl, heq⟩ := replayLoop_write_bytes true hop hes hreceive
        rw [heq]
        constructor
        · intro h
          cases h with
          | here _ hcut' => exact absurd hcut' hcut
          | read hop' => exact absurd hop hop'
          | write _ hpiece h =>
            obtain ⟨got', hreceive', hstale⟩ := piece_iff.mp ⟨_, hpiece⟩
            obtain ⟨rfl, rfl⟩ := Received.bytes.inj (hreceive.symm.trans hreceive')
            rw [if_neg (not_not.mpr hstale)]
            exact (ih hrest).mp h
        · rintro ⟨stop, hstop⟩
          by_cases hword : got ++ (wordBytes (b.temp n)).drop got.length = wordBytes e.val
          · rw [if_neg (not_not.mpr hword)] at hstop
            obtain ⟨cut, hpiece⟩ := piece_iff.mpr ⟨got, hreceive, hword⟩
            exact .write hop hpiece ((ih hrest).mpr ⟨stop, hstop⟩)
          · rw [if_pos hword] at hstop
            cases hstop
    · have hwrite : writeExact b n e.payload true = .ok () := writeExact_eq_ok.mpr nofun
      have hnext : replayLoop b corruptOp n (e :: es) true a =
          replayLoop b corruptOp (n + 1) es true a := by
        rw [replayLoop_read hop hcnt, hwrite]
        rfl
      rw [hnext, ← ih hrest]
      constructor
      · intro h
        cases h with
        | here hop' => exact absurd hop' hop
        | read _ h => exact h
        | write hop' => exact absurd hop' hop
      · exact .read hop

/-- Behind entries that are consumed the loop goes on. -/
theorem replayLoop_append {canFailP' : Bool} {a a' : List Arrival}
    (hes : Uncorrupted corruptOp n es)
    (hrun : replayLoop b corruptOp n es canFailP a = .ok (.consumed, canFailP', a'))
    (es' : List Entry) :
    replayLoop b corruptOp n (es ++ es') canFailP a =
      replayLoop b corruptOp (n + es.length) es' canFailP' a' := by
  induction es generalizing n a with
  | nil =>
    cases hrun
    rfl
  | cons e es ih =>
    obtain ⟨⟨hcnt, hn⟩, hrest⟩ := uncorrupted_cons.mp hes
    have hlen : n + (e :: es).length = n + 1 + es.length := by
      rw [List.length_cons]
      omega
    rw [List.cons_append, hlen]
    by_cases hop : e.op = .write32
    · rw [replayLoop_write hop hcnt hn] at hrun ⊢
      obtain ⟨x, hread, hrun⟩ := bind_eq_ok.mp hrun
      rw [hread]
      by_cases hret : x.1 = 1
      · rw [if_neg (not_not.mpr hret)] at hrun
        by_cases hword : x.2.1 = wordBytes e.val
        · rw [if_neg (not_not.mpr hword)] at hrun
          rw [← ih hrest hrun]
          show (if x.1 ≠ 1 then _ else if x.2.1 ≠ wordBytes e.val then _ else _) = _
          rw [if_neg (not_not.mpr hret), if_neg (not_not.mpr hword)]
        · rw [if_pos hword] at hrun
          cases canFailP <;> cases hrun
      · rw [if_pos hret] at hrun
        cases hrun
    · rw [replayLoop_read hop hcnt] at hrun ⊢
      obtain ⟨_, hwrite, hrun⟩ := bind_eq_ok.mp hrun
      rw [hwrite, ← ih hrest hrun]
      rfl

end

end RpiVm.Replay
