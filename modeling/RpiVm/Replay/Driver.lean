import RpiVm.Replay.Recorded

/-!
# Replaying a boot

The driver replays the trace of a boot to `my-install` without the Pi. In every order of
single bytes the process exits with 0 and `replay` reports success; with any word for the
process replaced it exits with 1, which is a success again, unless the socket is reset and
the process owes a word.
-/

namespace RpiVm.Replay

open CLib Channel Transition

/-! ## Replaying the log -/

/-- A step of the child or of the replayer, with a byte. -/
abbrev ReplayStep (printP : Bool) (program : List (BitVec 8)) (random : ℕ → List (BitVec 32))
    (corruptOp : BitVec 32) :=
  Net.Step (install printP program) (replayer random corruptOp)

/-- Both before the first step. -/
def replayStart (log : List Entry) : Net (BitVec 8) InstallState ReplayerState :=
  ⟨.boot (.start .putSoh), .entry 0 log false, [], []⟩

/-- A run of the child and the replayer. -/
abbrev ReplayRun (printP : Bool) (program : List (BitVec 8)) (random : ℕ → List (BitVec 32))
    (corruptOp : BitVec 32) (log : List Entry) (sides : List Side)
    (c : Net (BitVec 8) InstallState ReplayerState) : Prop :=
  Run (ReplayStep printP program random corruptOp) (replayStart log) sides c

/-- What `replay` meets when the child has ended as in a run: the bytes that it has sent, in
some pieces and with no time-out in between, and then the end of the file, or an error if the
socket is reset. What is written before a corruption is taken. -/
structure Meets (b : Behaviour) (printP : Bool) (program : List (BitVec 8))
    (random : ℕ → List (BitVec 32)) (corruptOp : BitVec 32) (log : List Entry)
    (c : Net (BitVec 8) InstallState ReplayerState) (reset : Bool) : Prop where
  /-- What arrives. -/
  arrivals : ∃ Rl Ql Rr Qr, Net.Histories (install printP program) (replayer random corruptOp)
    (.boot (.start .putSoh)) (.entry 0 log false) c Rl Ql Rr Qr ∧
    symsOf b.arrivals = Ql.map .byte ++ if reset then [.readFailed] else []
  /-- What is written. -/
  takes : b.Takes corruptOp 0 log false
  /-- The values of `random`. -/
  random_eq : b.random = random
  /-- How the child has ended. -/
  wait : b.wait = c.left.wait printP

section

variable {b : Behaviour} {printP reset : Bool} {program : List (BitVec 8)}
  {random : ℕ → List (BitVec 32)} {corruptOp : BitVec 32} {log es : List Entry}
  {c : Net (BitVec 8) InstallState ReplayerState} {l : List (Move (BitVec 32))}
  {chunks : List (List (BitVec 8))}

/-- The loop of `replay` comes to the entry that the replayer has come to. -/
theorem Meets.loop {n : ℕ} {canFailP : Bool}
    (h : Meets b printP program random corruptOp log c reset)
    (hright : c.right = .entry n es canFailP) (htoRight : c.toRight = []) :
    ∃ a, symsOf a = (if reset then [.readFailed] else []) ∧
      replayLoop b corruptOp 0 log false b.arrivals = replayLoop b corruptOp n es canFailP a := by
  obtain ⟨Rl, Ql, Rr, Qr, hhist, harrive⟩ := h.arrivals
  obtain ⟨moves, hrec, hreceived, -⟩ := hhist.right.exists_recording
  rw [hright, ← h.random_eq] at hrec
  have hsent : Ql = Rr := by rw [hhist.toRight, htoRight, List.append_nil]
  obtain ⟨a, ha, hrest⟩ := rest_of_recording hrec h.takes (Nat.zero_lt_succ 3)
    (S := if reset then [.readFailed] else []) (a := b.arrivals) (by
      rw [harrive, hsent, ← hreceived]
      rfl)
  exact ⟨a, ha, hrest⟩

/-- A replay in which nothing is corrupted ends in one way. -/
theorem Recorded.replay (h : Recorded printP program l chunks)
    (hrun : ReplayRun printP program random (-1) (recordedLog l chunks) sides c) :
    ∃ sides' t, Run (ReplayStep printP program random (-1)) c sides'
        ⟨t, .entry (recordedLog l chunks).length [] false, [], []⟩ ∧
      Terminal (ReplayStep printP program random (-1))
        ⟨t, .entry (recordedLog l chunks).length [] false, [], []⟩ ∧
      t.wait printP = some (.exited 0) ∧
      sides.length + sides'.length = 2 * (4 * l.length + chunks.flatten.length) := by
  obtain ⟨t, hchild, hhalt, hwait⟩ := h.child
  have hlog : Recording (replayer random (-1)) _ _ _ :=
    recording_entries h.numbered.uncorrupted [] false
  rw [List.append_nil, Nat.zero_add, h.moves] at hlog
  have hall : Recording (replayer random (-1)) (.entry 0 (recordedLog l chunks) false)
      ((l.flatMap wordCode.moves ++ chunks.flatten.map Move.received).map Move.dual ++
        ([] : List (BitVec 8)).map .sent) (.entry (recordedLog l chunks).length [] false) := by
    simpa using hlog
  obtain ⟨sides', hrest, hterm, hlen⟩ := Net.replay hchild hhalt hall (fun a u h => by cases h) hrun
  refine ⟨sides', t, hrest, hterm, hwait, ?_⟩
  have hwords : (l.flatMap wordCode.moves).length = 4 * l.length := by
    have hfour : ∀ m : Move (BitVec 32), (wordCode.moves m).length = 4 := by
      intro m
      cases m <;> rfl
    simp [List.length_flatMap, hfour, Nat.mul_comm]
  rw [hlen, List.length_append, hwords, List.length_map, List.length_nil, Nat.add_zero]

/-- A replay with a word for the child replaced ends in one way. -/
theorem Recorded.replay_corrupted (hfit : Fits program) (h : Recorded printP program l chunks)
    {k : ℕ} {e : Entry} (he : (recordedLog l chunks)[k]? = some e) (hop : e.op = .read32)
    (hrandom : ∃ v ∈ random k, v ≠ e.val)
    (hrun : ReplayRun printP program random (BitVec.ofNat 32 k) (recordedLog l chunks) sides c) :
    ∃ sides' t n es as, Run (ReplayStep printP program random (BitVec.ofNat 32 k)) c sides'
        ⟨t, .entry n es true, [], as⟩ ∧
      Terminal (ReplayStep printP program random (BitVec.ofNat 32 k))
        ⟨t, .entry n es true, [], as⟩ ∧
      t.wait printP = some (.exited 1) ∧
      sides.length + sides'.length ≤ 8 * (recordedLog l chunks).length ∧
      Uncorrupted (BitVec.ofNat 32 k) n es ∧
      (es = [] ∧ (∀ e ∈ (recordedLog l chunks).drop (k + 1), e.op ≠ .write32) ∨
        (∃ e es', es = e :: es' ∧ e.op = .write32) ∧
          ∃ e ∈ (recordedLog l chunks).drop (k + 1), e.op = .write32) := by
  obtain ⟨hlt, hget⟩ := List.getElem?_eq_some_iff.mp he
  obtain ⟨v, hv⟩ : ∃ v, (random k).find? (· ≠ e.val) = some v := by
    obtain ⟨v, hv, hne⟩ := hrandom
    exact Option.isSome_iff_exists.mp (List.find?_isSome.mpr ⟨v, hv, decide_eq_true hne⟩)
  have hne : v ≠ e.val := by simpa using List.find?_some hv
  have hreceived := h.read32 he hop
  have hk : k < l.length := (List.getElem?_eq_some_iff.mp hreceived).1
  -- the child
  obtain ⟨msg, v', x', error, hpanic⟩ := h.panics hfit hreceived hne
  have hframed : Recording (framed wordCode (simpleBoot program)) (.start .putSoh)
      ((l.take k ++ [Move.received v]).flatMap wordCode.moves)
      ⟨.panicked msg v' x' error, [], [], _, _⟩ :=
    Recording.framed (s := .start UnixState.putSoh) rfl rfl hpanic
  have hchild := recording_boot printP hframed
  -- the replayer
  have hsplit : recordedLog l chunks =
      (recordedLog l chunks).take k ++ e :: (recordedLog l chunks).drop (k + 1) := by
    rw [← hget, List.cons_getElem_drop_succ, List.take_append_drop]
  have hbefore : Recording (replayer random (BitVec.ofNat 32 k)) _ _ _ :=
    recording_entries (h.numbered.uncorrupted_take hlt)
      (e :: (recordedLog l chunks).drop (k + 1)) false
  rw [← hsplit, Nat.zero_add, List.length_take_of_le hlt.le, h.moves_take hk.le] at hbefore
  have hcorrupt : Recording (replayer random (BitVec.ofNat 32 k)) _ _ _ :=
    recording_corrupted ((recordedLog l chunks).drop (k + 1)) (h.numbered.2 k e he) hop hv
  obtain ⟨as, n, es, hsends, hidle, hes, hle, hend⟩ :=
    @recording_sends random _ _ _ (h.numbered.uncorrupted_drop (k := k)) true
  have hreplayer := (hbefore.append hcorrupt).append hsends
  have hword : wordCode.encode v = wordBytes v := putUint_eq v
  have hdual : ((l.take k ++ [Move.received v]).flatMap wordCode.moves).map Move.dual =
      ((l.take k).flatMap wordCode.moves).map Move.dual ++ (wordBytes v).map Move.sent := by
    rw [List.flatMap_append, List.map_append]
    simp [Code.moves, hword, Move.dual, Function.comp_def]
  rw [← hdual] at hreplayer
  obtain ⟨sides', hrest, hterm, hlen⟩ := Net.replay hchild rfl hreplayer hidle hrun
  refine ⟨sides', _, n, es, as, hrest, hterm, rfl, ?_, hes, hend⟩
  have hwords : ((l.take k ++ [Move.received v]).flatMap wordCode.moves).length = 4 * (k + 1) := by
    have hfour : ∀ m : Move (BitVec 32), (wordCode.moves m).length = 4 := by
      intro m
      cases m <;> rfl
    simp [List.length_flatMap, hfour, hk.le]
    omega
  rw [hlen, hwords]
  rw [List.length_drop] at hle
  omega

/-- `replay` reports success of a log consumed and a child that exits with 0. -/
theorem Meets.success {n : ℕ} (h : Meets b printP program random corruptOp log c false)
    (hright : c.right = .entry n [] false) (htoRight : c.toRight = [])
    (hwait : c.left.wait printP = some (.exited 0)) : replay b corruptOp log = .ok 0 := by
  obtain ⟨a, ha, hloop⟩ := h.loop hright htoRight
  have heof : isEof a = .ok true := isEof_eq_ok.mpr ⟨rfl, ha⟩
  have hcode : procExitCode b = .ok 0 := by
    rw [procExitCode, h.wait, hwait]
    rfl
  rw [replay, hloop, replayLoop]
  simp only [pure, Except.pure, bind, Except.bind, heof, hcode]
  rfl

/-- After a corruption `replay` reports success of a child that exits with 1, unless the
socket is reset when a word is missing. -/
theorem Meets.crash {n : ℕ} (h : Meets b printP program random corruptOp log c reset)
    (hright : c.right = .entry n es true) (htoRight : c.toRight = [])
    (hwait : c.left.wait printP = some (.exited 1)) (hes : Uncorrupted corruptOp n es)
    (hend : es = [] ∨ ∃ e es', es = e :: es' ∧ e.op = .write32) :
    (∃ status, replay b corruptOp log = .ok status) ↔ reset = false ∨ es = [] := by
  obtain ⟨a, ha, hloop⟩ := h.loop hright htoRight
  have hverdict : ∃ status, replayError b true = .ok status :=
    replayError_eq_ok.mpr ⟨.exited 1, by rw [h.wait, hwait], by decide⟩
  have hreplay : (∃ status, replay b corruptOp log = .ok status) ↔
      ¬ FailsRead b n es (symsOf a) := by
    rw [failsRead_iff hes, replay, hloop]
    cases hrest : replayLoop b corruptOp n es true a with
    | error stop =>
      refine iff_of_false ?_ fun hnot => hnot ⟨stop, rfl⟩
      rintro ⟨status, hok⟩
      cases hok
    | ok x =>
      obtain ⟨exit, canFailP, a'⟩ := x
      obtain rfl := canFailP_of_run hes hrest
      refine iff_of_true ?_ ?_
      · cases exit <;> exact hverdict
      · rintro ⟨stop, hstop⟩
        cases hstop
  have hquiet : ∀ {n es}, ¬ FailsRead b n es [] := by
    intro n es hfails
    generalize hS : ([] : List Sym) = S at hfails
    induction hfails with
    | here _ hcut => cases hcut <;> simp at hS
    | read _ _ ih => exact ih hS
    | write _ hpiece _ ih =>
      refine ih ?_
      cases hpiece with
      | whole => simp [wordBytes] at hS
      | eof => rfl
      | pause => simp at hS
  rw [hreplay, ha]
  cases reset with
  | false => exact iff_of_true hquiet (.inl rfl)
  | true =>
    obtain rfl | ⟨e, es', rfl, hop⟩ := hend
    · refine iff_of_true (fun hfails => ?_) (.inr rfl)
      cases hfails
    · have hfails : FailsRead b n (e :: es') [.readFailed] :=
        .here hop (@CutByFailure.read _ [] _ (by decide))
      exact iff_of_false (fun h => h hfails) (by simp)

/-- A run on such a log that has ended is a success. -/
theorem succeeds_of_recorded (h : Recorded printP program l chunks)
    (hrun : ReplayRun printP program random (-1) (recordedLog l chunks) sides c)
    (hend : Terminal (ReplayStep printP program random (-1)) c) :
    c.left.wait printP = some (.exited 0) ∧ c.toRight = [] ∧ c.toLeft = [] ∧
      ∀ b, Meets b printP program random (-1) (recordedLog l chunks) c false →
        replay b (-1) (recordedLog l chunks) = .ok 0 := by
  obtain ⟨sides', t, hrest, hterm, hwait, -⟩ := h.replay hrun
  have hc : c = ⟨t, .entry (recordedLog l chunks).length [] false, [], []⟩ := by
    cases hrest with
    | nil => rfl
    | cons hstep _ => exact absurd hstep (hend _ _)
  subst hc
  exact ⟨hwait, rfl, rfl, fun b hb => hb.success rfl rfl hwait⟩

/-- With a word for the child replaced, it is a crash. -/
theorem crashes_of_recorded (hfit : Fits program) (h : Recorded printP program l chunks) {k : ℕ}
    {e : Entry} (he : (recordedLog l chunks)[k]? = some e) (hop : e.op = .read32)
    (hrandom : ∃ v ∈ random k, v ≠ e.val)
    (hrun : ReplayRun printP program random (BitVec.ofNat 32 k) (recordedLog l chunks) sides c)
    (hend : Terminal (ReplayStep printP program random (BitVec.ofNat 32 k)) c) :
    c.left.wait printP = some (.exited 1) ∧
      ∀ b reset, Meets b printP program random (BitVec.ofNat 32 k) (recordedLog l chunks) c reset →
        ((∃ status, replay b (BitVec.ofNat 32 k) (recordedLog l chunks) = .ok status) ↔
          reset = false ∨ ∀ e ∈ (recordedLog l chunks).drop (k + 1), e.op ≠ .write32) := by
  obtain ⟨sides', t, n, es, as, hrest, hterm, hwait, -, hes, hcase⟩ :=
    h.replay_corrupted hfit he hop hrandom hrun
  have hc : c = ⟨t, .entry n es true, [], as⟩ := by
    cases hrest with
    | nil => rfl
    | cons hstep _ => exact absurd hstep (hend _ _)
  subst hc
  refine ⟨hwait, fun b reset hb => ?_⟩
  rw [hb.crash rfl rfl hwait hes (hcase.imp And.left And.left)]
  obtain ⟨rfl, hnone⟩ | ⟨⟨e', es', rfl, -⟩, e'', he'', hop''⟩ := hcase
  · exact iff_of_true (.inr rfl) (.inr hnone)
  · have hsome : ¬ ∀ e ∈ (recordedLog l chunks).drop (k + 1), e.op ≠ .write32 :=
      fun hnone => hnone e'' he'' hop''
    simp [hsome]

/-- The trace of every boot that has been recorded, read back as a log, replays with success: in
every order of single bytes the child and the replayer take the same number of steps, the
child exits with 0, and `replay` reports it. -/
theorem replay_recorded (h : Recorded printP program l chunks) :
    (∃ s, readInput false (traceText (l.map wordCall ++ chunks.map chunkCall)) = .ok s ∧
      s.q.Holds s.heap (recordedLog l chunks)) ∧
    ∀ random sides c, ReplayRun printP program random (-1) (recordedLog l chunks) sides c →
      (∃ sides' c', Run (ReplayStep printP program random (-1)) c sides' c' ∧
        Terminal (ReplayStep printP program random (-1)) c' ∧
        sides.length + sides'.length = 2 * (4 * l.length + chunks.flatten.length)) ∧
      (Terminal (ReplayStep printP program random (-1)) c →
        c.left.wait printP = some (.exited 0) ∧ c.toRight = [] ∧ c.toLeft = [] ∧
          ∀ b, Meets b printP program random (-1) (recordedLog l chunks) c false →
            replay b (-1) (recordedLog l chunks) = .ok 0) := by
  refine ⟨h.readInput, fun random sides c hrun => ?_⟩
  obtain ⟨sides', t, hrest, hterm, -, hlen⟩ := h.replay hrun
  exact ⟨⟨sides', _, hrest, hterm, hlen⟩, succeeds_of_recorded h hrun⟩

/-- With any word for the child replaced, in every order of single bytes the child exits with
1, and `replay` reports a success exactly when the socket is not reset or the log has no word
of the child behind. -/
theorem replay_corrupted_recorded (hfit : Fits program) (h : Recorded printP program l chunks)
    {k : ℕ} {e : Entry} (he : (recordedLog l chunks)[k]? = some e) (hop : e.op = .read32)
    (hrandom : ∃ v ∈ random k, v ≠ e.val)
    (hrun : ReplayRun printP program random (BitVec.ofNat 32 k) (recordedLog l chunks) sides c) :
    (∃ sides' c', Run (ReplayStep printP program random (BitVec.ofNat 32 k)) c sides' c' ∧
      Terminal (ReplayStep printP program random (BitVec.ofNat 32 k)) c' ∧
      sides.length + sides'.length ≤ 8 * (recordedLog l chunks).length) ∧
    (Terminal (ReplayStep printP program random (BitVec.ofNat 32 k)) c →
      c.left.wait printP = some (.exited 1) ∧
        ∀ b reset,
          Meets b printP program random (BitVec.ofNat 32 k) (recordedLog l chunks) c reset →
            ((∃ status, replay b (BitVec.ofNat 32 k) (recordedLog l chunks) = .ok status) ↔
              reset = false ∨ ∀ e ∈ (recordedLog l chunks).drop (k + 1), e.op ≠ .write32)) := by
  obtain ⟨sides', t, n, es, as, hrest, hterm, -, hlen, -⟩ :=
    h.replay_corrupted hfit he hop hrandom hrun
  exact ⟨⟨sides', _, hrest, hterm, hlen⟩, crashes_of_recorded hfit h he hop hrandom hrun⟩

end

/-! ## The driver -/

/-- `check_success`. -/
def checkSuccess (b : Behaviour) (replayLog : List Entry) : Except Stop Unit := do
  let _ ← replay b (-1) replayLog

/-- The loop of `check_crashes`, with what each replay meets. -/
def checkCrashesLoop (b : ℕ → Behaviour) (replayLog : List Entry) :
    ℕ → List Entry → Except Stop Unit
  | _, [] => pure ()
  | n, e :: es =>
    match e.op with
    | .read8 => pure ()
    | .write32 => checkCrashesLoop b replayLog (n + 1) es
    | .read32 => do
      let _ ← replay (b n) (BitVec.ofNat 32 n) replayLog
      checkCrashesLoop b replayLog (n + 1) es

/-- `check_crashes`. -/
def checkCrashes (b : ℕ → Behaviour) (replayLog : List Entry) : Except Stop Unit :=
  checkCrashesLoop b replayLog 0 replayLog

/-- `main` of the driver behind `read_input`, with what each of its replays meets. -/
def driver (success : ℕ → Behaviour) (crash : ℕ → ℕ → Behaviour) (replayLog : List Entry) :
    Except Stop Unit := do
  (List.range 10).forM fun i => checkSuccess (success i) replayLog
  (List.range 10).forM fun i => checkCrashes (crash i) replayLog

/-- What a replay meets comes from some run of it that has ended. The socket can be reset only by a
child that leaves bytes unread. -/
def FromRun (printP : Bool) (program : List (BitVec 8)) (corruptOp : BitVec 32) (log : List Entry)
    (b : Behaviour) (reset : Bool) : Prop :=
  ∃ sides c, ReplayRun printP program b.random corruptOp log sides c ∧
    Terminal (ReplayStep printP program b.random corruptOp) c ∧
    Meets b printP program b.random corruptOp log c reset ∧ (reset = true → c.toLeft ≠ [])

/-- A loop succeeds if every turn does. -/
theorem forM_eq_ok {f : ℕ → Except Stop Unit} {is : List ℕ} :
    is.forM f = .ok () ↔ ∀ i ∈ is, f i = .ok () := by
  induction is with
  | nil => exact iff_of_true rfl (by simp)
  | cons i is ih =>
    have hcons : (i :: is).forM f = f i >>= fun _ => is.forM f := rfl
    rw [hcons, bind_eq_ok, List.forall_mem_cons, ← ih]
    exact ⟨fun ⟨_, hi, hrest⟩ => ⟨hi, hrest⟩, fun ⟨hi, hrest⟩ => ⟨(), hi, hrest⟩⟩

/-- Crashes are checked up to the first byte that is echoed. -/
theorem checkCrashesLoop_eq_ok {b : ℕ → Behaviour} {log : List Entry} {n : ℕ} {es : List Entry}
    (hes : es.Pairwise fun e e' => e.op = .read8 → e'.op ≠ .read32) :
    checkCrashesLoop b log n es = .ok () ↔ ∀ i e, es[i]? = some e → e.op = .read32 →
      ∃ status, replay (b (n + i)) (BitVec.ofNat 32 (n + i)) log = .ok status := by
  induction es generalizing n with
  | nil => exact iff_of_true rfl (by simp)
  | cons e es ih =>
    obtain ⟨hfirst, hrest⟩ := List.pairwise_cons.mp hes
    have hnext : (∀ i e', es[i]? = some e' → e'.op = .read32 → ∃ status,
        replay (b (n + 1 + i)) (BitVec.ofNat 32 (n + 1 + i)) log = .ok status) ↔
        ∀ i e', (e :: es)[i + 1]? = some e' → e'.op = .read32 →
          ∃ status, replay (b (n + (i + 1))) (BitVec.ofNat 32 (n + (i + 1))) log = .ok status := by
      simp only [List.getElem?_cons_succ, Nat.add_assoc, Nat.add_comm 1]
    rw [checkCrashesLoop]
    cases hop : e.op with
    | read8 =>
      refine iff_of_true rfl fun i e' he' hop' => ?_
      cases i with
      | zero =>
        obtain rfl := Option.some.inj he'
        cases hop.symm.trans hop'
      | succ i => exact absurd hop' (hfirst e' (List.mem_of_getElem? he') hop)
    | write32 =>
      simp only
      rw [ih hrest, hnext]
      refine ⟨fun h i e' he' hop' => ?_, fun h i => h (i + 1)⟩
      cases i with
      | zero =>
        obtain rfl := Option.some.inj he'
        cases hop.symm.trans hop'
      | succ i => exact h i e' he' hop'
    | read32 =>
      simp only
      rw [bind_eq_ok]
      constructor
      · rintro ⟨status, hok, h⟩ i e' he' hop'
        cases i with
        | zero => exact ⟨status, hok⟩
        | succ i => exact hnext.mp ((ih hrest).mp h) i e' he' hop'
      · intro h
        obtain ⟨status, hok⟩ := h 0 e rfl hop
        exact ⟨status, hok, (ih hrest).mpr (hnext.mpr fun i => h (i + 1))⟩

/-- The driver goes through with the log of a boot that has been recorded, whatever orders of
single bytes its replays take, exactly when no socket is reset in a replay that corrupts a word
with a word of the child behind it. -/
theorem driver_passes_iff {printP : Bool} {program : List (BitVec 8)} {l : List (Move (BitVec 32))}
    {chunks : List (List (BitVec 8))} (hfit : Fits program) (h : Recorded printP program l chunks)
    {success : ℕ → Behaviour} {crash : ℕ → ℕ → Behaviour} {reset₀ : ℕ → Bool} {reset : ℕ → ℕ → Bool}
    (hsuccess : ∀ i, FromRun printP program (-1) (recordedLog l chunks) (success i) (reset₀ i))
    (hcrash : ∀ i n e, (recordedLog l chunks)[n]? = some e → e.op = .read32 →
      FromRun printP program (BitVec.ofNat 32 n) (recordedLog l chunks) (crash i n) (reset i n) ∧
        ∃ v ∈ (crash i n).random n, v ≠ e.val) :
    driver success crash (recordedLog l chunks) = .ok () ↔
      ∀ i < 10, ∀ n e, (recordedLog l chunks)[n]? = some e → e.op = .read32 →
        reset i n = false ∨ ∀ e' ∈ (recordedLog l chunks).drop (n + 1), e'.op ≠ .write32 := by
  have hfirst : ∀ i, checkSuccess (success i) (recordedLog l chunks) = .ok () := by
    intro i
    obtain ⟨sides, c, hrun, hterm, hmeets, hreset⟩ := hsuccess i
    obtain ⟨-, -, hread, hok⟩ := succeeds_of_recorded h hrun hterm
    -- the child has read everything
    have hnone : reset₀ i = false := by
      by_contra hset
      exact hreset (Bool.eq_true_of_not_eq_false hset) hread
    rw [hnone] at hmeets
    rw [checkSuccess, hok _ hmeets]
    rfl
  have hsecond : ∀ i, checkCrashes (crash i) (recordedLog l chunks) = .ok () ↔
      ∀ n e, (recordedLog l chunks)[n]? = some e → e.op = .read32 →
        reset i n = false ∨ ∀ e' ∈ (recordedLog l chunks).drop (n + 1), e'.op ≠ .write32 := by
    intro i
    rw [checkCrashes, checkCrashesLoop_eq_ok h.pairwise]
    refine forall_congr' fun n => forall_congr' fun e => forall_congr' fun he =>
      forall_congr' fun hop => ?_
    obtain ⟨⟨sides, c, hrun, hterm, hmeets, -⟩, hrandom⟩ := hcrash i n e he hop
    rw [Nat.zero_add]
    exact (crashes_of_recorded hfit h he hop hrandom hrun hterm).2 _ _ hmeets
  rw [driver, forM_eq_ok.mpr fun i _ => hfirst i]
  refine forM_eq_ok.trans ?_
  simp only [List.mem_range, hsecond]

/-! ## Examples -/

/-- Bytes that arrive one by one. -/
theorem symsOf_bytes (bs : List (BitVec 8)) :
    symsOf (bs.map fun b => .chunk b []) = bs.map Sym.byte := by
  induction bs with
  | nil => rfl
  | cons b bs ih =>
    have hcons : symsOf ((b :: bs).map fun b => .chunk b []) =
        .byte b :: symsOf (bs.map fun b => .chunk b []) := rfl
    rw [hcons, ih, List.map_cons]

/-- Every run that has ended is met in some way. -/
theorem exists_fromRun {printP : Bool} {program : List (BitVec 8)} {random : ℕ → List (BitVec 32)}
    {corruptOp : BitVec 32} {log : List Entry} {sides : List Side}
    {c : Net (BitVec 8) InstallState ReplayerState}
    (hrun : ReplayRun printP program random corruptOp log sides c)
    (hterm : Terminal (ReplayStep printP program random corruptOp) c) :
    ∃ b, FromRun printP program corruptOp log b false ∧ b.random = random := by
  obtain ⟨Rl, Ql, Rr, Qr, hhist, -⟩ := Net.histories hrun
  refine ⟨⟨Ql.map fun b => .chunk b [], fun _ buf => buf.length, fun _ => 0, fun _ => 0, random,
    c.left.wait printP⟩, ⟨sides, c, hrun, hterm,
      ⟨⟨Rl, Ql, Rr, Qr, hhist, ?_⟩, ?_, rfl, rfl⟩, by simp⟩, rfl⟩
  · simpa using symsOf_bytes Ql
  · exact fun _ i _ => .inr fun buf => rfl

/-- The word that is expected. -/
theorem recording_expect {program : List (BitVec 8)} {s next t : UnixState} {msg : String}
    {v : BitVec 32} {l : List (Move (BitVec 32))}
    (hM : simpleBoot program s = RpiVm.expect msg v next)
    (h : Recording (simpleBoot program) next l t) :
    Recording (simpleBoot program) s (.received v :: l) t := by
  refine .recv v hM ?_
  rw [if_neg (not_not.mpr rfl)]
  exact h

/-- A program of five bytes. -/
def fiveProgram : List (BitVec 8) := [1, 2, 3, 4, 5]

/-- Its boot. -/
def fiveBoot : List (Move (BitVec 32)) :=
  [.sent soh, .sent 5, .sent (crc32 fiveProgram), .received soh,
    .received (crc32 (wordBytes 5)), .received (crc32 fiveProgram), .sent ack, .sent 0x04030201,
    .sent 0x05, .sent eot, .received ack]

/-- It is a boot that has succeeded. -/
theorem recorded_fiveBoot {printP : Bool} {chunks : List (List (BitVec 8))}
    (hout : if printP then Announces chunks.flatten else chunks = [])
    (hchunk : ∀ c ∈ chunks, c.length < 4096)
    (hlen : (installEvents fiveBoot chunks).length < 2 ^ 31) :
    Recorded printP fiveProgram fiveBoot chunks := by
  have hdata : Recording (simpleBoot fiveProgram) .putAck
      [.sent ack, .sent 0x04030201, .sent 0x05, .sent eot, .received ack] .returned :=
    .send rfl (.send rfl (.send rfl (.send rfl (recording_expect rfl (.nil _)))))
  have hecho : Recording (simpleBoot fiveProgram) .expectSoh _ .returned :=
    recording_expect rfl (recording_expect rfl (recording_expect rfl hdata))
  exact ⟨.send rfl (.send rfl (.send rfl hecho)), hout, hchunk, hlen⟩

/-- Output that is nothing but the announcement. -/
theorem announces_exitString : Announces [exitString].flatten := by
  refine ⟨by decide, by decide, fun pre hpre hne => ?_⟩
  obtain ⟨k, rfl⟩ : ∃ k, pre = exitString.take k := ⟨pre.length, (List.prefix_iff_eq_take.mp hpre)⟩
  have hall : ∀ k < 8, exitPattern.scan 0 (exitString.take k) ≠ exitPattern.size := by decide
  by_cases hk : k < 8
  · exact hall k hk
  · exact absurd (List.take_of_length_le (not_lt.mp hk)) hne

/-- A program of five bytes that announces the shutdown at once. -/
theorem replay_recorded_five :
    (∃ s, readInput false (traceText (fiveBoot.map wordCall ++ [chunkCall exitString])) = .ok s ∧
      s.q.Holds s.heap (recordedLog fiveBoot [exitString])) ∧
    ∃ sides c, ReplayRun true fiveProgram (fun _ => []) (-1) (recordedLog fiveBoot [exitString])
      sides c ∧ sides.length = 104 ∧ c.left.wait true = some (.exited 0) := by
  have h : Recorded true fiveProgram fiveBoot [exitString] :=
    recorded_fiveBoot announces_exitString (by decide) (by decide)
  obtain ⟨hread, hall⟩ := replay_recorded h
  obtain ⟨⟨sides, c, hrun, hterm, hlen⟩, -⟩ := hall (fun _ => []) [] _ (.nil _)
  have hend := (hall (fun _ => []) sides c hrun).2 hterm
  exact ⟨hread, sides, c, hrun, by simpa [fiveBoot, exitString] using hlen, hend.1⟩

/-- The SOH that the Pi echoes, replaced by zero. -/
theorem replay_corrupted_recorded_five :
    ∃ sides c, ReplayRun false fiveProgram (fun _ => [0]) 3 (recordedLog fiveBoot []) sides c ∧
      c.left.wait false = some (.exited 1) := by
  have h : Recorded false fiveProgram fiveBoot [] := recorded_fiveBoot rfl (by simp) (by decide)
  have he : (recordedLog fiveBoot [])[3]? = some ⟨.read32, 3, soh⟩ := rfl
  have hrandom : ∃ v ∈ [0], v ≠ soh := ⟨0, List.mem_cons_self, by decide⟩
  have hstart : ReplayRun false fiveProgram (fun _ => [0]) 3 (recordedLog fiveBoot []) [] _ :=
    .nil _
  obtain ⟨⟨sides, c, hrun, hterm, -⟩, -⟩ :=
    replay_corrupted_recorded (by decide) h he rfl hrandom hstart
  have hend := (replay_corrupted_recorded (by decide) h he rfl hrandom hrun).2 hterm
  exact ⟨sides, c, hrun, hend.1⟩

/-- The driver goes through with the boot of a program of five bytes. -/
theorem driver_passes_five :
    ∃ success crash, driver success crash (recordedLog fiveBoot []) = .ok () := by
  have h : Recorded false fiveProgram fiveBoot [] := recorded_fiveBoot rfl (by simp) (by decide)
  have hfit : Fits fiveProgram := by decide
  obtain ⟨success, hsuccess⟩ :
      ∃ b, FromRun false fiveProgram (-1) (recordedLog fiveBoot []) b false := by
    have hstart : ReplayRun false fiveProgram (fun _ => []) (-1) (recordedLog fiveBoot []) [] _ :=
      .nil _
    obtain ⟨sides, t, hrun, hterm, -⟩ := h.replay hstart
    obtain ⟨b, hb, -⟩ := exists_fromRun hrun hterm
    exact ⟨b, hb⟩
  have hcrash : ∀ n : ℕ, ∃ b : Behaviour, ∀ e, (recordedLog fiveBoot [])[n]? = some e →
      e.op = .read32 → FromRun false fiveProgram (BitVec.ofNat 32 n) (recordedLog fiveBoot []) b
        false ∧ ∃ v ∈ b.random n, v ≠ e.val := by
    intro n
    by_cases hread : ∃ e, (recordedLog fiveBoot [])[n]? = some e ∧ e.op = .read32
    · obtain ⟨e, he, hop⟩ := hread
      have hrandom : ∃ v ∈ [e.val + 1], v ≠ e.val := ⟨_, List.mem_singleton_self _, by simp⟩
      have hstart : ReplayRun false fiveProgram (fun _ => [e.val + 1]) (BitVec.ofNat 32 n)
          (recordedLog fiveBoot []) [] _ := .nil _
      obtain ⟨sides, t, n', es, as, hrun, hterm, -⟩ :=
        h.replay_corrupted hfit he hop hrandom hstart
      obtain ⟨b, hb, hrand⟩ := exists_fromRun hrun hterm
      refine ⟨b, fun e' he' _ => ⟨hb, ?_⟩⟩
      obtain rfl := Option.some.inj (he.symm.trans he')
      rw [hrand]
      exact hrandom
    · exact ⟨success, fun e he hop => absurd ⟨e, he, hop⟩ hread⟩
  choose crash hcrash using hcrash
  exact ⟨fun _ => success, fun _ => crash,
    (driver_passes_iff hfit h (fun _ => hsuccess) fun _ => hcrash).mpr
      fun _ _ _ _ _ _ => .inl rfl⟩

end RpiVm.Replay
