import RpiVm.Replay.Child
import RpiVm.Replay.Replayer
import RpiVm.Replay.RoundTrip

/-!
# The log of a boot

What the replayer does along a log, and what the log of a boot that has succeeded says:
played to `my-install` it makes the process do again what it has done, and a word replaced
makes it panic.
-/

namespace RpiVm.Replay

open CLib Channel Transition

/-! ## What the replayer does along a log -/

/-- What the replayer does for an entry. -/
def Entry.moves (e : Entry) : List (Move (BitVec 8)) :=
  match e.op with
  | .write32 => (wordBytes e.val).map .received
  | _ => e.payload.map .sent

section

variable {random : ℕ → List (BitVec 32)} {corruptOp : BitVec 32}

/-- Bytes are written. -/
theorem recording_writing (n : ℕ) (es : List Entry) (canFailP : Bool) {bs : List (BitVec 8)}
    (hbs : bs ≠ []) : Recording (replayer random corruptOp) (.writing bs n es canFailP)
      (bs.map .sent) (.entry (n + 1) es canFailP) := by
  induction bs with
  | nil => exact absurd rfl hbs
  | cons b bs ih =>
    cases bs with
    | nil => exact .send rfl (.nil _)
    | cons b' bs => exact .send rfl (ih (by simp))

/-- The word of an entry arrives. -/
theorem recording_reading (v : BitVec 32) (n : ℕ) (es : List Entry) (canFailP : Bool) :
    Recording (replayer random corruptOp) (.reading v [] n es canFailP)
      ((wordBytes v).map .received) (.entry (n + 1) es canFailP) := by
  refine .recv _ rfl (.recv _ rfl (.recv _ rfl (.recv _ rfl ?_)))
  convert Recording.nil (M := replayer random corruptOp) (.entry (n + 1) es canFailP) using 1
  · simp [wordBytes]
  · rfl

/-- An entry that is not corrupted. -/
theorem recording_entry {n : ℕ} {e : Entry} (es : List Entry) (canFailP : Bool)
    (hcnt : e.cnt ≠ corruptOp) (hn : BitVec.ofNat 32 n ≠ corruptOp) :
    Recording (replayer random corruptOp) (.entry n (e :: es) canFailP) e.moves
      (.entry (n + 1) es canFailP) := by
  unfold Entry.moves Entry.payload
  cases hop : e.op with
  | read8 =>
    have hstep : replayer random corruptOp (.entry n (e :: es) canFailP) =
        writeBytes n es canFailP [e.val.setWidth 8] := by
      rw [replayer, if_neg hcnt]
      simp only [pure, Except.pure, hop]
    have hwrite : Recording (replayer random corruptOp) (.writing [e.val.setWidth 8] n es canFailP)
        _ _ := recording_writing n es canFailP (by simp)
    exact hwrite.congr hstep (by simp)
  | read32 =>
    have hstep : replayer random corruptOp (.entry n (e :: es) canFailP) =
        writeBytes n es canFailP (wordBytes e.val) := by
      rw [replayer, if_neg hcnt]
      simp only [pure, Except.pure, hop]
    have hwrite : Recording (replayer random corruptOp) (.writing (wordBytes e.val) n es canFailP)
        _ _ := recording_writing n es canFailP (by simp [wordBytes])
    exact hwrite.congr hstep (by simp [wordBytes])
  | write32 =>
    have hstep : replayer random corruptOp (.entry n (e :: es) canFailP) =
        readByte e.val [] n es canFailP := by
      rw [replayer, if_neg hcnt]
      simp only [pure, Except.pure, hop, if_neg hn]
    exact (recording_reading e.val n es canFailP).congr hstep (by simp [wordBytes])

/-- Entries that are not corrupted. -/
theorem recording_entries {n : ℕ} {es : List Entry} (hes : Uncorrupted corruptOp n es)
    (es' : List Entry) (canFailP : Bool) :
    Recording (replayer random corruptOp) (.entry n (es ++ es') canFailP) (es.flatMap Entry.moves)
      (.entry (n + es.length) es' canFailP) := by
  induction es generalizing n with
  | nil => exact .nil _
  | cons e es ih =>
    obtain ⟨⟨hcnt, hn⟩, hrest⟩ := uncorrupted_cons.mp hes
    have hlen : n + (e :: es).length = n + 1 + es.length := by
      rw [List.length_cons]
      omega
    rw [List.flatMap_cons, List.cons_append, hlen]
    exact (recording_entry (es ++ es') canFailP hcnt hn).append (ih hrest)

/-- The entry that is corrupted. -/
theorem recording_corrupted {n : ℕ} {e : Entry} (es : List Entry) (hcnt : e.cnt = corruptOp)
    (hop : e.op = .read32) {v : BitVec 32} (hv : (random n).find? (· ≠ e.val) = some v) :
    Recording (replayer random corruptOp) (.entry n (e :: es) false) ((wordBytes v).map .sent)
      (.entry (n + 1) es true) := by
  have hstep : replayer random corruptOp (.entry n (e :: es) false) =
      writeBytes n es true (wordBytes v) := by
    rw [replayer, if_pos hcnt, corrupt32, hv]
    simp only [hop]
    rfl
  exact (recording_writing n es true (by simp [wordBytes])).congr hstep (by simp [wordBytes])

/-- Whatever the child does, the replayer writes on until it needs a word. -/
theorem recording_sends {n : ℕ} {es : List Entry} (hes : Uncorrupted corruptOp n es)
    (canFailP : Bool) : ∃ (as : List (BitVec 8)) (n' : ℕ) (es' : List Entry),
      Recording (replayer random corruptOp) (.entry n es canFailP) (as.map .sent)
        (.entry n' es' canFailP) ∧
      (∀ a u, replayer random corruptOp (.entry n' es' canFailP) ≠ .send a u) ∧
      Uncorrupted corruptOp n' es' ∧ as.length ≤ 4 * es.length ∧
      (es' = [] ∧ (∀ e ∈ es, e.op ≠ .write32) ∨
        (∃ e es'', es' = e :: es'' ∧ e.op = .write32) ∧ ∃ e ∈ es, e.op = .write32) := by
  induction es generalizing n with
  | nil => exact ⟨[], n, [], .nil _, (fun a u h => by cases h), hes, by simp, .inl ⟨rfl, by simp⟩⟩
  | cons e es ih =>
    obtain ⟨⟨hcnt, hn⟩, hrest⟩ := uncorrupted_cons.mp hes
    by_cases hop : e.op = .write32
    · refine ⟨[], n, e :: es, .nil _, fun a u h => ?_, hes, by simp,
        .inr ⟨⟨e, es, rfl, hop⟩, e, List.mem_cons_self, hop⟩⟩
      rw [replayer, if_neg hcnt] at h
      simp only [pure, Except.pure, hop, if_neg hn] at h
      cases h
    · obtain ⟨as, n', es', hrec, hidle, hes', hle, hend⟩ := ih hrest
      have hmoves : e.moves = e.payload.map .sent := by
        unfold Entry.moves
        cases hop' : e.op with
        | write32 => exact absurd hop' hop
        | _ => rfl
      have hfirst : Recording (replayer random corruptOp) _ e.moves _ :=
        recording_entry es canFailP hcnt hn
      rw [hmoves] at hfirst
      have hpayload : e.payload.length ≤ 4 := by
        unfold Entry.payload
        cases e.op <;> simp [wordBytes]
      refine ⟨e.payload ++ as, n', es', ?_, hidle, hes', ?_, ?_⟩
      · rw [List.map_append]
        exact hfirst.append hrec
      · rw [List.length_append, List.length_cons]
        omega
      · obtain ⟨hnil, hnone⟩ | ⟨hsome, e', he', hop'⟩ := hend
        · exact .inl ⟨hnil, by simpa [hop] using hnone⟩
        · exact .inr ⟨hsome, e', List.mem_cons_of_mem _ he', hop'⟩

end

/-! ## Logs that have been recorded -/

/-- A boot that has succeeded, and what was echoed after it. Other output ends `echo` as well,
namely with a NUL in it or with more behind the announcement in its last chunk; of that nothing is
said, since another cut into chunks may lead to another end. -/
structure Recorded (printP : Bool) (program : List (BitVec 8)) (l : List (Move (BitVec 32)))
    (chunks : List (List (BitVec 8))) : Prop where
  /-- What `simple_boot` has done. -/
  boot : Recording (simpleBoot program) .putSoh l .returned
  /-- What was echoed announces the shutdown; a silent child echoes nothing. -/
  output : if printP then Announces chunks.flatten else chunks = []
  /-- `echo` reads no longer chunks. -/
  chunk : ∀ c ∈ chunks, c.length < 4096
  /-- There are as many events as an `int` can count. -/
  events : (installEvents l chunks).length < 2 ^ 31

/-- The log that is made of the trace. -/
def recordedLog (l : List (Move (BitVec 32))) (chunks : List (List (BitVec 8))) : List Entry :=
  (installEvents l chunks).mapIdx fun i e => ⟨e.op, BitVec.ofNat 32 i, e.val⟩

/-- The event of a word. -/
def wordEvent : Move (BitVec 32) → Event
  | .sent u => ⟨.write32, u⟩
  | .received u => ⟨.read32, u⟩

/-- The event of a byte that is echoed. -/
def byteEvent (c : BitVec 8) : Event := ⟨.read8, c.setWidth 32⟩

/-- A chunk has one event for each byte. -/
theorem chunkCall_events {chunk : List (BitVec 8)} (hlen : chunk.length < 4096) :
    (chunkCall chunk).events = chunk.map byteEvent := by
  have hmod : chunk.length % 2 ^ 32 = chunk.length := Nat.mod_eq_of_lt (by omega)
  simp only [chunkCall, TraceCall.events, BitVec.toNat_ofNat, hmod]
  apply List.ext_getElem
  · simp
  · intro i hi _
    simp only [List.length_map, List.length_range] at hi
    have hi' : i % 4294967296 = i := Nat.mod_eq_of_lt (by omega)
    simp [byteEvent, hi', List.getElem?_eq_getElem hi]

/-- The events of a recorded run. -/
theorem installEvents_eq {l : List (Move (BitVec 32))} {chunks : List (List (BitVec 8))}
    (hchunk : ∀ c ∈ chunks, c.length < 4096) :
    installEvents l chunks = l.map wordEvent ++ chunks.flatten.map byteEvent := by
  have hwords : (l.map wordCall).flatMap TraceCall.events = l.map wordEvent := by
    induction l with
    | nil => rfl
    | cons m l ih =>
      rw [List.map_cons, List.flatMap_cons, ih, List.map_cons]
      cases m <;> rfl
  have hbytes : (chunks.map chunkCall).flatMap TraceCall.events = chunks.flatten.map byteEvent := by
    induction chunks with
    | nil => rfl
    | cons c chunks ih =>
      rw [List.map_cons, List.flatMap_cons, ih fun c' hc' => hchunk c' (List.mem_cons_of_mem _ hc'),
        chunkCall_events (hchunk c List.mem_cons_self), List.flatten_cons, List.map_append]
  rw [installEvents, List.flatMap_append, hwords, hbytes]

/-- What the replayer does for an event. -/
def Event.moves (e : Event) : List (Move (BitVec 8)) := Entry.moves ⟨e.op, 0, e.val⟩

/-- The replayer goes by the events, whatever their numbers. -/
theorem flatMap_moves_mapIdx (es : List Event) (g : ℕ → BitVec 32) :
    (es.mapIdx fun i e => (⟨e.op, g i, e.val⟩ : Entry)).flatMap Entry.moves =
      es.flatMap Event.moves := by
  induction es generalizing g with
  | nil => rfl
  | cons e es ih =>
    rw [List.mapIdx_cons, List.flatMap_cons, ih fun i => g (i + 1), List.flatMap_cons]
    rfl

/-- Words that the child exchanges are words that the replayer exchanges. -/
theorem flatMap_moves_wordEvent (l : List (Move (BitVec 32))) :
    (l.map wordEvent).flatMap Event.moves = (l.flatMap wordCode.moves).map Move.dual := by
  induction l with
  | nil => rfl
  | cons m l ih =>
    rw [List.map_cons, List.flatMap_cons, ih, List.flatMap_cons, List.map_append]
    congr 1
    cases m with
    | sent u =>
      have hcode : wordCode.encode u = wordBytes u := putUint_eq u
      simp [Code.moves, wordEvent, Event.moves, Entry.moves, hcode, Move.dual, Function.comp_def]
    | received u =>
      have hcode : wordCode.encode u = wordBytes u := putUint_eq u
      simp [Code.moves, wordEvent, Event.moves, Entry.moves, Entry.payload, hcode, Move.dual,
        Function.comp_def]

/-- Bytes that the child echoes are bytes that the replayer writes. -/
theorem flatMap_moves_byteEvent (out : List (BitVec 8)) :
    (out.map byteEvent).flatMap Event.moves = (out.map Move.received).map Move.dual := by
  induction out with
  | nil => rfl
  | cons c out ih =>
    have hbyte : (c.setWidth 32).setWidth 8 = c := by simp
    rw [List.map_cons, List.flatMap_cons, ih]
    simp [Event.moves, Entry.moves, Entry.payload, byteEvent, hbyte, Move.dual]

/-- What the replayer does along the log is what the child has done, seen from the other
side. -/
theorem Recorded.moves {printP : Bool} {program : List (BitVec 8)} {l : List (Move (BitVec 32))}
    {chunks : List (List (BitVec 8))} (h : Recorded printP program l chunks) :
    (recordedLog l chunks).flatMap Entry.moves =
      (l.flatMap wordCode.moves ++ chunks.flatten.map Move.received).map Move.dual := by
  rw [recordedLog, flatMap_moves_mapIdx, installEvents_eq h.chunk, List.flatMap_append,
    flatMap_moves_wordEvent, flatMap_moves_byteEvent, List.map_append]

/-- The entries are numbered as they come. -/
theorem Recorded.numbered {printP : Bool} {program : List (BitVec 8)} {l : List (Move (BitVec 32))}
    {chunks : List (List (BitVec 8))} (h : Recorded printP program l chunks) :
    Numbered (recordedLog l chunks) :=
  numbered_mapIdx _ h.events

/-- No byte is echoed before the last word. -/
theorem Recorded.pairwise {printP : Bool} {program : List (BitVec 8)} {l : List (Move (BitVec 32))}
    {chunks : List (List (BitVec 8))} (h : Recorded printP program l chunks) :
    (recordedLog l chunks).Pairwise fun e e' => e.op = .read8 → e'.op ≠ .read32 := by
  have hevents : (l.map wordEvent ++ chunks.flatten.map byteEvent).Pairwise
      fun e e' => e.op = .read8 → e'.op ≠ .read32 := by
    rw [List.pairwise_append]
    refine ⟨?_, ?_, ?_⟩
    · refine List.pairwise_map.mpr (List.pairwise_of_forall fun m _ hop => ?_)
      cases m <;> cases hop
    · exact List.pairwise_map.mpr (List.pairwise_of_forall fun _ _ _ hop => nomatch hop)
    · intro e he _ _ hop
      obtain ⟨m, -, rfl⟩ := List.mem_map.mp he
      cases m <;> cases hop
  rw [← installEvents_eq h.chunk, List.pairwise_iff_getElem] at hevents
  rw [recordedLog, List.pairwise_iff_getElem]
  intro i j hi hj hij
  rw [List.getElem_mapIdx, List.getElem_mapIdx]
  rw [List.length_mapIdx] at hi hj
  exact hevents i j hi hj hij

/-- The log is what `read_input` makes of the trace. -/
theorem Recorded.readInput {printP : Bool} {program : List (BitVec 8)}
    {l : List (Move (BitVec 32))} {chunks : List (List (BitVec 8))}
    (h : Recorded printP program l chunks) :
    ∃ s, readInput false (traceText (l.map wordCall ++ chunks.map chunkCall)) = .ok s ∧
      s.q.Holds s.heap (recordedLog l chunks) := by
  have hn : (0#32).toNat +
      ((l.map wordCall ++ chunks.map chunkCall).flatMap TraceCall.events).length < 2 ^ 31 := by
    rw [BitVec.toNat_ofNat, Nat.zero_mod, Nat.zero_add]
    exact h.events
  obtain ⟨s, hok, hholds, -⟩ :=
    readLoop_eventsText false (s := ⟨mkQ, [], []⟩) hn (mkQ_holds [])
  rw [traceText_eq]
  refine ⟨s, hok, ?_⟩
  simp only [List.nil_append, BitVec.zero_add] at hholds
  exact hholds

/-- The child does again what it has done, if it is given the same, and exits with 0. -/
theorem Recorded.child {printP : Bool} {program : List (BitVec 8)} {l : List (Move (BitVec 32))}
    {chunks : List (List (BitVec 8))} (h : Recorded printP program l chunks) :
    ∃ t, Recording (install printP program) (.boot (.start .putSoh))
        (l.flatMap wordCode.moves ++ chunks.flatten.map Move.received) t ∧
      install printP program t = .halt ∧ t.wait printP = some (.exited 0) := by
  have hframed : Recording (framed wordCode (simpleBoot program)) (.start .putSoh)
      (l.flatMap wordCode.moves) ⟨.returned, [], [], sentOf l, receivedOf l⟩ :=
    Recording.framed (s := .start UnixState.putSoh) rfl rfl h.boot
  have hboot := recording_boot printP hframed
  have houtput := h.output
  cases printP with
  | false =>
    have hnone : chunks = [] := houtput
    rw [hnone]
    refine ⟨_, by simpa using hboot, rfl, rfl⟩
  | true =>
    have hout : Announces chunks.flatten := houtput
    have hecho : Recording (install true program) _ _ _ :=
      recording_echo true exitPattern.size_pos hout.plain hout.found hout.first
    have hsome : chunks.flatten.map Move.received ≠ [] := by
      intro hnil
      have hfound := hout.found
      rw [List.map_eq_nil_iff.mp hnil] at hfound
      exact exitPattern.size_pos.ne hfound
    exact ⟨.exited, hboot.append (hecho.congr rfl hsome), rfl, rfl⟩

section

variable {printP : Bool} {program : List (BitVec 8)} {l : List (Move (BitVec 32))}
  {chunks : List (List (BitVec 8))}

/-- The word of a log that the child reads is one that it has received. -/
theorem Recorded.read32 (h : Recorded printP program l chunks) {k : ℕ} {e : Entry}
    (he : (recordedLog l chunks)[k]? = some e) (hop : e.op = .read32) :
    l[k]? = some (.received e.val) := by
  rw [recordedLog, List.getElem?_mapIdx, installEvents_eq h.chunk] at he
  obtain ⟨ev, hev, rfl⟩ := Option.map_eq_some_iff.mp he
  rw [List.getElem?_append, List.length_map] at hev
  split at hev
  · rw [List.getElem?_map] at hev
    obtain ⟨m, hm, rfl⟩ := Option.map_eq_some_iff.mp hev
    cases m with
    | sent u => cases hop
    | received u => exact hm
  · rw [List.getElem?_map] at hev
    obtain ⟨x, -, rfl⟩ := Option.map_eq_some_iff.mp hev
    cases hop

/-- What the replayer does along the log of some of the words. -/
theorem Recorded.moves_take (h : Recorded printP program l chunks) {k : ℕ} (hk : k ≤ l.length) :
    ((recordedLog l chunks).take k).flatMap Entry.moves =
      ((l.take k).flatMap wordCode.moves).map Move.dual := by
  have htake : (recordedLog l chunks).take k =
      ((installEvents l chunks).take k).mapIdx fun i e => ⟨e.op, BitVec.ofNat 32 i, e.val⟩ := by
    apply List.ext_getElem
    · simp [recordedLog]
    · intro i _ _
      simp [recordedLog]
  rw [htake, flatMap_moves_mapIdx, installEvents_eq h.chunk,
    List.take_append_of_le_length (by simpa using hk), ← List.map_take, flatMap_moves_wordEvent]

/-- Given a wrong word in place of one that it has received, `simple_boot` panics. -/
theorem Recorded.panics (hfit : Fits program) (h : Recorded printP program l chunks) {k : ℕ}
    {v x : BitVec 32} (hk : l[k]? = some (.received v)) (hx : x ≠ v) :
    ∃ msg v' x' error, Recording (simpleBoot program) .putSoh (l.take k ++ [.received x])
      (.panicked msg v' x' error) := by
  obtain ⟨hlt, hget⟩ := List.getElem?_eq_some_iff.mp hk
  have hsplit : l = l.take k ++ .received v :: l.drop (k + 1) := by
    rw [← hget, List.cons_getElem_drop_succ, List.take_append_drop]
  have hboot := h.boot
  rw [hsplit] at hboot
  obtain ⟨s, hfirst, hrest⟩ := hboot.split
  cases hrest with
  | @recv _ _ f _ _ hM _ =>
    have hwrong := hfirst.append (.recv x hM (.nil _))
    have hreplies : receivedOf l <+: replies program := by
      have hhist := unixHistory hfit h.boot.trace
      by_contra hnot
      obtain ⟨_, _, _, _, hpanic⟩ := hhist.panicked_iff.mpr hnot
      cases hpanic
    have hright : receivedOf (l.take k) ++ [v] <+: replies program := by
      rw [hsplit, receivedOf_append, receivedOf_received] at hreplies
      refine List.IsPrefix.trans ⟨receivedOf (l.drop (k + 1)), ?_⟩ hreplies
      simp
    obtain ⟨msg, v', x', error, hpanic⟩ := (unixHistory hfit hwrong.trace).panicked_iff.mpr (by
      intro hpre
      rw [receivedOf_append] at hpre
      exact hx (eq_of_concat hpre hright))
    rw [hpanic] at hwrong
    exact ⟨msg, v', x', error, hwrong⟩

end

end RpiVm.Replay
