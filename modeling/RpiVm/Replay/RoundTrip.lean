import RpiVm.Replay.ParseInput

/-!
# Traces are read back

The reader takes every line that the tracing calls print: the line fits in the buffer,
its fields are what was printed, and its number is the number of lines read before.
-/

namespace RpiVm.Replay

open CLib

/-! ## The lines of a trace -/

/-- A character within a line. -/
def isPlain (c : Char) : Bool := c != '\n' && c != '\x00'

/-- The notes of events. -/
def notes : List String :=
  ["ARMBASE?", "SOH?", "BAD_CKSUM?", "BAD_START?", "BAD_END?", "TOO_BIG?", "ACK?", "NAK?", "EOT?",
    "DATA?", "bytes"]

/-- The note of an event is one of them. -/
theorem note_mem_notes (e : Event) : e.note ∈ notes := by
  have hcmd : ∀ u, cmdToStr u ∈ notes := by
    intro u
    unfold cmdToStr notes
    split_ifs <;> simp
  unfold Event.note
  split
  · simp [notes]
  · exact hcmd e.val

/-- A hexadecimal digit may be in a line. -/
theorem isPlain_of_isxdigit {c : Char} (hc : isxdigit c = true) : isPlain c = true := by
  rw [isPlain, Bool.and_eq_true]
  constructor <;>
  · refine bne_iff_ne.mpr ?_
    rintro rfl
    exact absurd hc (by decide)

/-- The digits printed may be in a line. -/
theorem all_isPlain_toDigits {base : ℕ} (hone : 1 < base) (hbase : base ≤ 16) (n : ℕ) :
    (Nat.toDigits base n).all isPlain = true := by
  refine List.all_eq_true.mpr fun c hc => ?_
  obtain ⟨d, hd, rfl⟩ := mem_toDigits hone hc
  refine isPlain_of_isxdigit ?_
  rw [isxdigit, digitValue_digitChar (lt_of_lt_of_le hd hbase)]
  exact decide_eq_true (lt_of_lt_of_le hd hbase)

/-- A line of a trace. -/
def eventLine (n : BitVec 32) (e : Event) : List Char := traceLine (opToS e.op) n e.val e.note

/-- A line of a trace has no end within. -/
theorem all_isPlain_eventLine {n : BitVec 32} (hn : n.toNat < 2 ^ 31) (e : Event) :
    (eventLine n e).all isPlain = true := by
  have hnote : ∀ s ∈ notes, s.toList.all isPlain = true := by simp [notes, isPlain]
  have hop : (opToS e.op).toList.all isPlain = true := by
    cases e.op <;> simp [opToS, isPlain]
  have hdec : (Nat.toDigits 10 n.toNat).all isPlain = true :=
    all_isPlain_toDigits (by decide) (by decide) n.toNat
  have hhex : (Nat.toDigits 16 e.val.toNat).all isPlain = true :=
    all_isPlain_toDigits (by decide) (by decide) e.val.toNat
  have htrace : "TRACE:".toList.all isPlain = true := by simp [isPlain]
  have hopen : " [".toList.all isPlain = true := by simp [isPlain]
  have hclose : "]".toList.all isPlain = true := by simp [isPlain]
  have hcolon : isPlain ':' = true := by decide
  unfold eventLine traceLine
  simp only [formatD_of_lt hn, formatX, List.all_append, List.all_cons, htrace, hop, hdec,
    hhex, hopen, hclose, hcolon, hnote _ (note_mem_notes e), Bool.and_self]

/-- A line of a trace fits in the buffer. -/
theorem length_eventLine {n : BitVec 32} (hn : n.toNat < 2 ^ 31) (e : Event) :
    (eventLine n e).length + 2 < 1024 := by
  have hnote : ∀ s ∈ notes, s.toList.length ≤ 10 := by simp [notes]
  have hop : (opToS e.op).toList.length ≤ 7 := by cases e.op <;> simp [opToS]
  have hdec : (Nat.toDigits 10 n.toNat).length ≤ 10 :=
    (Nat.length_toDigits_le_iff (by decide) (by decide)).mpr (by omega)
  have hhex : (Nat.toDigits 16 e.val.toNat).length ≤ 8 :=
    (Nat.length_toDigits_le_iff (by decide) (by decide)).mpr (by have hv := e.val.isLt; omega)
  have htrace : "TRACE:".toList.length = 6 := by simp
  have hopen : " [".toList.length = 2 := by simp
  have hclose : "]".toList.length = 1 := by simp
  have hlen := hnote _ (note_mem_notes e)
  unfold eventLine traceLine
  simp only [formatD_of_lt hn, formatX, List.length_append, List.length_cons, htrace, hopen, hclose]
  omega

/-- The fields of a line. -/
theorem eventLine_fields {n : BitVec 32} (hn : n.toNat < 2 ^ 31) (e : Event) :
    eventLine n e ++ ['\n'] = "TRACE".toList ++ ':' :: ((opToS e.op).toList ++ ':' ::
      (Nat.toDigits 10 n.toNat ++ ':' :: (formatX e.val ++ ' ' ::
        ('[' :: e.note.toList ++ "]\n".toList)))) := by
  have htrace : "TRACE:".toList = "TRACE".toList ++ [':'] := by simp
  have hopen : " [".toList = [' ', '['] := by simp
  have hclose : "]".toList ++ ['\n'] = "]\n".toList := by simp
  unfold eventLine traceLine
  simp only [formatD_of_lt hn, htrace, hopen, ← hclose, List.append_assoc, List.cons_append,
    List.nil_append]

/-! ## Reading a line -/

/-- A line of a trace is read as its event and printed as it was. -/
theorem readLine_eventLine (emitP : Bool) {n : BitVec 32} (hn : n.toNat < 2 ^ 31) (e : Event)
    (s : ReadState) : readLine emitP n (eventLine n e ++ ['\n']) s =
      .ok ⟨(qAppend s.q s.heap e.op n e.val).1, (qAppend s.q s.heap e.op n e.val).2,
        if emitP then s.out ++ (eventLine n e ++ ['\n']) else s.out⟩ := by
  have hcolon : isSep ':' = true := by decide
  have hblank : isSep ' ' = true := by decide
  have hline := eventLine_fields hn e
  have hprefix : "TRACE:".toList = "TRACE".toList ++ [':'] := by simp
  rw [hline]
  rw [readLine, ok_bind (expect_trace hcolon _), ok_bind (popField_op hcolon e.op _)]
  dsimp only
  rw [ok_bind (opOfS_opToS e.op), ok_bind (popNum_append n hcolon _)]
  dsimp only
  rw [if_neg (not_not.mpr rfl), ok_bind (popHexNum_append e.val hblank _)]
  simp only [formatD_of_lt hn, hprefix, List.append_assoc, List.cons_append, List.nil_append]
  rfl

/-- What `read_input` makes of events, from a number on. -/
theorem readLoop_eventsText (emitP : Bool) {n : BitVec 32} {es : List Event} {s : ReadState}
    {entries : List Entry} (hn : n.toNat + es.length < 2 ^ 31) (hq : s.q.Holds s.heap entries) :
    ∃ s', readLoop emitP n (eventsText n es) s = .ok s' ∧
      s'.q.Holds s'.heap (entries ++ es.mapIdx fun i e => ⟨e.op, n + BitVec.ofNat 32 i, e.val⟩) ∧
      s'.out = if emitP then s.out ++ eventsText n es else s.out := by
  induction es generalizing n s entries with
  | nil =>
    refine ⟨s, ?_, by simpa using hq, by simp [eventsText]⟩
    rw [readLoop]
    rfl
  | cons e es ih =>
    rw [List.length_cons] at hn
    have hlt : n.toNat < 2 ^ 31 := by omega
    have hplain := List.all_eq_true.mp (all_isPlain_eventLine hlt e)
    have hnewline : '\n' ∉ eventLine n e := fun h => absurd (hplain _ h) (by decide)
    have hlen := length_eventLine hlt e
    have hread : fgets 1024 (eventsText n (e :: es)) =
        some (eventLine n e ++ ['\n'], eventsText (n + 1) es) :=
      fgets_append (eventsText (n + 1) es) hnewline (Nat.lt_of_succ_lt hlen)
    have hwhole : cString (eventLine n e ++ ['\n']) = eventLine n e ++ ['\n'] := by
      refine List.takeWhile_eq_self_iff.mpr fun c hc => ?_
      obtain hc | hc := List.mem_append.mp hc
      · have hc' := hplain c hc
        simp only [isPlain, Bool.and_eq_true, bne_iff_ne] at hc'
        exact decide_eq_true hc'.2
      · obtain rfl := List.mem_singleton.mp hc
        decide
    have hnext : (n + 1).toNat = n.toNat + 1 := by
      have hone : (1 : BitVec 32).toNat = 1 := rfl
      rw [BitVec.toNat_add, hone]
      omega
    obtain ⟨s', hok, hholds, hout⟩ := ih (n := n + 1)
      (s := ⟨(qAppend s.q s.heap e.op n e.val).1, (qAppend s.q s.heap e.op n e.val).2,
        if emitP then s.out ++ (eventLine n e ++ ['\n']) else s.out⟩)
      (by omega) (hq.append e.op n e.val)
    refine ⟨s', ?_, ?_, ?_⟩
    · rw [readLoop]
      split
      · rename_i hnone
        exact absurd (hread.symm.trans hnone) (by simp)
      · rename_i line rest hsome
        obtain ⟨rfl, rfl⟩ := Prod.mk.inj (Option.some.inj (hread.symm.trans hsome))
        rw [hwhole, readLine_eventLine emitP hlt]
        exact hok
    · have hzero : n + BitVec.ofNat 32 0 = n := by simp
      have hshift : ∀ i, n + 1 + BitVec.ofNat 32 i = n + BitVec.ofNat 32 (i + 1) := by
        intro i
        rw [BitVec.ofNat_add, BitVec.add_assoc, BitVec.add_comm 1]
        rfl
      rw [List.mapIdx_cons, hzero]
      simp only [hshift, List.append_assoc, List.singleton_append] at hholds
      exact hholds
    · rw [hout]
      cases emitP <;> simp [eventsText, eventLine]

/-- For every sequence of tracing calls with fewer than `2 ^ 31` events: the text printed is
read into a queue that holds exactly the events in order, numbered from zero, and with
`emit_p` set it is printed again as it was. -/
theorem readInput_traceText (emitP : Bool) (cs : List TraceCall)
    (hlen : (cs.flatMap TraceCall.events).length < 2 ^ 31) :
    ∃ s, readInput emitP (traceText cs) = .ok s ∧
      s.q.Holds s.heap ((cs.flatMap TraceCall.events).mapIdx fun i e =>
        ⟨e.op, BitVec.ofNat 32 i, e.val⟩) ∧
      s.out = if emitP then traceText cs else [] := by
  have hn : (0#32).toNat + (cs.flatMap TraceCall.events).length < 2 ^ 31 := by
    simpa using hlen
  obtain ⟨s, hok, hholds, hout⟩ := readLoop_eventsText emitP (s := ⟨mkQ, [], []⟩) hn (mkQ_holds [])
  rw [traceText_eq]
  refine ⟨s, hok, ?_, hout⟩
  simpa using hholds

/-- A trace with every kind of operation. -/
theorem readInput_traceText_first : ∃ s,
    readInput true (traceText [.write32 soh, .read32 0xffffffff, .readBytes (fun _ => 0x68) 2]) =
      .ok s ∧
      s.q.Holds s.heap [⟨.write32, 0, soh⟩, ⟨.read32, 1, 0xffffffff⟩, ⟨.read8, 2, 0x68⟩,
        ⟨.read8, 3, 0x68⟩] ∧
      s.out = traceText [.write32 soh, .read32 0xffffffff, .readBytes (fun _ => 0x68) 2] :=
  readInput_traceText true [.write32 soh, .read32 0xffffffff, .readBytes (fun _ => 0x68) 2]
    (by decide)

end RpiVm.Replay
