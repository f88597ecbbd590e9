import RpiVm.Boot.Protocol
import RpiVm.Lib.Stdio
import RpiVm.Replay.Queue

/-!
# The trace of the UNIX side

One line for each operation, with the number of the operation. With tracing on, calls
print the lines of their events; reading bytes is one event for each byte.
-/

namespace RpiVm.Replay

open CLib

/-- The static variables of `trace.c`, and what has been printed. -/
structure TraceState where
  /-- `trace_init_p`. -/
  initP : Bool
  /-- `n_offset`. -/
  nOffset : BitVec 32
  /-- The text printed. -/
  out : List Char

/-- Before any call. -/
def TraceState.start : TraceState := ⟨false, 0, []⟩

/-- `cmd_to_str`. -/
def cmdToStr (u : BitVec 32) : String :=
  if u = armbase then "ARMBASE?"
  else if u = soh then "SOH?"
  else if u = badCksum then "BAD_CKSUM?"
  else if u = badStart then "BAD_START?"
  else if u = badEnd then "BAD_END?"
  else if u = tooBig then "TOO_BIG?"
  else if u = ack then "ACK?"
  else if u = nak then "NAK?"
  else if u = eot then "EOT?"
  else "DATA?"

/-- A line without its end, printed with the format `TRACE:op:%d:%x [note]`. -/
def traceLine (op : String) (n u : BitVec 32) (note : String) : List Char :=
  "TRACE:".toList ++ op.toList ++ ':' :: formatD n ++ ':' :: formatX u ++ " [".toList ++
    note.toList ++ "]".toList

/-- The functions that print a line, by the operation, the value and the note. -/
def traceEmit (op : String) (u : BitVec 32) (note : String) (t : TraceState) : TraceState :=
  { t with nOffset := t.nOffset + 1, out := t.out ++ traceLine op t.nOffset u note ++ ['\n'] }

/-- `trace_emit_read32`. -/
def traceEmitRead32 (u : BitVec 32) : TraceState → TraceState := traceEmit "READ32" u (cmdToStr u)

/-- `trace_emit_write32`. -/
def traceEmitWrite32 (u : BitVec 32) : TraceState → TraceState := traceEmit "WRITE32" u (cmdToStr u)

/-- `trace_emit_read8`. -/
def traceEmitRead8 (c : BitVec 8) : TraceState → TraceState :=
  traceEmit "READ8" (c.setWidth 32) "bytes"

/-- `trace_read32`. -/
def traceRead32 (u : BitVec 32) (t : TraceState) : TraceState :=
  if t.initP then traceEmitRead32 u t else t

/-- `trace_write32`. -/
def traceWrite32 (u : BitVec 32) (t : TraceState) : TraceState :=
  if t.initP then traceEmitWrite32 u t else t

/-- `trace_read_bytes`. -/
def traceReadBytes (p : BitVec 32 → BitVec 8) (nbytes : BitVec 32) (t : TraceState) : TraceState :=
  if t.initP then
    (List.range nbytes.toNat).foldl (fun t i => traceEmitRead8 (p (BitVec.ofNat 32 i)) t) t
  else t

/-- `trace_turn_on_raw`, whose assertion is that tracing is off. -/
def traceTurnOnRaw (t : TraceState) : Option TraceState :=
  if t.initP then none else some { t with initP := true }

/-! ## Events -/

/-- A call of the program traced. -/
inductive TraceCall where
  /-- `trace_read32(u)`. -/
  | read32 (u : BitVec 32)
  /-- `trace_write32(u)`. -/
  | write32 (u : BitVec 32)
  /-- `trace_read_bytes(p, nbytes)`, with the bytes from `p` on. -/
  | readBytes (p : BitVec 32 → BitVec 8) (nbytes : BitVec 32)

/-- A call. -/
def TraceCall.run (t : TraceState) : TraceCall → TraceState
  | .read32 u => traceRead32 u t
  | .write32 u => traceWrite32 u t
  | .readBytes p nbytes => traceReadBytes p nbytes t

/-- One operation with its value. -/
structure Event where
  /-- The operation. -/
  op : Op
  /-- The value. -/
  val : BitVec 32

/-- The events of a call. -/
def TraceCall.events : TraceCall → List Event
  | .read32 u => [⟨.read32, u⟩]
  | .write32 u => [⟨.write32, u⟩]
  | .readBytes p nbytes =>
    (List.range nbytes.toNat).map fun i => ⟨.read8, (p (BitVec.ofNat 32 i)).setWidth 32⟩

/-- The note behind an event. -/
def Event.note (e : Event) : String :=
  match e.op with
  | .read8 => "bytes"
  | _ => cmdToStr e.val

/-- The text of events, from a number on. -/
def eventsText : BitVec 32 → List Event → List Char
  | _, [] => []
  | n, e :: es => traceLine (opToS e.op) n e.val e.note ++ '\n' :: eventsText (n + 1) es

/-- Behind some events. -/
theorem eventsText_append (n : BitVec 32) (es es' : List Event) :
    eventsText n (es ++ es') =
      eventsText n es ++ eventsText (n + BitVec.ofNat 32 es.length) es' := by
  induction es generalizing n with
  | nil => simp [eventsText]
  | cons e es ih =>
    rw [List.cons_append, eventsText, ih, eventsText, List.length_cons, BitVec.ofNat_add,
      List.append_assoc, List.cons_append]
    have hnext : n + 1 + BitVec.ofNat 32 es.length =
        n + (BitVec.ofNat 32 es.length + BitVec.ofNat 32 1) := by
      rw [BitVec.add_assoc, BitVec.add_comm 1]
      rfl
    rw [hnext]

/-- The state after some events. -/
def TraceState.after (t : TraceState) (es : List Event) : TraceState :=
  { t with
    nOffset := t.nOffset + BitVec.ofNat 32 es.length
    out := t.out ++ eventsText t.nOffset es }

/-- Events one after the other. -/
theorem TraceState.after_append (t : TraceState) (es es' : List Event) :
    t.after (es ++ es') = (t.after es).after es' := by
  simp [after, eventsText_append, BitVec.ofNat_add, BitVec.add_assoc]

/-- A printed line is one event. -/
theorem traceEmit_eq (e : Event) (t : TraceState) :
    traceEmit (opToS e.op) e.val e.note t = t.after [e] := by
  simp [traceEmit, TraceState.after, eventsText]

/-- The loop of `trace_read_bytes`. -/
theorem foldl_traceEmitRead8 (p : BitVec 32 → BitVec 8) (is : List ℕ) (t : TraceState) :
    is.foldl (fun t i => traceEmitRead8 (p (BitVec.ofNat 32 i)) t) t =
      t.after (is.map fun i => ⟨.read8, (p (BitVec.ofNat 32 i)).setWidth 32⟩) := by
  induction is generalizing t with
  | nil => simp [TraceState.after, eventsText]
  | cons i is ih =>
    rw [List.foldl_cons, ih, List.map_cons, ← List.singleton_append, TraceState.after_append]
    exact congrArg (fun t => TraceState.after t _)
      (traceEmit_eq ⟨.read8, (p (BitVec.ofNat 32 i)).setWidth 32⟩ t)

/-- With tracing on a call prints its events. -/
theorem TraceCall.run_eq {t : TraceState} (ht : t.initP = true) (c : TraceCall) :
    c.run t = t.after c.events := by
  cases c with
  | read32 u =>
    rw [run, traceRead32, if_pos ht]
    exact traceEmit_eq ⟨.read32, u⟩ t
  | write32 u =>
    rw [run, traceWrite32, if_pos ht]
    exact traceEmit_eq ⟨.write32, u⟩ t
  | readBytes p nbytes =>
    rw [run, traceReadBytes, if_pos ht]
    exact foldl_traceEmitRead8 p _ t

/-- With tracing on calls print their events in order. -/
theorem foldl_run_eq {t : TraceState} (ht : t.initP = true) (cs : List TraceCall) :
    cs.foldl TraceCall.run t = t.after (cs.flatMap TraceCall.events) := by
  induction cs generalizing t with
  | nil => simp [TraceState.after, eventsText]
  | cons c cs ih =>
    have hnext : (t.after c.events).initP = true := ht
    rw [List.foldl_cons, c.run_eq ht, ih hnext, List.flatMap_cons, TraceState.after_append]

/-- The text that calls print, with tracing turned on before the first. -/
def traceText (cs : List TraceCall) : List Char :=
  match traceTurnOnRaw .start with
  | none => []
  | some t => (cs.foldl TraceCall.run t).out

/-- The text is that of the events. -/
theorem traceText_eq (cs : List TraceCall) :
    traceText cs = eventsText 0 (cs.flatMap TraceCall.events) := by
  have hon : traceTurnOnRaw .start = some { TraceState.start with initP := true } := rfl
  rw [traceText, hon]
  simp only
  rw [foldl_run_eq rfl]
  rfl

end RpiVm.Replay
