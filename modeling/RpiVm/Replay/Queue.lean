import RpiVm.Lib.LinkedList

/-!
# The replay log

A queue of operations, linked from the first to the last. What has been appended is
met in order on the way from `Q_start` through `Q_next`.
-/

namespace RpiVm.Replay

open LinkedList

/-- The operations of a replay log. -/
inductive Op where
  /-- `OP_READ32`. -/
  | read32
  /-- `OP_READ8`. -/
  | read8
  /-- `OP_WRITE32`. -/
  | write32
  deriving DecidableEq, Repr

/-- `op_to_s`. -/
def opToS : Op → String
  | .write32 => "WRITE32"
  | .read32 => "READ32"
  | .read8 => "READ8"

/-- What an element of the log says. -/
structure Entry where
  /-- The operation. -/
  op : Op
  /-- Its number. -/
  cnt : BitVec 32
  /-- Its value. -/
  val : BitVec 32
  deriving DecidableEq, Repr

/-- `struct E`. -/
structure E extends Entry where
  /-- The next element, or null. -/
  next : Option ℕ

/-- `struct Q`. -/
structure Q where
  /-- The first element, or null. -/
  head : Option ℕ
  /-- The last element, or null. -/
  tail : Option ℕ
  /-- The number of reads. -/
  nreads : BitVec 32
  /-- The number of writes. -/
  nwrites : BitVec 32

/-- `mk_Q`. -/
def mkQ : Q := ⟨none, none, 0, 0⟩

/-- `Q_start`. -/
def qStart (q : Q) : Option ℕ := q.head

/-- `Q_next`. -/
def qNext (e : E) : Option ℕ := e.next

/-- `is_read`. -/
def isRead : Op → Bool
  | .read32 | .read8 => true
  | .write32 => false

/-- `p->next = e`; a pointer to no element is undefined behaviour, which leaves the heap here. -/
def setNext (heap : List E) (p e : ℕ) : List E :=
  match heap[p]? with
  | some n => heap.set p { n with next := some e }
  | none => heap

/-- `Q_append`, with the heap that `calloc` takes the element from. -/
def qAppend (q : Q) (heap : List E) (op : Op) (cnt val : BitVec 32) : Q × List E :=
  let e := heap.length
  let heap := heap ++ [⟨⟨op, cnt, val⟩, none⟩]
  let q := if isRead op then { q with nreads := q.nreads + 1 }
    else { q with nwrites := q.nwrites + 1 }
  match q.tail with
  | some t => ({ q with tail := some e }, setNext heap t e)
  | none => ({ q with head := some e, tail := some e }, heap)

/-- A queue holds entries: they are met in order, and counted. -/
structure Q.Holds (q : Q) (heap : List E) (es : List Entry) : Prop where
  /-- From `Q_start` through `Q_next` until null; the last element met is the tail. -/
  linked : ∃ l, Linked qNext heap (qStart q) l none ∧ (l.map Prod.fst).Nodup ∧
    l.getLast?.map Prod.fst = q.tail ∧ l.map (fun x => x.2.toEntry) = es
  /-- The reads. -/
  nreads : q.nreads = BitVec.ofNat 32 (es.countP fun e => isRead e.op)
  /-- The writes. -/
  nwrites : q.nwrites = BitVec.ofNat 32 (es.countP fun e => !isRead e.op)

/-- The empty queue. -/
theorem mkQ_holds (heap : List E) : mkQ.Holds heap [] :=
  ⟨⟨[], .nil none, List.nodup_nil, rfl, rfl⟩, rfl, rfl⟩

/-- The counters after one more operation. -/
theorem qAppend_counters (q : Q) (heap : List E) (op : Op) (cnt val : BitVec 32) :
    (qAppend q heap op cnt val).1.nreads = q.nreads + (if isRead op then 1 else 0) ∧
      (qAppend q heap op cnt val).1.nwrites = q.nwrites + (if !isRead op then 1 else 0) := by
  unfold qAppend
  cases op <;> cases q.tail <;> simp [isRead]

/-- The first element. -/
theorem qAppend_of_none {q : Q} (htail : q.tail = none) (heap : List E) (op : Op)
    (cnt val : BitVec 32) :
    (qAppend q heap op cnt val).1.head = some heap.length ∧
      (qAppend q heap op cnt val).1.tail = some heap.length ∧
      (qAppend q heap op cnt val).2 = heap ++ [E.mk ⟨op, cnt, val⟩ none] := by
  unfold qAppend
  cases op <;> simp [isRead, htail]

/-- One more element, behind the last. -/
theorem qAppend_of_some {q : Q} {heap : List E} {a : ℕ} {n : E} (htail : q.tail = some a)
    (ha : heap[a]? = some n) (op : Op) (cnt val : BitVec 32) :
    (qAppend q heap op cnt val).1.head = q.head ∧
      (qAppend q heap op cnt val).1.tail = some heap.length ∧
      (qAppend q heap op cnt val).2 =
        (heap ++ [E.mk ⟨op, cnt, val⟩ none]).set a { n with next := some heap.length } := by
  have hlt : a < heap.length := (List.getElem?_eq_some_iff.mp ha).1
  have hget : (heap ++ [E.mk ⟨op, cnt, val⟩ none])[a]? = some n := by
    rw [List.getElem?_append_left hlt, ha]
  unfold qAppend
  cases op <;> simp [isRead, htail, setNext, hget]

/-- One more entry is counted if it has the property counted. -/
theorem ofNat_countP_concat (p : Entry → Bool) (es : List Entry) (e : Entry) :
    BitVec.ofNat 32 ((es ++ [e]).countP p) =
      BitVec.ofNat 32 (es.countP p) + (if p e then 1 else 0) := by
  rw [List.countP_append, BitVec.ofNat_add, List.countP_singleton]
  split <;> rfl

/-- Appending keeps what is there and puts one entry at the end. -/
theorem Q.Holds.append {q : Q} {heap : List E} {es : List Entry} (h : q.Holds heap es) (op : Op)
    (cnt val : BitVec 32) :
    (qAppend q heap op cnt val).1.Holds (qAppend q heap op cnt val).2 (es ++ [⟨op, cnt, val⟩]) := by
  obtain ⟨⟨l, hlinked, hnodup, htail, hes⟩, hreads, hwrites⟩ := h
  have hfresh : heap.length ∉ l.map Prod.fst := by
    intro hmem
    obtain ⟨x, hx, heq⟩ := List.mem_map.mp hmem
    exact absurd (hlinked.lt_length hx) (by omega)
  obtain ⟨hreads', hwrites'⟩ := qAppend_counters q heap op cnt val
  refine ⟨?_, by rw [hreads', hreads, ofNat_countP_concat], by
    rw [hwrites', hwrites, ofNat_countP_concat]⟩
  obtain rfl | ⟨l, ⟨a, n⟩, rfl⟩ := l.eq_nil_or_concat
  · obtain ⟨hhead, htail', hheap⟩ := qAppend_of_none htail.symm heap op cnt val
    refine ⟨[(heap.length, ⟨⟨op, cnt, val⟩, none⟩)], ?_, by simp, by rw [htail']; rfl, ?_⟩
    · rw [qStart, hhead, hheap]
      exact .cons (by simp) (.nil none)
    · rw [← hes]
      rfl
  · rw [List.concat_eq_append] at *
    have hlast : q.tail = some a := by rw [← htail]; simp
    obtain ⟨_, ha, _⟩ := hlinked.of_concat
    obtain ⟨hhead, htail', hheap⟩ := qAppend_of_some hlast ha op cnt val
    refine ⟨l ++ [(a, { n with next := some heap.length }),
      (heap.length, ⟨⟨op, cnt, val⟩, none⟩)], ?_, ?_, ?_, ?_⟩
    · rw [qStart, hhead, hheap]
      exact hlinked.concat hnodup rfl rfl
    · have hplaces : (l ++ [(a, { n with next := some heap.length }),
          (heap.length, E.mk ⟨op, cnt, val⟩ none)]).map Prod.fst =
          (l ++ [(a, n)]).map Prod.fst ++ [heap.length] := by simp
      rw [hplaces, ← List.concat_eq_append]
      exact hnodup.concat hfresh
    · rw [htail']
      simp
    · rw [← hes]
      simp

end RpiVm.Replay
