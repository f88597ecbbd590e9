import RpiVm.Lib.Confluence
import RpiVm.Lib.Framing

/-!
# Recording and replaying a machine

A recording keeps the symbols that a machine sends and receives in the order in which it
does so. A machine with the dual recording can stand in for the partner: in lock-step both
come to their ends, and so they do in every other order of steps.
-/

namespace Channel

open Transition

variable {α β σ τ : Type*}

/-- What a machine does in one step. -/
inductive Move (α : Type*) where
  /-- It sends a symbol. -/
  | sent (a : α)
  /-- It receives a symbol. -/
  | received (a : α)
  deriving DecidableEq, Repr

/-- What the partner does. -/
def Move.dual : Move α → Move α
  | .sent a => .received a
  | .received a => .sent a

@[simp] theorem Move.dual_dual (m : Move α) : m.dual.dual = m := by
  cases m <;> rfl

/-- The symbols sent. -/
def sentOf (l : List (Move α)) : List α :=
  l.filterMap fun | .sent a => some a | .received _ => none

/-- The symbols received. -/
def receivedOf (l : List (Move α)) : List α :=
  l.filterMap fun | .sent _ => none | .received a => some a

@[simp] theorem sentOf_nil : sentOf ([] : List (Move α)) = [] := rfl

@[simp] theorem receivedOf_nil : receivedOf ([] : List (Move α)) = [] := rfl

@[simp] theorem sentOf_sent (a : α) (l : List (Move α)) : sentOf (.sent a :: l) = a :: sentOf l := rfl

@[simp] theorem sentOf_received (a : α) (l : List (Move α)) :
    sentOf (.received a :: l) = sentOf l := rfl

@[simp] theorem receivedOf_sent (a : α) (l : List (Move α)) :
    receivedOf (.sent a :: l) = receivedOf l := rfl

@[simp] theorem receivedOf_received (a : α) (l : List (Move α)) :
    receivedOf (.received a :: l) = a :: receivedOf l := rfl

@[simp] theorem sentOf_append (l l' : List (Move α)) : sentOf (l ++ l') = sentOf l ++ sentOf l' :=
  List.filterMap_append

@[simp] theorem receivedOf_append (l l' : List (Move α)) :
    receivedOf (l ++ l') = receivedOf l ++ receivedOf l' :=
  List.filterMap_append

@[simp] theorem sentOf_map_sent (as : List α) : sentOf (as.map .sent) = as := by
  induction as with
  | nil => rfl
  | cons a as ih => rw [List.map_cons, sentOf_sent, ih]

@[simp] theorem sentOf_map_received (as : List α) : sentOf (as.map .received) = [] := by
  induction as with
  | nil => rfl
  | cons a as ih => rw [List.map_cons, sentOf_received, ih]

@[simp] theorem receivedOf_map_sent (as : List α) : receivedOf (as.map .sent) = [] := by
  induction as with
  | nil => rfl
  | cons a as ih => rw [List.map_cons, receivedOf_sent, ih]

@[simp] theorem receivedOf_map_received (as : List α) : receivedOf (as.map .received) = as := by
  induction as with
  | nil => rfl
  | cons a as ih => rw [List.map_cons, receivedOf_received, ih]

/-- A machine comes from one state to another by moves. -/
inductive Recording (M : Machine α σ) : σ → List (Move α) → σ → Prop
  | nil (s : σ) : Recording M s [] s
  | send {s u t : σ} {a : α} {l : List (Move α)} :
      M s = .send a u → Recording M u l t → Recording M s (.sent a :: l) t
  | recv {s t : σ} {f : α → σ} {l : List (Move α)} (a : α) :
      M s = .recv f → Recording M (f a) l t → Recording M s (.received a :: l) t

variable {M : Machine α σ} {N : Machine α τ}

/-! ## Recordings -/

section

variable {s t u : σ} {l l' : List (Move α)}

/-- Recordings one after the other. -/
theorem Recording.append (h : Recording M s l t) (h' : Recording M t l' u) :
    Recording M s (l ++ l') u := by
  induction h with
  | nil => exact h'
  | send hM _ ih => exact .send hM (ih h')
  | recv a hM _ ih => exact .recv a hM (ih h')

/-- A recording splits where its moves do. -/
theorem Recording.split (h : Recording M s (l ++ l') u) :
    ∃ t, Recording M s l t ∧ Recording M t l' u := by
  induction l generalizing s with
  | nil => exact ⟨s, .nil s, h⟩
  | cons m l ih =>
    cases h with
    | send hM h =>
      obtain ⟨t, hl, hl'⟩ := ih h
      exact ⟨t, .send hM hl, hl'⟩
    | recv a hM h =>
      obtain ⟨t, hl, hl'⟩ := ih h
      exact ⟨t, .recv a hM hl, hl'⟩

/-- A machine goes on from a state in which it does the same. -/
theorem Recording.congr (h : Recording M s l t) (hsame : M u = M s) (hl : l ≠ []) :
    Recording M u l t := by
  cases h with
  | nil => exact absurd rfl hl
  | send hM h => exact .send (hsame.trans hM) h
  | recv a hM h => exact .recv a (hsame.trans hM) h

/-- The moves determine where the machine comes to. -/
theorem Recording.unique (h : Recording M s l t) (h' : Recording M s l u) : u = t := by
  induction h with
  | nil =>
    cases h'
    rfl
  | send hM _ ih =>
    cases h' with
    | send hM' h' =>
      obtain ⟨-, rfl⟩ := Action.send.inj (hM.symm.trans hM')
      exact ih h'
  | recv a hM _ ih =>
    cases h' with
    | recv _ hM' h' =>
      obtain rfl := Action.recv.inj (hM.symm.trans hM')
      exact ih h'

/-- A recording after a history. -/
theorem Trace.recording {R Q : List α} (h : Trace M s R Q t) (h' : Recording M t l u) :
    Trace M s (R ++ receivedOf l) (Q ++ sentOf l) u := by
  induction h' generalizing R Q with
  | nil => simpa using h
  | send hM _ ih => simpa using ih (h.send hM)
  | recv a hM _ ih => simpa using ih (h.recv a hM)

/-- The history of a recording. -/
theorem Recording.trace (h : Recording M s l t) : Trace M s (receivedOf l) (sentOf l) t :=
  Trace.nil.recording h

/-- Every history has a recording. -/
theorem Trace.exists_recording {R Q : List α} (h : Trace M s R Q t) :
    ∃ l, Recording M s l t ∧ receivedOf l = R ∧ sentOf l = Q := by
  induction h with
  | nil => exact ⟨[], .nil s, rfl, rfl⟩
  | send _ hM ih =>
    obtain ⟨l, hl, rfl, rfl⟩ := ih
    exact ⟨l ++ [.sent _], hl.append (.send hM (.nil _)), by simp, by simp⟩
  | recv a _ hM ih =>
    obtain ⟨l, hl, rfl, rfl⟩ := ih
    exact ⟨l ++ [.received a], hl.append (.recv a hM (.nil _)), by simp, by simp⟩

end

/-! ## Replaying -/

section

variable {s s' : σ} {t t' : τ} {l : List (Move α)}

/-- In lock-step both machines come to the ends of dual recordings. -/
theorem Net.run_dual (h : Recording M s l s') (h' : Recording N t (l.map Move.dual) t') :
    ∃ sides, Run (Net.Step M N) ⟨s, t, [], []⟩ sides ⟨s', t', [], []⟩ ∧
      sides.length = 2 * l.length := by
  induction h generalizing t with
  | nil =>
    cases h'
    exact ⟨[], .nil _, rfl⟩
  | send hM _ ih =>
    cases h' with
    | recv _ hN h' =>
      obtain ⟨sides, hrun, hlen⟩ := ih h'
      exact ⟨.left :: .right :: sides, .cons (.leftSend hM) (.cons (.rightRecv hN) hrun),
        by simp [hlen, Nat.mul_add]⟩
  | recv a hM _ ih =>
    cases h' with
    | send hN h' =>
      obtain ⟨sides, hrun, hlen⟩ := ih h'
      exact ⟨.right :: .left :: sides, .cons (.rightSend hN) (.cons (.leftRecv hM) hrun),
        by simp [hlen, Nat.mul_add]⟩

/-- The left machine moves alone, on what has arrived. -/
theorem Net.run_left {x y : List α} (h : Recording M s l s') :
    Run (Net.Step M N) ⟨s, t, x, receivedOf l ++ y⟩ (l.map fun _ => .left)
      ⟨s', t, x ++ sentOf l, y⟩ := by
  induction h generalizing x with
  | nil =>
    rw [sentOf_nil, List.append_nil]
    exact .nil _
  | @send _ _ _ a _ hM _ ih =>
    have hrest := ih (x := x ++ [a])
    rw [List.append_assoc, List.singleton_append] at hrest
    exact .cons (.leftSend hM) hrest
  | recv a hM _ ih => exact .cons (.leftRecv hM) ih

/-- The right machine moves alone, on what has arrived. -/
theorem Net.run_right {x y : List α} (h : Recording N t l t') :
    Run (Net.Step M N) ⟨s, t, receivedOf l ++ x, y⟩ (l.map fun _ => .right)
      ⟨s, t', x, y ++ sentOf l⟩ := by
  induction h generalizing y with
  | nil =>
    rw [sentOf_nil, List.append_nil]
    exact .nil _
  | @send _ _ _ a _ hN _ ih =>
    have hrest := ih (y := y ++ [a])
    rw [List.append_assoc, List.singleton_append] at hrest
    exact .cons (.rightSend hN) hrest
  | recv a hN _ ih => exact .cons (.rightRecv hN) ih

/-- A machine that stops behind its recording and a partner that plays its dual, then sends
on and stops or waits: in every order of steps they come to these ends. -/
theorem Net.replay {as : List α} (h : Recording M s l s') (hhalt : M s' = .halt)
    (h' : Recording N t (l.map Move.dual ++ as.map .sent) t') (hidle : ∀ a u, N t' ≠ .send a u)
    {sides : List Side} {c : Net α σ τ} (hrun : Run (Net.Step M N) ⟨s, t, [], []⟩ sides c) :
    ∃ sides', Run (Net.Step M N) c sides' ⟨s', t', [], as⟩ ∧
      Terminal (Net.Step M N) ⟨s', t', [], as⟩ ∧
      sides.length + sides'.length = 2 * l.length + as.length := by
  obtain ⟨t₁, hdual, hsends⟩ := h'.split
  obtain ⟨first, hfirst, hlen⟩ := Net.run_dual h hdual
  have hlast := Net.run_right (M := M) (s := s') (x := []) (y := []) hsends
  rw [receivedOf_map_sent, sentOf_map_sent, List.nil_append] at hlast
  replace hlast := hfirst.append hlast
  have hterm : Terminal (Net.Step M N) ⟨s', t', [], as⟩ := by
    intro side c' hstep
    cases hstep with
    | leftSend hM => cases hhalt.symm.trans hM
    | leftRecv hM => cases hhalt.symm.trans hM
    | rightSend hN => exact hidle _ _ hN
  obtain ⟨sides', hrest, hall⟩ := (Net.commuting M N).confluent hlast hterm hrun
  refine ⟨sides', hrest, hterm, ?_⟩
  rw [hall, List.length_append, hlen, List.length_map, List.length_map]

end

/-! ## Words over a channel -/

/-- The moves of a word, symbol by symbol. -/
def Code.moves (C : Code α β) : Move α → List (Move β)
  | .sent a => (C.encode a).map .sent
  | .received a => (C.encode a).map .received

variable {C : Code α β}

/-- What is left of a word is sent. -/
theorem framed_sends (M : Machine α σ) (s : Framed α β σ) :
    Recording (framed C M) s (s.out.map .sent) { s with out := [] } := by
  obtain ⟨state, out, inp, sent, received⟩ := s
  induction out with
  | nil => exact .nil _
  | cons b out ih => exact .send rfl ih

/-- A word is sent. -/
theorem framed_send {s : Framed α β σ} {a : α} {u : σ} (hM : M s.state = .send a u)
    (hout : s.out = []) : Recording (framed C M) s ((C.encode a).map .sent)
      { s with state := u, sent := s.sent ++ [a] } := by
  obtain ⟨state, out, inp, sent, received⟩ := s
  obtain rfl : out = [] := hout
  have hlen := C.length_encode a
  have hpos := C.size_pos
  have hM' : M state = .send a u := hM
  cases hcode : C.encode a with
  | nil =>
    rw [hcode] at hlen
    exact absurd hlen hpos.ne
  | cons b bs =>
    have hstep : framed C M ⟨state, [], inp, sent, received⟩ =
        .send b ⟨u, bs, inp, sent ++ [a], received⟩ := by
      simp only [framed, hM', hcode]
    exact .send hstep (framed_sends M ⟨u, bs, inp, sent ++ [a], received⟩)

/-- The symbols of a word that is expected arrive. -/
theorem framed_receives {s : Framed α β σ} {f : α → σ} (hM : M s.state = .recv f)
    (hout : s.out = []) {bs : List β} (hbs : bs ≠ []) (hlen : s.inp.length + bs.length = C.size) :
    Recording (framed C M) s (bs.map .received)
      { s with state := f (C.decode (s.inp ++ bs)), inp := [],
               received := s.received ++ [C.decode (s.inp ++ bs)] } := by
  induction bs generalizing s with
  | nil => exact absurd rfl hbs
  | cons b bs ih =>
    obtain ⟨state, out, inp, sent, received⟩ := s
    obtain rfl : out = [] := hout
    have hM' : M state = .recv f := hM
    have hstep : framed C M ⟨state, [], inp, sent, received⟩ = .recv fun b =>
        if inp.length + 1 = C.size then
          ⟨f (C.decode (inp ++ [b])), [], [], sent, received ++ [C.decode (inp ++ [b])]⟩
        else ⟨state, [], inp ++ [b], sent, received⟩ := by
      simp only [framed, hM']
    refine .recv b hstep ?_
    cases bs with
    | nil =>
      rw [if_pos (by simpa using hlen)]
      exact .nil _
    | cons b' bs =>
      have hmore : ¬ inp.length + 1 = C.size := by
        simp only [List.length_cons] at hlen
        omega
      rw [if_neg hmore]
      have hrest := ih (s := ⟨state, [], inp ++ [b], sent, received⟩) hM rfl (by simp)
        (by simp only [List.length_append, List.length_cons, List.length_nil] at hlen ⊢; omega)
      simpa using hrest

/-- A word is received. -/
theorem framed_recv {s : Framed α β σ} {f : α → σ} (hM : M s.state = .recv f) (hout : s.out = [])
    (hinp : s.inp = []) (a : α) : Recording (framed C M) s ((C.encode a).map .received)
      { s with state := f a, received := s.received ++ [a] } := by
  have hlen := C.length_encode a
  have hne : C.encode a ≠ [] := by
    intro hnil
    rw [hnil] at hlen
    exact absurd hlen C.size_pos.ne
  have hall := framed_receives (C := C) hM hout hne (by rw [hinp, hlen]; simp)
  rw [hinp, List.nil_append, C.decode_encode] at hall
  obtain ⟨state, out, inp, sent, received⟩ := s
  obtain rfl : inp = [] := hinp
  exact hall

/-- A recording of words is one of symbols. -/
theorem Recording.framed {s : Framed α β σ} {t : σ} {l : List (Move α)} (hout : s.out = [])
    (hinp : s.inp = []) (h : Recording M s.state l t) :
    Recording (framed C M) s (l.flatMap C.moves)
      ⟨t, [], [], s.sent ++ sentOf l, s.received ++ receivedOf l⟩ := by
  generalize hs : s.state = s₀ at h
  induction h generalizing s with
  | nil =>
    obtain ⟨state, out, inp, sent, received⟩ := s
    obtain rfl : out = [] := hout
    obtain rfl : inp = [] := hinp
    obtain rfl : state = _ := hs
    simpa using Recording.nil (M := Channel.framed C M) ⟨state, [], [], sent, received⟩
  | @send _ u _ a _ hM _ ih =>
    rw [← hs] at hM
    have hrest := ih (s := { s with state := u, sent := s.sent ++ [a] }) hout hinp rfl
    have hall := (framed_send (C := C) hM hout).append hrest
    simpa [Code.moves] using hall
  | @recv _ _ f _ a hM _ ih =>
    rw [← hs] at hM
    have hrest := ih (s := { s with state := f a, received := s.received ++ [a] }) hout hinp rfl
    have hall := (framed_recv (C := C) hM hout hinp a).append hrest
    simpa [Code.moves] using hall

end Channel
