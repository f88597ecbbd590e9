import RpiVm.Lib.Channel

/-!
# Words over a channel of bytes

Machines that exchange words, when each word goes over the channel as a fixed number
of bytes. Whatever the order of single bytes, the words received are the first ones
sent, and when no step is left, nothing is under way to a machine that waits.
-/

namespace Channel

open Transition

variable {α β σ τ : Type*}

/-- A code with a fixed number of symbols for each word. -/
structure Code (α β : Type*) where
  /-- The number of symbols. -/
  size : ℕ
  /-- The symbols of a word. -/
  encode : α → List β
  /-- The word of as many symbols. -/
  decode : List β → α
  /-- There is a symbol at least. -/
  size_pos : 0 < size
  /-- The number of symbols is fixed. -/
  length_encode : ∀ a, (encode a).length = size
  /-- Decoding undoes encoding. -/
  decode_encode : ∀ a, decode (encode a) = a
  /-- Encoding undoes decoding. -/
  encode_decode : ∀ l, l.length = size → encode (decode l) = l

variable (C : Code α β)

/-- The symbols of some words. -/
def Code.encodeAll (as : List α) : List β := as.flatMap C.encode

@[simp] theorem Code.encodeAll_nil : C.encodeAll [] = [] := rfl

@[simp] theorem Code.encodeAll_cons (a : α) (as : List α) :
    C.encodeAll (a :: as) = C.encode a ++ C.encodeAll as := rfl

@[simp] theorem Code.encodeAll_append (as bs : List α) :
    C.encodeAll (as ++ bs) = C.encodeAll as ++ C.encodeAll bs := List.flatMap_append

/-- The number of symbols of some words. -/
theorem Code.length_encodeAll (as : List α) : (C.encodeAll as).length = C.size * as.length := by
  induction as with
  | nil => rfl
  | cons a as ih =>
    rw [Code.encodeAll_cons, List.length_append, C.length_encode, ih, List.length_cons, Nat.mul_add,
      Nat.mul_one, Nat.add_comm]

/-- Words whose symbols come first are the first words. -/
theorem Code.prefix_of_encodeAll {as bs : List α} {rest : List β}
    (h : C.encodeAll as ++ rest = C.encodeAll bs) : as <+: bs := by
  induction as generalizing bs with
  | nil => exact List.nil_prefix
  | cons a as ih =>
    cases bs with
    | nil =>
      have hlen := congrArg List.length h
      have hpos := C.size_pos
      simp only [Code.encodeAll_cons, Code.encodeAll_nil, List.length_append, List.length_nil,
        C.length_encode] at hlen
      omega
    | cons b bs =>
      rw [Code.encodeAll_cons, Code.encodeAll_cons, List.append_assoc] at h
      obtain ⟨hab, hrest⟩ := List.append_inj h (by rw [C.length_encode, C.length_encode])
      obtain rfl : a = b := by rw [← C.decode_encode a, hab, C.decode_encode]
      exact (List.prefix_cons_inj a).mpr (ih hrest)

/-- A machine in the middle of a word, with the words of its history. -/
structure Framed (α β σ : Type*) where
  /-- The state of the machine. -/
  state : σ
  /-- What is left to send of a word. -/
  out : List β
  /-- What has arrived of a word. -/
  inp : List β
  /-- The words sent, the one under way included. -/
  sent : List α
  /-- The words received. -/
  received : List α

/-- A machine that has exchanged nothing. -/
def Framed.start (s : σ) : Framed α β σ := ⟨s, [], [], [], []⟩

/-- A machine for words, symbol by symbol. -/
def framed (M : Machine α σ) : Machine β (Framed α β σ) := fun s =>
  match s.out with
  | b :: bs => .send b { s with out := bs }
  | [] =>
    match M s.state with
    | .send a t =>
      match C.encode a with
      | b :: bs => .send b { s with state := t, out := bs, sent := s.sent ++ [a] }
      | [] => .halt
    | .recv f => .recv fun b =>
      if s.inp.length + 1 = C.size then
        { s with state := f (C.decode (s.inp ++ [b])), inp := [],
                 received := s.received ++ [C.decode (s.inp ++ [b])] }
      else { s with inp := s.inp ++ [b] }
    | .halt => .halt

variable {C} {M : Machine α σ} {N : Machine α τ}

/-! ## Histories -/

/-- A history of symbols is one of words, and parts of words at its end. -/
structure FramedHistory (C : Code α β) (M : Machine α σ) (s : σ) (R Q : List β)
    (u : Framed α β σ) : Prop where
  /-- The history of words. -/
  trace : Trace M s u.received u.sent u.state
  /-- The symbols received. -/
  recv_eq : R = C.encodeAll u.received ++ u.inp
  /-- No whole word is waiting. -/
  inp_lt : u.inp.length < C.size
  /-- The symbols sent and to be sent. -/
  sent_eq : Q ++ u.out = C.encodeAll u.sent

/-- What a machine exchanges symbol by symbol makes up words. -/
theorem framedHistory {s : σ} {R Q : List β} {u : Framed α β σ}
    (h : Trace (framed C M) (.start s) R Q u) : FramedHistory C M s R Q u := by
  induction h with
  | nil => exact ⟨.nil, rfl, C.size_pos, rfl⟩
  | @send R Q t u b _ hM ih =>
    obtain ⟨htrace, hrecv, hinp, hsent⟩ := ih
    unfold framed at hM
    split at hM
    · rename_i b' bs hout
      obtain ⟨rfl, rfl⟩ : b' = b ∧ { t with out := bs } = u := by simpa using hM
      refine ⟨htrace, hrecv, hinp, ?_⟩
      rw [← hsent, hout, List.append_assoc, List.singleton_append]
    · rename_i hout
      split at hM
      · rename_i a t' ha
        split at hM
        · rename_i b' bs hcode
          obtain ⟨rfl, rfl⟩ : b' = b ∧
            { t with state := t', out := bs, sent := t.sent ++ [a] } = u := by simpa using hM
          rw [hout, List.append_nil] at hsent
          refine ⟨.send htrace ha, hrecv, hinp, ?_⟩
          simp [hsent, hcode]
        · simp at hM
      · simp at hM
      · simp at hM
  | @recv R Q t f b _ hM ih =>
    obtain ⟨htrace, hrecv, hinp, hsent⟩ := ih
    unfold framed at hM
    split at hM
    · simp at hM
    · rename_i hout
      split at hM
      · split at hM
        · simp at hM
        · simp at hM
      · rename_i g hg
        obtain rfl := Action.recv.inj hM
        dsimp only
        split_ifs with hfull
        · refine ⟨.recv _ htrace hg, ?_, C.size_pos, hsent⟩
          have hword : C.encode (C.decode (t.inp ++ [b])) = t.inp ++ [b] :=
            C.encode_decode _ (by simpa using hfull)
          simp [hrecv, hword]
        · refine ⟨htrace, by simp [hrecv], ?_, hsent⟩
          simp only [List.length_append, List.length_singleton]
          omega
      · simp at hM

/-- In every order of single symbols, the words that a machine has received are the
first ones that the other has sent. -/
theorem framed_received {s : σ} {t : τ} {sides : List Side}
    {c : Net β (Framed α β σ) (Framed α β τ)}
    (hrun : Run (Net.Step (framed C M) (framed C N)) ⟨.start s, .start t, [], []⟩ sides c) :
    Trace M s c.left.received c.left.sent c.left.state ∧
      Trace N t c.right.received c.right.sent c.right.state ∧
      c.right.received <+: c.left.sent ∧ c.left.received <+: c.right.sent := by
  obtain ⟨Rl, Ql, Rr, Qr, ⟨hl, hr, hx, hy⟩, _⟩ := Net.histories hrun
  have hleft := framedHistory hl
  have hright := framedHistory hr
  refine ⟨hleft.trace, hright.trace, ?_, ?_⟩
  · have hsent := hleft.sent_eq
    rw [hx, hright.recv_eq, List.append_assoc, List.append_assoc] at hsent
    exact C.prefix_of_encodeAll hsent
  · have hsent := hright.sent_eq
    rw [hy, hleft.recv_eq, List.append_assoc, List.append_assoc] at hsent
    exact C.prefix_of_encodeAll hsent

/-- A run has at most as many steps as the symbols of the words sent are sent and
received. -/
theorem framed_length {s : σ} {t : τ} {sides : List Side}
    {c : Net β (Framed α β σ) (Framed α β τ)}
    (hrun : Run (Net.Step (framed C M) (framed C N)) ⟨.start s, .start t, [], []⟩ sides c) :
    sides.length ≤ 2 * (C.size * (c.left.sent.length + c.right.sent.length)) := by
  obtain ⟨Rl, Ql, Rr, Qr, ⟨hl, hr, hx, hy⟩, hlen⟩ := Net.histories hrun
  have hleft := congrArg List.length (framedHistory hl).sent_eq
  have hright := congrArg List.length (framedHistory hr).sent_eq
  have hlr := congrArg List.length hx
  have hrl := congrArg List.length hy
  rw [List.length_append] at hleft hright hlr hrl
  rw [C.length_encodeAll] at hleft hright
  rw [Nat.mul_add]
  omega

/-! ## When no step is left -/

/-- A machine that does not send is between words, and has stopped or waits. -/
theorem framed_idle {s : Framed α β σ} (h : ∀ b t, framed C M s ≠ .send b t) :
    s.out = [] ∧ (M s.state = .halt ∨
      (∃ f, M s.state = .recv f) ∧ ∃ f, framed C M s = .recv f) := by
  unfold framed at h ⊢
  split at h
  · exact absurd rfl (h _ _)
  · rename_i hout
    refine ⟨hout, ?_⟩
    rw [hout]
    split at h
    · rename_i a t ha
      split at h
      · exact absurd rfl (h _ _)
      · rename_i hcode
        have hlen := C.length_encode a
        rw [hcode] at hlen
        exact absurd hlen C.size_pos.ne
    · rename_i f hf
      exact Or.inr ⟨⟨f, hf⟩, _, rfl⟩
    · rename_i hhalt
      exact Or.inl hhalt

/-- A machine that has taken all symbols and misses some has received every word. -/
theorem FramedHistory.received_eq {s : σ} {t : τ} {R R' Q Q' : List β} {u : Framed α β σ}
    {v : Framed α β τ} (h : FramedHistory C M s R Q u) (h' : FramedHistory C N t R' Q' v)
    (hout : v.out = []) (htaken : Q' = R) : u.received = v.sent := by
  have hsent := h'.sent_eq
  rw [hout, List.append_nil, htaken, h.recv_eq] at hsent
  have hinp := h.inp_lt
  have hpre := C.prefix_of_encodeAll hsent
  have hlen := congrArg List.length hsent
  rw [List.length_append, C.length_encodeAll, C.length_encodeAll] at hlen
  apply hpre.eq_of_length
  have hle := hpre.length_le
  by_contra hne
  have hlt : C.size * (u.received.length + 1) ≤ C.size * v.sent.length :=
    Nat.mul_le_mul_left _ (by omega)
  rw [Nat.mul_add] at hlt
  omega

/-- When neither machine has a step, each has stopped, or waits having received all
that the other has sent. -/
theorem framed_terminal {s : σ} {t : τ} {sides : List Side}
    {c : Net β (Framed α β σ) (Framed α β τ)}
    (hrun : Run (Net.Step (framed C M) (framed C N)) ⟨.start s, .start t, [], []⟩ sides c)
    (hterm : ∀ side c', ¬ Net.Step (framed C M) (framed C N) c side c') :
    (M c.left.state = .halt ∨
        (∃ f, M c.left.state = .recv f) ∧ c.left.received = c.right.sent) ∧
      (N c.right.state = .halt ∨
        (∃ f, N c.right.state = .recv f) ∧ c.right.received = c.left.sent) := by
  obtain ⟨Rl, Ql, Rr, Qr, ⟨hl, hr, hx, hy⟩, _⟩ := Net.histories hrun
  obtain ⟨l, r, x, y⟩ := c
  obtain ⟨houtl, hidlel⟩ := framed_idle fun b t h => hterm _ _ (.leftSend h)
  obtain ⟨houtr, hidler⟩ := framed_idle fun b t h => hterm _ _ (.rightSend h)
  have hleft := framedHistory hl
  have hright := framedHistory hr
  constructor
  · refine hidlel.imp_right fun ⟨hrecv, f, hf⟩ => ⟨hrecv, hleft.received_eq hright houtr ?_⟩
    cases y with
    | nil => rw [hy, List.append_nil]
    | cons b y => exact absurd (.leftRecv hf) (hterm _ _)
  · refine hidler.imp_right fun ⟨hrecv, f, hf⟩ => ⟨hrecv, hright.received_eq hleft houtl ?_⟩
    cases x with
    | nil => rw [hx, List.append_nil]
    | cons b x => exact absurd (.rightRecv hf) (hterm _ _)

end Channel
