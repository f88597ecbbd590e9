import RpiVm.Xmodem.Timer

/-!
# The greeting

The Pi prints two numbers before it reads anything. What the first `drain` of the sender leaves of
them it takes for the reply to its first block, and panics.
-/

namespace RpiVm.Xmodem

open CLib Channel Transition

/-- Where the sender may be while a part of the greeting is unread: at its first block, or in a
panic. Without blocks it may be anywhere behind them. -/
def Early (buf : List (BitVec 8)) : SenderState → Prop
  | .sending i _ _ => i = 0
  | .reply i => i = 0
  | .draining i => i = 0
  | .invalidReply _ => True
  | .readFailed => True
  | .eot => blocks buf = 0
  | .lastReply => blocks buf = 0
  | .returned => blocks buf = 0
  | .expectedAck _ => blocks buf = 0
  | .lastReadFailed => blocks buf = 0

/-- So much of the greeting is unread; behind it are replies. -/
structure Greeted (buf greeting g : List (BitVec 8)) (c : Net (BitVec 8) SenderState Receiver) :
    Prop where
  /-- It is of the greeting. -/
  part : ∀ b ∈ g, b ∈ greeting
  /-- It comes first. -/
  front : ∃ r, c.toLeft = g ++ r ∧ ∀ b ∈ r, b = ack ∨ b = nak
  /-- The receiver sends nothing else any more. -/
  out : ∀ b ∈ c.right.out, b = ack ∨ b = nak
  /-- The sender has not come far. -/
  early : g ≠ [] → Early buf c.left
  /-- The sender may have panicked at it. -/
  invalid : ∀ rx, c.left = .invalidReply rx → rx ∈ greeting

section

variable {buf greeting g : List (BitVec 8)} {junk : ℕ → List (BitVec 8)} {xstring : ℕ → BitVec 8}
  {mem : Mem} {c c' : Net (BitVec 8) SenderState Receiver}

/-- The receiver replies with ACKs and NAKs. -/
theorem receive_out (s : Receiver) (b : BitVec 8) :
    (s.receive b).out = s.out ∨ (s.receive b).out = some ack ∨ (s.receive b).out = some nak := by
  unfold Receiver.receive
  dsimp only
  split_ifs <;> simp

/-- At first all of it is unread. -/
theorem greeted_timedStart :
    Greeted buf greeting greeting (timedStart greeting xstring mem) where
  part _ hb := hb
  front := ⟨[], (List.append_nil _).symm, List.forall_mem_nil _⟩
  out _ hb := by cases hb
  early _ := rfl
  invalid _ h := SenderState.noConfusion h

/-- The head of the loop. -/
theorem early_nextBlock {i : ℕ} (hi : i = 0) : Early buf (nextBlock buf junk i) := by
  subst hi
  rw [nextBlock]
  split_ifs with hlt
  · rfl
  · have hblocks := mt lt_blocks.mpr hlt
    exact Nat.eq_zero_of_not_pos hblocks

/-- The sender does not panic there. -/
theorem nextBlock_ne_invalidReply (i : ℕ) (rx : BitVec 8) :
    nextBlock buf junk i ≠ .invalidReply rx := by
  rw [nextBlock]
  split_ifs
  · exact SenderState.noConfusion
  · exact SenderState.noConfusion

/-- Nor does a read fail. -/
theorem nextBlock_ne_readFailed (i : ℕ) : nextBlock buf junk i ≠ .readFailed := by
  rw [nextBlock]
  split_ifs
  · exact SenderState.noConfusion
  · exact SenderState.noConfusion

/-- The sender sends a byte. -/
theorem Greeted.leftSend {u u' : SenderState} {s : Receiver} {x x' y : List (BitVec 8)}
    {a : BitVec 8}
    (h : Greeted buf greeting g ⟨u, s, x, y⟩) (hM : sender buf junk u = .send a u') :
    Greeted buf greeting g ⟨u', s, x', y⟩ := by
  obtain ⟨hpart, hfront, hout, hearly, -⟩ := h
  cases u with
  | sending i b bs =>
    cases bs with
    | nil =>
      obtain ⟨rfl, rfl⟩ := Action.send.inj hM
      exact ⟨hpart, hfront, hout, hearly, fun _ h => SenderState.noConfusion h⟩
    | cons =>
      obtain ⟨rfl, rfl⟩ := Action.send.inj hM
      exact ⟨hpart, hfront, hout, hearly, fun _ h => SenderState.noConfusion h⟩
  | eot =>
    obtain ⟨rfl, rfl⟩ := Action.send.inj hM
    exact ⟨hpart, hfront, hout, hearly, fun _ h => SenderState.noConfusion h⟩
  | reply | draining | lastReply | returned | invalidReply | readFailed | expectedAck
  | lastReadFailed => cases hM

/-- The sender receives a byte: one of the greeting, at which it panics, or a reply. -/
theorem Greeted.leftRecv {u : SenderState} {s : Receiver} {x y : List (BitVec 8)} {a : BitVec 8}
    {f : BitVec 8 → SenderState} (hplain : Plain greeting)
    (h : Greeted buf greeting g ⟨u, s, x, a :: y⟩) (hM : sender buf junk u = .recv f) :
    ∃ g', Greeted buf greeting g' ⟨f a, s, x, y⟩ := by
  obtain ⟨hpart, ⟨r, hfront, hreplies⟩, hout, hearly, -⟩ := h
  cases g with
  | nil =>
    obtain rfl : a :: y = r := hfront
    have hne : nak ≠ ack := by decide
    have hvalid : ∀ rx, f a ≠ .invalidReply rx := by
      intro rx
      cases u with
      | reply i =>
        obtain rfl := Action.recv.inj hM
        obtain rfl | rfl := hreplies a List.mem_cons_self
        · exact nextBlock_ne_invalidReply (i + 1) rx
        · exact SenderState.noConfusion
      | lastReply =>
        obtain rfl := Action.recv.inj hM
        dsimp only
        split_ifs
        · exact SenderState.noConfusion
        · exact SenderState.noConfusion
      | sending i b bs => cases bs <;> cases hM
      | draining | eot | returned | invalidReply | readFailed | expectedAck | lastReadFailed =>
        cases hM
    exact ⟨[], hpart, ⟨y, rfl, fun b hb => hreplies b (List.mem_cons_of_mem a hb)⟩, hout,
      fun hnil => absurd rfl hnil, fun rx hrx => absurd hrx (hvalid rx)⟩
  | cons b g =>
    obtain ⟨rfl, rfl⟩ : a = b ∧ y = g ++ r := List.cons.inj hfront
    have hmem : a ∈ greeting := hpart a List.mem_cons_self
    obtain ⟨hack, hnak⟩ := hplain a hmem
    have hearly' := hearly (List.cons_ne_nil a g)
    have hrest : ∀ b ∈ g, b ∈ greeting := fun b hb => hpart b (List.mem_cons_of_mem a hb)
    refine ⟨g, hrest, ⟨r, rfl, hreplies⟩, hout, fun _ => ?_, fun rx hrx => ?_⟩
    · cases u with
      | reply i =>
        obtain rfl := Action.recv.inj hM
        dsimp only
        rw [if_neg hack, if_pos hnak]
        trivial
      | lastReply =>
        obtain rfl := Action.recv.inj hM
        dsimp only
        rw [if_pos hack]
        exact hearly'
      | sending i b bs => cases bs <;> cases hM
      | draining | eot | returned | invalidReply | readFailed | expectedAck | lastReadFailed =>
        cases hM
    · cases u with
      | reply i =>
        obtain rfl := Action.recv.inj hM
        dsimp only at hrx
        rw [if_neg hack, if_pos hnak] at hrx
        obtain rfl := SenderState.invalidReply.inj hrx
        exact hmem
      | lastReply =>
        obtain rfl := Action.recv.inj hM
        dsimp only at hrx
        rw [if_pos hack] at hrx
        cases hrx
      | sending i b bs => cases bs <;> cases hM
      | draining | eot | returned | invalidReply | readFailed | expectedAck | lastReadFailed =>
        cases hM

/-- `drain` reads a byte. -/
theorem Greeted.drained {i : ℕ} {s : Receiver} {x y : List (BitVec 8)} {b : BitVec 8}
    (h : Greeted buf greeting g ⟨.draining i, s, x, b :: y⟩) :
    Greeted buf greeting g.tail ⟨.draining i, s, x, y⟩ := by
  obtain ⟨hpart, ⟨r, hfront, hreplies⟩, hout, hearly, -⟩ := h
  refine ⟨fun b hb => hpart b (List.mem_of_mem_tail hb), ?_, hout, fun hne => hearly ?_,
    fun _ h => SenderState.noConfusion h⟩
  · cases g with
    | nil =>
      obtain rfl : b :: y = r := hfront
      exact ⟨y, rfl, fun b' hb' => hreplies b' (List.mem_cons_of_mem b hb')⟩
    | cons => exact ⟨r, (List.cons.inj hfront).2, hreplies⟩
  · rintro rfl
    exact hne rfl

/-- The receiver sends a reply. -/
theorem Greeted.rightSend {u : SenderState} {s s' : Receiver} {x y : List (BitVec 8)} {a : BitVec 8}
    (h : Greeted buf greeting g ⟨u, s, x, y⟩) (hN : receiver s = .send a s') :
    Greeted buf greeting g ⟨u, s', x, y ++ [a]⟩ := by
  obtain ⟨hpart, ⟨r, hfront, hreplies⟩, hout, hearly, hinvalid⟩ := h
  cases hs : s.out with
  | none => cases hb : s.branched <;> simp [receiver, hs, hb] at hN
  | some b =>
    rw [receiver, hs] at hN
    obtain ⟨rfl, rfl⟩ := Action.send.inj hN
    refine ⟨hpart, ⟨r ++ [b], ?_, fun b' hb' => ?_⟩, ?_, hearly, hinvalid⟩
    · rw [← List.append_assoc]
      exact congrArg (· ++ [b]) hfront
    · obtain hb' | hb' := List.mem_append.mp hb'
      · exact hreplies b' hb'
      · obtain rfl := List.mem_singleton.mp hb'
        exact hout b' hs
    · intro b' hb'
      cases hb'

/-- The receiver receives a byte. -/
theorem Greeted.rightRecv {u : SenderState} {s : Receiver} {x x' y : List (BitVec 8)} {a : BitVec 8}
    {f : BitVec 8 → Receiver} (h : Greeted buf greeting g ⟨u, s, x, y⟩)
    (hN : receiver s = .recv f) : Greeted buf greeting g ⟨u, f a, x', y⟩ := by
  obtain ⟨hpart, hfront, hout, hearly, hinvalid⟩ := h
  refine ⟨hpart, hfront, ?_, hearly, hinvalid⟩
  have hrecv : f a = s.receive a := by
    cases hs : s.out with
    | some b =>
      rw [receiver, hs] at hN
      cases hN
    | none =>
      cases hb : s.branched with
      | true => simp [receiver, hs, hb] at hN
      | false =>
        have hf : receiver s = .recv s.receive := by simp [receiver, hs, hb]
        rw [Action.recv.inj (hN.symm.trans hf)]
  intro b hb
  dsimp only at hb
  rw [hrecv] at hb
  obtain hsame | hack | hnak := receive_out s a
  · exact hout b (hsame ▸ hb)
  · exact .inl (Option.some.inj (hack.symm.trans hb)).symm
  · exact .inr (Option.some.inj (hnak.symm.trans hb)).symm

/-- A step leaves no more of the greeting unread. -/
theorem Greeted.step {e : Event} (hplain : Plain greeting) (h : Greeted buf greeting g c)
    (hstep : Step buf junk c e c') : ∃ g', Greeted buf greeting g' c' := by
  cases hstep with
  | net hnet =>
    cases hnet with
    | leftSend hM => exact ⟨g, h.leftSend hM⟩
    | leftRecv hM => exact h.leftRecv hplain hM
    | rightSend hN => exact ⟨g, h.rightSend hN⟩
    | rightRecv hN => exact ⟨g, h.rightRecv hN⟩
  | timeout hout hrunning =>
    obtain ⟨hpart, ⟨r, hfront, hreplies⟩, hout, hearly, hinvalid⟩ := h
    refine ⟨g, hpart, ⟨r ++ [nak], ?_, fun b hb => ?_⟩, hout, hearly, hinvalid⟩
    · rw [← List.append_assoc]
      exact congrArg (· ++ [nak]) hfront
    · obtain hb | hb := List.mem_append.mp hb
      · exact hreplies b hb
      · exact .inr (List.mem_singleton.mp hb)
  | drained => exact ⟨g.tail, h.drained⟩
  | @drainEnd i =>
    obtain ⟨hpart, hfront, hout, hearly, -⟩ := h
    exact ⟨g, hpart, hfront, hout, fun hne => early_nextBlock (hearly hne),
      fun rx hrx => absurd hrx (nextBlock_ne_invalidReply i rx)⟩
  | readFailed =>
    obtain ⟨hpart, hfront, hout, -, -⟩ := h
    exact ⟨g, hpart, hfront, hout, fun _ => trivial, fun _ h => SenderState.noConfusion h⟩
  | lastReadFailed =>
    obtain ⟨hpart, hfront, hout, hearly, -⟩ := h
    exact ⟨g, hpart, hfront, hout, hearly, fun _ h => SenderState.noConfusion h⟩

/-- So does a run. -/
theorem Greeted.run {events : List Event} (hplain : Plain greeting) (h : Greeted buf greeting g c)
    (hrun : Run (Step buf junk) c events c') : ∃ g', Greeted buf greeting g' c' := by
  induction hrun generalizing g with
  | nil => exact ⟨g, h⟩
  | cons hstep _ ih =>
    obtain ⟨g₁, h₁⟩ := h.step hplain hstep
    exact ih h₁

end

end RpiVm.Xmodem
