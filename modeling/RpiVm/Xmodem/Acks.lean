import RpiVm.Xmodem.Greeting

/-!
# The ACKs

The receiver sends an ACK for each block that it stores and one for the EOT. Each of them is
under way, has been answered by the sender with its next block, or has been drained; and one
that has been drained is never made up for, as the block that it was for is refused.
-/

namespace RpiVm.Xmodem

open CLib Channel Transition

/-! ## The sender -/

/-- Where the sender is, with so many ACKs drained: how many different packets it has begun,
whether the EOT is sent, what is left of its packet, and how many ACKs it has seen. -/
inductive SenderAt (buf : List (BitVec 8)) (lost : ℕ) :
    ℕ → Bool → List (BitVec 8) → ℕ → SenderState → Prop
  | begin : SenderAt buf lost 0 false [] 0 (.draining 0)
  | sending {i : ℕ} {b : BitVec 8} {bs : List (BitVec 8)} (hi : i < blocks buf) :
      SenderAt buf lost (i + 1) false (b :: bs) i (.sending i b bs)
  | reply {i : ℕ} (hi : i < blocks buf) : SenderAt buf lost (i + 1) false [] i (.reply i)
  | draining {i : ℕ} (hi : i < blocks buf) : SenderAt buf lost (i + 1) false [] i (.draining i)
  | invalidReply {i : ℕ} {rx : BitVec 8} (hi : i < blocks buf) :
      SenderAt buf lost (i + 1) false [] i (.invalidReply rx)
  | readFailed {i : ℕ} (hi : i < blocks buf) : SenderAt buf lost (i + 1) false [] i .readFailed
  | eot (hlost : lost = 0) : SenderAt buf lost (blocks buf) false [] (blocks buf) .eot
  | lastReply (hlost : lost = 0) : SenderAt buf lost (blocks buf) true [] (blocks buf) .lastReply
  | returned (hlost : lost = 0) : SenderAt buf lost (blocks buf) true [] (blocks buf + 1) .returned
  | expectedAck {rx : BitVec 8} (hlost : lost = 0) :
      SenderAt buf lost (blocks buf) true [] (blocks buf) (.expectedAck rx)
  | lastReadFailed (hlost : lost = 0) :
      SenderAt buf lost (blocks buf) true [] (blocks buf) .lastReadFailed

/-- The replies under way. -/
def replies (c : Net (BitVec 8) SenderState Receiver) : List (BitVec 8) :=
  c.toLeft ++ c.right.out.toList

/-- Sender, receiver and channels, with so many ACKs drained. -/
structure Synced (buf : List (BitVec 8)) (junk : ℕ → List (BitVec 8)) (mem : Mem) (lost f k n : ℕ)
    (ended : Bool) (rest : List (BitVec 8)) (c : Net (BitVec 8) SenderState Receiver) : Prop where
  /-- The sender. -/
  senderAt : SenderAt buf lost f ended rest n c.left
  /-- The receiver. -/
  follows : Follows buf junk mem f ended (c.toRight ++ rest) k c.right
  /-- An ACK for each block and for the EOT. -/
  acks : n + (replies c).count ack + lost = k + c.right.branched.toNat

section

variable {buf greeting : List (BitVec 8)} {junk : ℕ → List (BitVec 8)} {xstring : ℕ → BitVec 8}
  {mem : Mem}
  {lost f k n : ℕ} {ended : Bool} {rest : List (BitVec 8)} {u : SenderState}
  {c c' : Net (BitVec 8) SenderState Receiver}

/-- There are no more packets than blocks. -/
theorem SenderAt.le (h : SenderAt buf lost f ended rest n u) : f ≤ blocks buf := by
  cases h with
  | begin => exact Nat.zero_le _
  | sending hi | reply hi | draining hi | invalidReply hi | readFailed hi => exact hi
  | eot | lastReply | returned | expectedAck | lastReadFailed => exact le_rfl

/-- The EOT comes behind the last packet. -/
theorem SenderAt.of_ended (h : SenderAt buf lost f ended rest n u) (hended : ended = true) :
    f = blocks buf ∧ lost = 0 := by
  cases h with
  | begin | sending | reply | draining | invalidReply | readFailed | eot => cases hended
  | lastReply hlost | returned hlost | expectedAck hlost | lastReadFailed hlost =>
    exact ⟨rfl, hlost⟩

/-- Before the first `drain`. -/
theorem synced_timedStart (hgreeting : Plain greeting) :
    Synced buf junk mem 0 0 0 0 false [] (timedStart greeting xstring mem) := by
  have hreplies : replies (timedStart greeting xstring mem) = greeting := List.append_nil greeting
  refine ⟨.begin, .between (.nil 0) (at_start xstring mem), ?_⟩
  rw [hreplies, List.count_eq_zero.mpr fun hack => (hgreeting ack hack).1 rfl]
  rfl

/-- The sender comes to the head of its loop, with the ACKs that it has seen. -/
theorem Synced.nextBlock {i : ℕ} {s : Receiver} {x y : List (BitVec 8)}
    (hfollows : Follows buf junk mem f false x k s)
    (hacks : i + (replies ⟨u, s, x, y⟩).count ack + lost = k + s.branched.toNat)
    (hi : f = i ∨ f = i + 1) (hle : f ≤ blocks buf) :
    ∃ f' rest', Synced buf junk mem lost f' k i false rest'
      ⟨Xmodem.nextBlock buf junk i, s, x, y⟩ := by
  by_cases hlt : i < blocks buf
  · rw [nextBlock_of_lt hlt]
    refine ⟨i + 1, soh :: sendBlock buf junk i, .sending hlt, ?_, hacks⟩
    rw [soh_sendBlock]
    obtain rfl | rfl := hi
    · exact hfollows.snoc fun hL => hL.snoc_next hlt
    · exact hfollows.snoc fun hL => hL.snoc_again hlt
  · have hf : f = blocks buf := by omega
    have hi' : i = blocks buf := by omega
    have hrunning : s.branched = false := by
      by_contra hb
      cases (hfollows.of_branched (Bool.eq_true_of_not_eq_false hb)).1
    have hlost : lost = 0 := by
      have hk := hfollows.le
      simp only [hrunning, Bool.toNat_false] at hacks
      omega
    rw [nextBlock_of_le (by omega)]
    subst hi'
    refine ⟨blocks buf, [], .eot hlost, ?_, hacks⟩
    rw [List.append_nil, ← hf]
    exact hfollows

/-- The sender sends a byte. -/
theorem Synced.leftSend {s : Receiver} {x y : List (BitVec 8)} {a : BitVec 8} {u' : SenderState}
    (h : Synced buf junk mem lost f k n ended rest ⟨u, s, x, y⟩)
    (hM : sender buf junk u = .send a u') :
    ∃ ended' rest', Synced buf junk mem lost f k n ended' rest' ⟨u', s, x ++ [a], y⟩ := by
  obtain ⟨hsender, hfollows, hacks⟩ := h
  cases hsender with
  | @sending i b bs hi =>
    have hassoc : ∀ bs, (x ++ [b]) ++ bs = x ++ b :: bs := by simp
    cases bs with
    | nil =>
      obtain ⟨rfl, rfl⟩ := Action.send.inj hM
      exact ⟨false, [], .reply hi, (hassoc []).symm ▸ hfollows, hacks⟩
    | cons b' bs =>
      obtain ⟨rfl, rfl⟩ := Action.send.inj hM
      exact ⟨false, b' :: bs, .sending hi, (hassoc (b' :: bs)).symm ▸ hfollows, hacks⟩
  | eot hlost =>
    obtain ⟨rfl, rfl⟩ := Action.send.inj hM
    refine ⟨true, [], .lastReply hlost, ?_, hacks⟩
    rw [List.append_nil] at hfollows ⊢
    exact hfollows.sendEot
  | begin | reply | draining | invalidReply | readFailed | lastReply | returned | expectedAck
  | lastReadFailed => cases hM

/-- The sender receives a reply. -/
theorem Synced.leftRecv {s : Receiver} {x y : List (BitVec 8)} {a : BitVec 8}
    {g : BitVec 8 → SenderState}
    (h : Synced buf junk mem lost f k n ended rest ⟨u, s, x, a :: y⟩)
    (hM : sender buf junk u = .recv g) :
    ∃ f' ended' rest',
      Synced buf junk mem lost f' k (n + [a].count ack) ended' rest' ⟨g a, s, x, y⟩ := by
  have hacks := h.acks
  have hcons : ∀ v, replies ⟨u, s, x, a :: y⟩ = a :: replies ⟨v, s, x, y⟩ := fun v => rfl
  obtain ⟨hsender, hfollows, -⟩ := h
  cases hsender with
  | reply hi =>
    obtain rfl := Action.recv.inj hM
    dsimp only
    rw [List.append_nil] at hfollows
    by_cases hack : a = ack
    · subst hack
      rw [hcons (.reply n), List.count_cons_self] at hacks
      rw [if_pos rfl]
      have hseen : n + 1 + (replies ⟨.reply n, s, x, y⟩).count ack + lost =
          k + s.branched.toNat := by
        rw [← hacks]
        omega
      obtain ⟨f', rest', hnext⟩ := Synced.nextBlock hfollows hseen (.inl rfl) hi
      exact ⟨f', false, rest', hnext⟩
    · have hzero : n + [a].count ack = n := by simp [hack]
      rw [hcons (.reply n), List.count_cons_of_ne hack] at hacks
      rw [hzero, if_neg hack]
      by_cases hnak : a = nak
      · rw [if_neg (not_not.mpr hnak)]
        refine ⟨n + 1, false, [], .draining hi, ?_, hacks⟩
        rwa [List.append_nil]
      · rw [if_pos hnak]
        refine ⟨n + 1, false, [], .invalidReply hi, ?_, hacks⟩
        rwa [List.append_nil]
  | lastReply hlost =>
    obtain rfl := Action.recv.inj hM
    dsimp only
    by_cases hack : a = ack
    · subst hack
      rw [hcons .returned, List.count_cons_self] at hacks
      rw [if_neg (not_not.mpr rfl)]
      have hseen : blocks buf + 1 + (replies ⟨.returned, s, x, y⟩).count ack + lost =
          k + s.branched.toNat := by
        rw [← hacks]
        omega
      exact ⟨_, true, [], .returned hlost, hfollows, hseen⟩
    · have hzero : blocks buf + [a].count ack = blocks buf := by simp [hack]
      rw [hcons (.expectedAck a), List.count_cons_of_ne hack] at hacks
      rw [hzero, if_pos hack]
      exact ⟨_, true, [], .expectedAck hlost, hfollows, hacks⟩
  | @sending _ _ bs => cases bs <;> cases hM
  | begin | draining | invalidReply | readFailed | eot | returned | expectedAck
  | lastReadFailed => cases hM

/-- The receiver sends a reply. -/
theorem Synced.rightSend {s s' : Receiver} {x y : List (BitVec 8)} {a : BitVec 8}
    (h : Synced buf junk mem lost f k n ended rest ⟨u, s, x, y⟩) (hN : receiver s = .send a s') :
    Synced buf junk mem lost f k n ended rest ⟨u, s', x, y ++ [a]⟩ := by
  obtain ⟨hsender, hfollows, hacks⟩ := h
  cases hout : s.out with
  | none => cases hb : s.branched <;> simp [receiver, hout, hb] at hN
  | some b =>
    rw [receiver, hout] at hN
    obtain ⟨rfl, rfl⟩ := Action.send.inj hN
    have hsame : replies ⟨u, { s with out := none }, x, y ++ [b]⟩ = replies ⟨u, s, x, y⟩ := by
      simp [replies, hout]
    exact ⟨hsender, hfollows.setOut none, by rw [hsame]; exact hacks⟩

/-- The receiver receives a byte. -/
theorem Synced.rightRecv {s : Receiver} {x y : List (BitVec 8)} {a : BitVec 8}
    {g : BitVec 8 → Receiver} (hquiet : Quiet buf junk)
    (h : Synced buf junk mem lost f k n ended rest ⟨u, s, a :: x, y⟩)
    (hN : receiver s = .recv g) :
    ∃ k', Synced buf junk mem lost f k' n ended rest ⟨u, g a, x, y⟩ ∧
      Took s (x ++ rest) k k' (g a) := by
  obtain ⟨hsender, hfollows, hacks⟩ := h
  have hne : nak ≠ ack := by decide
  cases hout : s.out with
  | some b =>
    rw [receiver, hout] at hN
    cases hN
  | none =>
    have hrunning : s.branched = false := by
      by_contra hb
      cases (hfollows.of_branched (Bool.eq_true_of_not_eq_false hb)).2.1
    have hrecv : receiver s = .recv s.receive := by simp [receiver, hout, hrunning]
    obtain rfl := Action.recv.inj (hrecv.symm.trans hN)
    have hunread : Follows buf junk mem f ended (a :: (x ++ rest)) k s := hfollows
    obtain ⟨k', hfollows', htook⟩ :=
      hunread.receive hquiet fun hended => (hsender.of_ended hended).1
    simp only [replies, hout, Option.toList_none, List.append_nil, hrunning, Bool.toNat_false,
      Nat.add_zero] at hacks
    refine ⟨k', ⟨hsender, hfollows', ?_⟩, htook⟩
    simp only [replies, List.count_append]
    cases htook with
    | went hout' hrunning' =>
      have hnone : (s.receive a).out.toList.count ack = 0 := by
        obtain hout' | hout' := hout'
        · rw [hout', hout]
          rfl
        · rw [hout']
          rfl
      rw [hnone, hrunning', Nat.add_zero, Bool.toNat_false, Nat.add_zero]
      exact hacks
    | stored hout' hrunning' =>
      have hone : (some ack).toList.count ack = 1 := rfl
      rw [hout', hrunning', hone, Bool.toNat_false, ← hacks]
      omega
    | branched _ hout' hbranched =>
      have hone : (some ack).toList.count ack = 1 := rfl
      rw [hout', hbranched, hone, Bool.toNat_true, ← hacks]
      omega

/-- A step keeps them in step. -/
theorem Synced.step {e : Event} (hquiet : Quiet buf junk)
    (h : Synced buf junk mem lost f k n ended rest c) (hstep : Step buf junk c e c') :
    ∃ f' k' n' ended' rest',
      Synced buf junk mem (lost + [e].count (.drained ack)) f' k' n' ended' rest' c' := by
  have hne : nak ≠ ack := by decide
  cases hstep with
  | net hnet =>
    cases hnet with
    | leftSend hM =>
      obtain ⟨ended', rest', hnext⟩ := h.leftSend hM
      exact ⟨f, k, n, ended', rest', hnext⟩
    | leftRecv hM =>
      obtain ⟨f', ended', rest', hnext⟩ := h.leftRecv hM
      exact ⟨f', k, _, ended', rest', hnext⟩
    | rightSend hN => exact ⟨f, k, n, ended, rest, h.rightSend hN⟩
    | rightRecv hN =>
      obtain ⟨k', hnext, -⟩ := h.rightRecv hquiet hN
      exact ⟨f, k', n, ended, rest, hnext⟩
  | @timeout u s x y hout hrunning =>
    obtain ⟨hsender, hfollows, hacks⟩ := h
    have hreplies : ∀ y, replies ⟨u, s, x, y⟩ = y := by simp [replies, hout]
    simp only [hreplies] at hacks
    refine ⟨f, k, n, ended, rest, hsender, hfollows, ?_⟩
    simpa [hreplies, hne] using hacks
  | @drained i s x y b =>
    obtain ⟨hsender, hfollows, hacks⟩ := h
    have hcons : replies ⟨.draining i, s, x, b :: y⟩ = b :: replies ⟨.draining i, s, x, y⟩ := rfl
    rw [hcons] at hacks
    have hsender' : ∀ l, SenderAt buf l f ended rest n (.draining i) := by
      intro l
      cases hsender with
      | begin => exact .begin
      | draining hi => exact .draining hi
    refine ⟨f, k, n, ended, rest, hsender' _, hfollows, ?_⟩
    by_cases hb : b = ack
    · subst hb
      simp only [List.count_cons_self, List.count_nil] at hacks ⊢
      omega
    · have hb' : Event.drained b ≠ .drained ack := fun heq => hb (Event.drained.inj heq)
      rw [List.count_cons_of_ne hb] at hacks
      simpa [List.count_cons_of_ne hb'] using hacks
  | @drainEnd i s x y =>
    obtain ⟨hsender, hfollows, hacks⟩ := h
    cases hsender with
    | begin =>
      rw [List.append_nil] at hfollows
      obtain ⟨f', rest', hnext⟩ := Synced.nextBlock hfollows hacks (.inl rfl) (Nat.zero_le _)
      exact ⟨f', k, 0, false, rest', hnext⟩
    | draining hi =>
      rw [List.append_nil] at hfollows
      obtain ⟨f', rest', hnext⟩ := Synced.nextBlock hfollows hacks (.inr rfl) hi
      exact ⟨f', k, n, false, rest', hnext⟩
  | readFailed =>
    obtain ⟨hsender, hfollows, hacks⟩ := h
    cases hsender with
    | reply hi => exact ⟨_, k, n, false, [], .readFailed hi, hfollows, hacks⟩
  | lastReadFailed =>
    obtain ⟨hsender, hfollows, hacks⟩ := h
    cases hsender with
    | lastReply hlost => exact ⟨_, k, _, true, [], .lastReadFailed hlost, hfollows, hacks⟩

/-- A run keeps them in step. -/
theorem Synced.run {events : List Event} (hquiet : Quiet buf junk)
    (h : Synced buf junk mem lost f k n ended rest c) (hrun : Run (Step buf junk) c events c') :
    ∃ f' k' n' ended' rest',
      Synced buf junk mem (lost + events.count (.drained ack)) f' k' n' ended' rest' c' := by
  induction hrun generalizing lost f k n ended rest with
  | nil => exact ⟨f, k, n, ended, rest, h⟩
  | @cons _ _ _ e events hstep _ ih =>
    obtain ⟨f₁, k₁, n₁, ended₁, rest₁, h₁⟩ := h.step hquiet hstep
    have hcount : (e :: events).count (.drained ack) =
        [e].count (.drained ack) + events.count (.drained ack) := by
      rw [← List.count_append, List.singleton_append]
    rw [hcount, ← Nat.add_assoc]
    exact ih h₁

/-! ## Safety -/

/-- The receiver stores before the sender goes on: when it has begun with the EOT all is
stored. -/
theorem Synced.whole (h : Synced buf junk mem lost f k n ended rest c) (hn : blocks buf ≤ n) :
    k = blocks buf := by
  have hle := h.follows.le.trans h.senderAt.le
  have hacks := h.acks
  cases hb : c.right.branched with
  | false =>
    rw [hb, Bool.toNat_false] at hacks
    omega
  | true =>
    obtain ⟨-, -, hk, hf⟩ := h.follows.of_branched hb
    omega

/-- For every quiet program, in every order of single bytes, timeouts, drained replies and failing
reads: the memory of the Pi holds the first blocks, and no other byte of it has changed; the Pi
branches to the whole program only; `xmodem` returns only when the Pi has branched; in `send_block`
it panics at a byte of the greeting or a read that fails; and when it panics behind the EOT, the
whole program is in memory all the same. -/
theorem xmodem_timed (hquiet : Quiet buf junk) (hfit : Fits buf) (hplain : Plain greeting)
    {events : List Event}
    (hrun : Run (Step buf junk) (timedStart greeting xstring mem) events c) :
    (∃ k ≤ blocks buf, c.right.mem = storeBytes mem armbase (sentData buf junk k).flatten) ∧
    (c.right.branched = true → readBytes c.right.mem armbase buf.length = buf) ∧
    (c.left = .returned → c.right.branched = true) ∧
    (∀ rx, c.left = .invalidReply rx → rx ∈ greeting) ∧
    ((∃ rx, c.left = .expectedAck rx) ∨ c.left = .lastReadFailed →
      readBytes c.right.mem armbase buf.length = buf) := by
  obtain ⟨f, k, n, ended, rest, h⟩ := (synced_timedStart hplain).run hquiet hrun
  obtain ⟨g, hgreeted⟩ := greeted_timedStart.run hplain hrun
  have hmem := h.follows.mem_eq
  have hsender := h.senderAt
  have hwhole : k = blocks buf → readBytes c.right.mem armbase buf.length = buf := by
    rintro rfl
    rw [hmem]
    exact readBytes_sentData hfit mem
  refine ⟨⟨k, h.follows.le.trans hsender.le, hmem⟩, fun hb => ?_, fun hc => ?_, hgreeted.invalid,
    ?_⟩
  · obtain ⟨-, -, hk, hf⟩ := h.follows.of_branched hb
    exact hwhole (hk.trans hf)
  · have hle := h.follows.le.trans hsender.le
    have hacks := h.acks
    rw [hc] at hsender
    cases hsender
    by_contra hb
    rw [Bool.eq_false_of_not_eq_true hb, Bool.toNat_false] at hacks
    omega
  · rintro (⟨rx, hc⟩ | hc)
    · rw [hc] at hsender
      cases hsender
      exact hwhole (h.whole le_rfl)
    · rw [hc] at hsender
      cases hsender
      exact hwhole (h.whole le_rfl)

/-- A program of one byte that is quiet. -/
theorem quiet_two : Quiet [2] fun _ => [] := by
  intro i hi
  have hzero : i = 0 := by
    have hblocks : blocks [2] = 1 := rfl
    omega
  subst hzero
  decide +kernel

/-- It is sent to a Pi that has printed a digit and whose timer has gone off already. -/
theorem xmodem_timed_two :
    ∃ c, Run (Step [2] fun _ => []) (timedStart [0x31] (fun _ => 0) fun _ => 0)
        [.timeout, .drained 0x31, .drained nak, .drainEnd] c ∧
      (c.left = .returned → c.right.branched = true) ∧
      (c.right.branched = true → readBytes c.right.mem armbase 1 = [2]) := by
  have hrun : Run (Step [2] fun _ => []) (timedStart [0x31] (fun _ => 0) fun _ => 0)
      [.timeout, .drained 0x31, .drained nak, .drainEnd]
      ⟨nextBlock [2] (fun _ => []) 0, .start (fun _ => 0) fun _ => 0, [], []⟩ :=
    .cons (.timeout rfl rfl) (.cons .drained (.cons .drained (.cons .drainEnd (.nil _))))
  obtain ⟨-, hmem, hreturned, -⟩ := xmodem_timed quiet_two (by decide) (by decide) hrun
  exact ⟨_, hrun, hreturned, hmem⟩

end

end RpiVm.Xmodem
