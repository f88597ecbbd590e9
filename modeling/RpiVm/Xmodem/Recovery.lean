import RpiVm.Xmodem.Acks

/-!
# Recovery

However many NAKs the timer has sent and however often a block has been sent again, the transfer
can be completed as long as no ACK has been drained and the sender has not panicked over a block,
for want of a reply or at a byte of the greeting; and otherwise it never is.
-/

namespace RpiVm.Xmodem

open CLib Channel Transition

/-! ## What is left to do -/

/-- The bytes that the sender has to send before it waits for a reply. -/
def senderWork : SenderState → ℕ
  | .sending _ _ bs => bs.length + 1
  | .draining _ => 133
  | .eot => 1
  | _ => 0

/-- How far both sides are from the end: the blocks to store and the ACKs to see, the NAKs in
front of the next ACK when it is under way, and the bytes to send and to read. -/
def distance (buf : List (BitVec 8)) (k n : ℕ) (c : Net (BitVec 8) SenderState Receiver) :
    ℕ ×ₗ ℕ ×ₗ ℕ :=
  toLex (2 * blocks buf - (k + n), toLex (if k = n then 0 else (replies c).idxOf ack,
    3 * senderWork c.left + 2 * c.toRight.length + c.right.out.toList.length))

/-- The sender has panicked in `send_block`, or will: there are blocks, and behind the first `drain`
a byte of the greeting is unread. -/
def Stuck (buf greeting : List (BitVec 8)) (c : Net (BitVec 8) SenderState Receiver) : Prop :=
  c.left = .readFailed ∨ (∃ rx, c.left = .invalidReply rx) ∨
    (c.left ≠ .draining 0 ∧ 0 < blocks buf ∧ ∃ b ∈ c.toLeft, b ∈ greeting)

/-- The sender has not panicked in `send_block`, and what it will read for a block is a reply. -/
structure Clean (buf : List (BitVec 8)) (c : Net (BitVec 8) SenderState Receiver) : Prop where
  /-- Replies only are under way. -/
  replies : blocks buf = 0 ∨ ∀ b ∈ replies c, b = ack ∨ b = nak
  /-- No read has failed. -/
  not_failed : c.left ≠ .readFailed
  /-- No reply was invalid. -/
  not_invalid : ∀ rx, c.left ≠ .invalidReply rx

section

variable {buf greeting g : List (BitVec 8)} {junk : ℕ → List (BitVec 8)} {xstring : ℕ → BitVec 8}
  {mem : Mem} {f k n k' n' : ℕ} {ended : Bool} {U rest : List (BitVec 8)} {s : Receiver}
  {c c' : Net (BitVec 8) SenderState Receiver}

/-! ## Panics over a block -/

/-- While a byte of the greeting is unread behind the first `drain`, the sender is at its first
block or has panicked. -/
theorem Greeted.early_of_mem (h : Greeted buf greeting g c) (hplain : Plain greeting) {b : BitVec 8}
    (hb : b ∈ c.toLeft) (hgreeting : b ∈ greeting) :
    Early buf c.left ∧ ∃ a y, c.toLeft = a :: y ∧ a ∈ greeting := by
  obtain ⟨hpart, ⟨r, hfront, hreplies⟩, -, hearly, -⟩ := h
  cases g with
  | nil =>
    obtain rfl : c.toLeft = r := hfront
    obtain ⟨hack, hnak⟩ := hplain b hgreeting
    obtain rfl | rfl := hreplies b hb
    · exact absurd rfl hack
    · exact absurd rfl hnak
  | cons a g => exact ⟨hearly (List.cons_ne_nil a g), a, g ++ r, hfront, hpart a List.mem_cons_self⟩

/-- A panic over a block is for good. -/
theorem Stuck.step {e : Event} (hplain : Plain greeting) (hg : Greeted buf greeting g c)
    (h : Stuck buf greeting c) (hstep : Step buf junk c e c') : Stuck buf greeting c' := by
  obtain hleft | ⟨rx, hleft⟩ | ⟨hdrain, hblocks, b, hb, hgreeting⟩ := h
  · cases hstep with
    | net hnet =>
      cases hnet with
      | leftSend hM | leftRecv hM =>
        obtain rfl := hleft
        cases hM
      | rightSend | rightRecv => exact .inl hleft
    | timeout => exact .inl hleft
    | drained | drainEnd | readFailed | lastReadFailed => cases hleft
  · cases hstep with
    | net hnet =>
      cases hnet with
      | leftSend hM | leftRecv hM =>
        obtain rfl := hleft
        cases hM
      | rightSend | rightRecv => exact .inr (.inl ⟨rx, hleft⟩)
    | timeout => exact .inr (.inl ⟨rx, hleft⟩)
    | drained | drainEnd | readFailed | lastReadFailed => cases hleft
  · obtain ⟨hearly, a, y, hhead, ha⟩ := hg.early_of_mem hplain hb hgreeting
    cases hstep with
    | net hnet =>
      cases hnet with
      | @leftSend u u' _ _ _ _ hM =>
        refine .inr (.inr ⟨?_, hblocks, b, hb, hgreeting⟩)
        cases u with
        | sending i b bs =>
          cases bs <;>
          · obtain ⟨rfl, rfl⟩ := Action.send.inj hM
            exact SenderState.noConfusion
        | eot =>
          obtain ⟨rfl, rfl⟩ := Action.send.inj hM
          exact SenderState.noConfusion
        | reply | draining | lastReply | returned | invalidReply | readFailed | expectedAck
        | lastReadFailed => cases hM
      | @leftRecv u _ _ _ a' _ hM =>
        obtain ⟨rfl, rfl⟩ : a' = a ∧ _ = y := List.cons.inj hhead
        obtain ⟨hack, hnak⟩ := hplain a' ha
        cases u with
        | reply i =>
          obtain rfl := Action.recv.inj hM
          refine .inr (.inl ⟨a', ?_⟩)
          dsimp only
          rw [if_neg hack, if_pos hnak]
        | lastReply => exact absurd hearly hblocks.ne'
        | sending i b bs => cases bs <;> cases hM
        | draining | eot | returned | invalidReply | readFailed | expectedAck | lastReadFailed =>
          cases hM
      | rightSend => exact .inr (.inr ⟨hdrain, hblocks, b, List.mem_append_left _ hb, hgreeting⟩)
      | rightRecv => exact .inr (.inr ⟨hdrain, hblocks, b, hb, hgreeting⟩)
    | timeout => exact .inr (.inr ⟨hdrain, hblocks, b, List.mem_append_left _ hb, hgreeting⟩)
    | drained | drainEnd =>
      obtain rfl := hearly
      exact absurd rfl hdrain
    | readFailed => exact .inl rfl
    | lastReadFailed => exact absurd hearly hblocks.ne'

/-- Over whole runs as well. -/
theorem Stuck.run {events : List Event} (hplain : Plain greeting) (hg : Greeted buf greeting g c)
    (h : Stuck buf greeting c) (hrun : Run (Step buf junk) c events c') :
    Stuck buf greeting c' ∧ ∃ g', Greeted buf greeting g' c' := by
  induction hrun generalizing g with
  | nil => exact ⟨h, g, hg⟩
  | cons hstep _ ih =>
    obtain ⟨g₁, hg₁⟩ := hg.step hplain hstep
    exact ih hg₁ (h.step hplain hg hstep)

/-- The EOT is not sent then. -/
theorem Stuck.not_ended {lost : ℕ} (hplain : Plain greeting) (hg : Greeted buf greeting g c)
    (h : Stuck buf greeting c) (hs : SenderAt buf lost f ended rest n c.left) : ended = false := by
  cases ended with
  | false => rfl
  | true =>
    obtain hleft | ⟨rx, hleft⟩ | ⟨-, hblocks, b, hb, hgreeting⟩ := h
    · rw [hleft] at hs
      cases hs
    · rw [hleft] at hs
      cases hs
    · have hearly := (hg.early_of_mem hplain hb hgreeting).1
      generalize c.left = u at hs hearly
      cases hs with
      | lastReply | returned | expectedAck | lastReadFailed => exact absurd hearly hblocks.ne'

/-- Otherwise `drain` can read what is left of the greeting. -/
theorem Synced.exists_clean (hquiet : Quiet buf junk) (hplain : Plain greeting)
    (h : Synced buf junk mem 0 f k n ended rest c) (hg : Greeted buf greeting g c)
    (hstuck : ¬ Stuck buf greeting c) :
    ∃ events c', Run (Step buf junk) c events c' ∧ Clean buf c' ∧
      ∃ f k n ended rest, Synced buf junk mem 0 f k n ended rest c' := by
  simp only [Stuck, not_or, not_exists] at hstuck
  obtain ⟨hfailed, hinvalid, hunread⟩ := hstuck
  have hnil {c : Net (BitVec 8) SenderState Receiver} (hg : Greeted buf greeting [] c) :
      ∀ b ∈ replies c, b = ack ∨ b = nak := by
    obtain ⟨-, ⟨r, hfront, hreplies⟩, hout, -, -⟩ := hg
    obtain rfl : c.toLeft = r := hfront
    intro b hb
    obtain hb | hb := List.mem_append.mp hb
    · exact hreplies b hb
    · exact hout b (Option.mem_toList.mp hb)
  by_cases hdrain : c.left = .draining 0
  · clear hunread
    induction g generalizing f k n ended rest c with
    | nil =>
      exact ⟨[], c, .nil c, ⟨.inr (hnil hg), hfailed, hinvalid⟩, f, k, n, ended, rest, h⟩
    | cons a g ih =>
      obtain ⟨r, hfront, -⟩ := hg.front
      obtain ⟨u, s, x, y⟩ := c
      obtain rfl : u = .draining 0 := hdrain
      obtain rfl : y = a :: (g ++ r) := hfront
      have hstep : Step buf junk ⟨.draining 0, s, x, a :: (g ++ r)⟩ (.drained a)
          ⟨.draining 0, s, x, g ++ r⟩ := .drained
      obtain ⟨f', k', n', ended', rest', hnext⟩ := h.step hquiet hstep
      have hne : Event.drained a ≠ .drained ack := fun heq =>
        (hplain a (hg.part a List.mem_cons_self)).1 (Event.drained.inj heq)
      rw [List.count_singleton, if_neg (by simpa using hne), Nat.add_zero] at hnext
      obtain ⟨events, c', hrun, hclean, hsynced⟩ := ih hnext hg.drained
        SenderState.noConfusion (fun _ => SenderState.noConfusion) rfl
      exact ⟨_, c', .cons hstep hrun, hclean, hsynced⟩
  · refine ⟨[], c, .nil c, ⟨?_, hfailed, hinvalid⟩, f, k, n, ended, rest, h⟩
    obtain hblocks | hblocks := (blocks buf).eq_zero_or_pos
    · exact .inl hblocks
    · right
      cases g with
      | nil => exact hnil hg
      | cons a g =>
        obtain ⟨r, hfront, -⟩ := hg.front
        have ha : a ∈ c.toLeft := by
          rw [hfront]
          exact List.mem_cons_self
        exact absurd ⟨hdrain, hblocks, a, ha, hg.part a List.mem_cons_self⟩ hunread

/-! ## Progress -/

/-- A block more. -/
theorem distance_of_blocks (h : k + n < k' + n') (hle : k + n < 2 * blocks buf) :
    distance buf k' n' c' < distance buf k n c :=
  Prod.Lex.toLex_lt_toLex.mpr (.inl (by omega))

/-- A NAK less. -/
theorem distance_of_nak (hk : k ≠ n) (h : (replies c').idxOf ack < (replies c).idxOf ack) :
    distance buf k n c' < distance buf k n c := by
  refine Prod.Lex.toLex_lt_toLex.mpr (.inr ⟨rfl, Prod.Lex.toLex_lt_toLex.mpr (.inl ?_)⟩)
  rwa [if_neg hk, if_neg hk]

/-- A byte less. -/
theorem distance_of_byte (hreplies : k = n ∨ (replies c').idxOf ack = (replies c).idxOf ack)
    (h : 3 * senderWork c'.left + 2 * c'.toRight.length + c'.right.out.toList.length <
      3 * senderWork c.left + 2 * c.toRight.length + c.right.out.toList.length) :
    distance buf k n c' < distance buf k n c := by
  refine Prod.Lex.toLex_lt_toLex.mpr (.inr ⟨rfl, Prod.Lex.toLex_lt_toLex.mpr (.inr ⟨?_, h⟩)⟩)
  obtain hk | hidx := hreplies
  · rw [if_pos hk, if_pos hk]
  · dsimp only
    rw [hidx]

/-- A block is at most 132 bytes away. -/
theorem senderWork_nextBlock (i : ℕ) : senderWork (nextBlock buf junk i) ≤ 132 := by
  rw [nextBlock]
  split
  · simp [senderWork, sendBlock]
  · simp [senderWork]

/-- When all is read, all is stored. -/
theorem Follows.of_nil (h : Follows buf junk mem f ended [] k s) (hrunning : s.branched = false) :
    ended = false ∧ k = f := by
  generalize hU : ([] : List (BitVec 8)) = U at h
  cases h with
  | between hL =>
    obtain ⟨hpackets, hending⟩ := List.append_eq_nil_iff.mp hU.symm
    have hended : ended = false := by
      cases ended with
      | false => rfl
      | true => cases hending
    cases hL with
    | nil => exact ⟨hended, rfl⟩
    | again | next => simp [packet, head] at hpackets
  | started => simp [sendBlock] at hU
  | fresh _ _ _ hm' | again _ _ _ hm' =>
    have hlen := congrArg List.length hU
    simp only [List.length_nil, List.length_append, List.length_drop,
      packet_length (payload_length buf junk _)] at hlen
    omega
  | ended _ _ hbranched => cases hrunning.symm.trans hbranched

/-- No more ACKs are seen than blocks stored. -/
theorem Synced.seen_le (h : Synced buf junk mem 0 f k n ended rest c)
    (hrunning : c.right.branched = false) : n + (replies c).count ack = k := by
  simpa [hrunning] using h.acks

/-- Replies may come on their way. -/
theorem Clean.of_replies (h : Clean buf c) (hleft : c'.left = c.left)
    (hreplies : ∀ b ∈ Xmodem.replies c', b ∈ Xmodem.replies c ∨ b = ack ∨ b = nak) :
    Clean buf c' := by
  obtain ⟨hclean, hfailed, hinvalid⟩ := h
  rw [← hleft] at hfailed hinvalid
  refine ⟨hclean.imp_right fun hclean b hb => ?_, hfailed, hinvalid⟩
  obtain hb | hb := hreplies b hb
  · exact hclean b hb
  · exact hb

/-- The receiver goes on when it has something to send or to read. -/
theorem Synced.progress_right (hquiet : Quiet buf junk) (hclean : Clean buf c)
    (h : Synced buf junk mem 0 f k n ended rest c) (hrunning : c.right.branched = false)
    (hbusy : c.right.out ≠ none ∨ c.toRight ≠ []) :
    ∃ e c' k', Step buf junk c e c' ∧ Clean buf c' ∧
      Synced buf junk mem 0 f k' n ended rest c' ∧ distance buf k' n c' < distance buf k n c := by
  have hseen := h.seen_le hrunning
  obtain ⟨u, s, x, y⟩ := c
  cases hout : s.out with
  | some b =>
    have hN : receiver s = .send b { s with out := none } := by rw [receiver, hout]
    have hsame : replies ⟨u, { s with out := none }, x, y ++ [b]⟩ = replies ⟨u, s, x, y⟩ := by
      simp [replies, hout]
    refine ⟨.net .right, ⟨u, { s with out := none }, x, y ++ [b]⟩, k, .net (.rightSend hN),
      hclean.of_replies rfl fun b hb => .inl (hsame ▸ hb), h.rightSend hN,
      distance_of_byte (.inr (congrArg (List.idxOf ack) hsame)) ?_⟩
    simp [hout]
  | none =>
    cases x with
    | nil => simp [hout] at hbusy
    | cons a x =>
      have hN : receiver s = .recv s.receive := by
        have hrunning' : s.branched = false := hrunning
        rw [receiver, hout, hrunning', if_neg Bool.false_ne_true]
      obtain ⟨k', hnext, htook⟩ := h.rightRecv hquiet hN
      have hclean' : Clean buf ⟨u, s.receive a, x, y⟩ := by
        refine hclean.of_replies rfl fun b hb => ?_
        obtain hb | hb := List.mem_append.mp hb
        · exact .inl (List.mem_append_left _ hb)
        · have hb' : (s.receive a).out = some b := Option.mem_toList.mp hb
          obtain hsame | hack | hnak := receive_out s a
          · cases (hout.symm.trans hsame.symm).trans hb'
          · exact .inr (.inl (Option.some.inj (hack.symm.trans hb')).symm)
          · exact .inr (.inr (Option.some.inj (hnak.symm.trans hb')).symm)
      refine ⟨.net .right, ⟨u, s.receive a, x, y⟩, k', .net (.rightRecv hN), hclean', hnext, ?_⟩
      -- what is sent comes behind the ACK that is under way
      have hbyte : (s.receive a).out.toList.length ≤ 1 →
          distance buf k n ⟨u, s.receive a, x, y⟩ < distance buf k n ⟨u, s, a :: x, y⟩ := by
        intro hlen
        refine distance_of_byte ?_ ?_
        · by_cases hk : k = n
          · exact .inl hk
          · have hmem : ack ∈ y := by
              have hpos : 0 < y.count ack := by
                simp only [replies, hout, Option.toList_none, List.append_nil] at hseen
                omega
              exact List.count_pos_iff.mp hpos
            have hidx : (replies ⟨u, s.receive a, x, y⟩).idxOf ack = y.idxOf ack :=
              List.idxOf_append_of_mem hmem
            refine .inr (hidx.trans ?_)
            simp [replies, hout]
        · simp only [hout, Option.toList_none, List.length_nil, List.length_cons]
          omega
      cases htook with
      | went hout' =>
        refine hbyte ?_
        obtain hout' | hout' := hout' <;> simp [hout', hout]
      | stored =>
        have hle := hnext.follows.le.trans hnext.senderAt.le
        exact distance_of_blocks (by omega) (by omega)
      | branched _ hout' => exact hbyte (by simp [hout'])

/-- The sender sends, and does not panic. -/
theorem of_send {u u' : SenderState} {a : BitVec 8} (hM : sender buf junk u = .send a u') :
    senderWork u' + 1 = senderWork u ∧ u' ≠ .readFailed ∧ ∀ rx, u' ≠ .invalidReply rx := by
  cases u with
  | sending i b bs =>
    cases bs with
    | nil =>
      obtain ⟨rfl, rfl⟩ := Action.send.inj hM
      simp [senderWork]
    | cons b' bs =>
      obtain ⟨rfl, rfl⟩ := Action.send.inj hM
      simp [senderWork]
  | eot =>
    obtain ⟨rfl, rfl⟩ := Action.send.inj hM
    simp [senderWork]
  | reply | draining | lastReply | returned | invalidReply | readFailed | expectedAck
  | lastReadFailed => cases hM

/-- While no ACK has been drained and the receiver has not branched, one step goes on. -/
theorem Synced.progress (hquiet : Quiet buf junk) (hclean : Clean buf c)
    (h : Synced buf junk mem 0 f k n ended rest c) (hrunning : c.right.branched = false) :
    ∃ e c' f' k' n' ended' rest', Step buf junk c e c' ∧ Clean buf c' ∧
      Synced buf junk mem 0 f' k' n' ended' rest' c' ∧
      distance buf k' n' c' < distance buf k n c := by
  by_cases hbusy : c.right.out ≠ none ∨ c.toRight ≠ []
  · obtain ⟨e, c', k', hstep, hclean', hnext, hlt⟩ := h.progress_right hquiet hclean hrunning hbusy
    exact ⟨e, c', f, k', n, ended, rest, hstep, hclean', hnext, hlt⟩
  push Not at hbusy
  have hseen := h.seen_le hrunning
  obtain ⟨u, s, x, y⟩ := c
  obtain ⟨hout, hx⟩ : s.out = none ∧ x = [] := hbusy
  subst hx
  have hreplies : ∀ v x, replies ⟨v, s, x, y⟩ = y := by simp [replies, hout]
  obtain ⟨hclean, hfailed, hinvalid⟩ := hclean
  rw [hreplies] at hclean
  have hsend : ∀ {a u'}, sender buf junk u = .send a u' →
      ∃ e c' f' k' n' ended' rest', Step buf junk ⟨u, s, [], y⟩ e c' ∧ Clean buf c' ∧
        Synced buf junk mem 0 f' k' n' ended' rest' c' ∧
        distance buf k' n' c' < distance buf k n ⟨u, s, [], y⟩ := by
    intro a u' hM
    obtain ⟨ended', rest', hnext⟩ := h.leftSend hM
    obtain ⟨hwork, hfailed', hinvalid'⟩ := of_send hM
    refine ⟨.net .left, _, f, k, n, ended', rest', .net (.leftSend hM),
      ⟨by rwa [hreplies], hfailed', hinvalid'⟩, hnext,
      distance_of_byte (.inr (by rw [hreplies, hreplies])) ?_⟩
    simp only [List.nil_append, List.length_cons, List.length_nil]
    omega
  have hdrain : ∀ i, u = .draining i →
      (∃ f' rest',
        Synced buf junk mem 0 f' k i false rest' ⟨Xmodem.nextBlock buf junk i, s, [], y⟩) →
      i = n → ∃ e c' f' k' n' ended' rest', Step buf junk ⟨u, s, [], y⟩ e c' ∧ Clean buf c' ∧
        Synced buf junk mem 0 f' k' n' ended' rest' c' ∧
        distance buf k' n' c' < distance buf k n ⟨u, s, [], y⟩ := by
    rintro i rfl ⟨f', rest', hnext⟩ rfl
    refine ⟨.drainEnd, _, f', k, i, false, rest', .drainEnd,
      ⟨by rwa [hreplies], nextBlock_ne_readFailed i, nextBlock_ne_invalidReply i⟩, hnext,
      distance_of_byte (.inr (by rw [hreplies, hreplies])) ?_⟩
    have hwork := @senderWork_nextBlock buf junk i
    have hdraining : senderWork (.draining i) = 133 := rfl
    dsimp only
    omega
  have hsender := h.senderAt
  have hended : ended = false ∧ k = f ∨ rest ≠ [] := by
    by_cases hrest : rest = []
    · have hfollows := h.follows
      rw [hrest] at hfollows
      exact .inl (hfollows.of_nil hrunning)
    · exact .inr hrest
  have hfollows := h.follows
  have hacks := h.acks
  cases hsender with
  | begin => exact hdrain 0 rfl (Synced.nextBlock hfollows hacks (.inl rfl) (Nat.zero_le _)) rfl
  | draining hi => exact hdrain n rfl (Synced.nextBlock hfollows hacks (.inr rfl) hi) rfl
  | @sending _ _ bs =>
    cases bs with
    | nil => exact hsend rfl
    | cons => exact hsend rfl
  | eot => exact hsend rfl
  | invalidReply => exact absurd rfl (hinvalid _)
  | readFailed => exact absurd rfl hfailed
  | lastReply | returned | expectedAck | lastReadFailed => simp at hended
  | reply hi =>
    -- the ACK for the block is under way
    have hk : k = n + 1 := by simpa using hended
    rw [hreplies] at hseen
    cases y with
    | nil => simp [hk] at hseen
    | cons a y =>
      have hreply := hclean.resolve_left (by omega)
      have hM : sender buf junk (.reply n) = .recv fun rx =>
          if rx = ack then Xmodem.nextBlock buf junk (n + 1)
          else if rx ≠ nak then .invalidReply rx
          else .draining n := rfl
      obtain ⟨f', ended', rest', hnext⟩ := h.leftRecv hM
      have hrest (v) : blocks buf = 0 ∨ ∀ b ∈ replies ⟨v, s, [], y⟩, b = ack ∨ b = nak := by
        have hy : replies ⟨v, s, [], y⟩ = y := by simp [replies, hout]
        rw [hy]
        exact .inr fun b hb => hreply b (List.mem_cons_of_mem a hb)
      refine ⟨.net .left, _, f', k, _, ended', rest', .net (.leftRecv hM), ?_, hnext, ?_⟩
      · refine ⟨hrest _, ?_, fun rx => ?_⟩
        · obtain rfl | rfl := hreply a List.mem_cons_self
          · exact nextBlock_ne_readFailed (n + 1)
          · exact SenderState.noConfusion
        · obtain rfl | rfl := hreply a List.mem_cons_self
          · exact nextBlock_ne_invalidReply (n + 1) rx
          · exact SenderState.noConfusion
      · by_cases ha : a = ack
        · subst ha
          have hone : [ack].count ack = 1 := rfl
          exact distance_of_blocks (by omega) (by omega)
        · have hzero : n + [a].count ack = n := by simp [ha]
          rw [hzero]
          refine distance_of_nak (by omega) ?_
          simp [replies, hout, List.idxOf_cons_ne _ ha]

/-! ## Completion -/

/-- For every quiet program and after every run: the Pi can still come to branch, whatever the
timer has done, if and only if no ACK has been drained and the sender neither has panicked over a
block nor will at a byte of the greeting. -/
theorem can_branch_iff (hquiet : Quiet buf junk) (hplain : Plain greeting) {events : List Event}
    (hrun : Run (Step buf junk) (timedStart greeting xstring mem) events c) :
    (∃ events' c', Run (Step buf junk) c events' c' ∧ c'.right.branched = true) ↔
      Event.drained ack ∉ events ∧ ¬ Stuck buf greeting c := by
  obtain ⟨g, hgreeted⟩ := greeted_timedStart.run hplain hrun
  constructor
  · rintro ⟨events', c', hrest, hbranched⟩
    obtain ⟨f, k, n, ended, rest, h⟩ := (synced_timedStart hplain).run hquiet (hrun.append hrest)
    obtain ⟨hended, -, -, -⟩ := h.follows.of_branched hbranched
    refine ⟨fun hdrained => ?_, fun hstuck => ?_⟩
    · have hlost := (h.senderAt.of_ended hended).2
      rw [Nat.zero_add, List.count_append] at hlost
      have hpos := List.count_pos_iff.mpr hdrained
      omega
    · obtain ⟨hstuck', g', hgreeted'⟩ := hstuck.run hplain hgreeted hrest
      cases hended.symm.trans (hstuck'.not_ended hplain hgreeted' h.senderAt)
  · rintro ⟨hdrained, hstuck⟩
    obtain ⟨f, k, n, ended, rest, h⟩ := (synced_timedStart hplain).run hquiet hrun
    rw [List.count_eq_zero.mpr hdrained] at h
    obtain ⟨events₁, c₁, hrun₁, hclean₁, f₁, k₁, n₁, ended₁, rest₁, h₁⟩ :=
      h.exists_clean hquiet hplain hgreeted hstuck
    have hgoes : ∀ (m : ℕ ×ₗ ℕ ×ₗ ℕ) (c : Net (BitVec 8) SenderState Receiver),
        (Clean buf c ∧ ∃ f k n ended rest, Synced buf junk mem 0 f k n ended rest c ∧
          m = distance buf k n c) →
        ¬ c.right.branched = true →
        ∃ e c' m', Step buf junk c e c' ∧
          (Clean buf c' ∧ ∃ f k n ended rest, Synced buf junk mem 0 f k n ended rest c' ∧
            m' = distance buf k n c') ∧ m' < m := by
      rintro _ c ⟨hclean, f, k, n, ended, rest, h, rfl⟩ hrunning
      obtain ⟨e, c', f', k', n', ended', rest', hstep, hclean', hnext, hlt⟩ :=
        h.progress hquiet hclean (Bool.eq_false_of_not_eq_true hrunning)
      exact ⟨e, c', _, hstep, ⟨hclean', f', k', n', ended', rest', hnext, rfl⟩, hlt⟩
    obtain ⟨events₂, c₂, hrun₂, hbranched⟩ := Run.exists_of_progress hgoes
      ⟨hclean₁, f₁, k₁, n₁, ended₁, rest₁, h₁, rfl⟩
    exact ⟨_, c₂, hrun₁.append hrun₂, hbranched⟩

/-- Of a program of one byte the transfer can be completed, though the Pi has printed a digit. -/
theorem can_branch_two :
    ∃ events c, Run (Step [2] fun _ => []) (timedStart [0x31] (fun _ => 0) fun _ => 0) events c ∧
      c.right.branched = true := by
  refine (can_branch_iff quiet_two (by decide) (.nil _)).mpr ⟨List.not_mem_nil, ?_⟩
  rintro (hfailed | ⟨rx, hinvalid⟩ | ⟨hdrain, -⟩)
  · cases hfailed
  · cases hinvalid
  · exact hdrain rfl

end

end RpiVm.Xmodem
