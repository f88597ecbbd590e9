import RpiVm.Xmodem.Recovery

/-!
# A branch to half a program

A packet that the receiver refuses for its number is read on byte by byte, and an EOT among
its bytes ends the transfer. One timeout while such a packet is under way is enough for the
sender to send it again.
-/

namespace RpiVm.Xmodem

open CLib Channel Transition

section

variable {buf : List (BitVec 8)} {junk : ℕ → List (BitVec 8)} {xstring : ℕ → BitVec 8} {mem : Mem}
  {ps : List (List (BitVec 8))} {s : Receiver}

/-- Steps of the two sides are steps with the timer. -/
theorem run_net {c c' : Net (BitVec 8) SenderState Receiver} {sides : List Side}
    (h : Run (Net.Step (sender buf junk) receiver) c sides c') :
    Run (Step buf junk) c (sides.map .net) c' := by
  induction h with
  | nil => exact .nil _
  | cons hstep _ ih => exact .cons (.net hstep) ih

/-- The receiver refuses bytes one after the other. -/
theorem recording_noise {noise : List (BitVec 8)} (hnoise : ∀ b ∈ noise, b ≠ soh ∧ b ≠ eot)
    (hs : At mem ps [] s) (hout : s.out = none) :
    ∃ l s', Recording receiver s l s' ∧ receivedOf l = noise ∧ At mem ps [] s' ∧
      s'.out = none := by
  induction noise generalizing s with
  | nil => exact ⟨[], s, .nil s, rfl, hs, hout⟩
  | cons b noise ih =>
    obtain ⟨hsoh, heot⟩ := hnoise b List.mem_cons_self
    obtain ⟨hs₁, hnak⟩ := hs.receive_noise hsoh heot
    obtain ⟨l, s', hrec, rfl, hs', hout'⟩ :=
      ih (fun b hb => hnoise b (List.mem_cons_of_mem _ hb)) (hs₁.setOut none) rfl
    exact ⟨_, s', ((recording_receive hs hout b).append (recording_reply hnak)).append hrec,
      by simp, hs', hout'⟩

/-- The receiver takes the packet of a block, refuses the number of the same packet and all
bytes up to an EOT, and branches. -/
theorem recording_twice {i : ℕ} {noise : List (BitVec 8)} (hs : At mem (sentData buf junk i) [] s)
    (hout : s.out = none) (hnoise : ∀ b ∈ noise, b ≠ soh ∧ b ≠ eot) :
    ∃ l s', Recording receiver s l s' ∧
      receivedOf l = packet i (payload buf junk i) ++ (soh :: number i :: (noise ++ [eot])) ∧
      s'.branched = true ∧ s'.mem = storeBytes mem armbase (sentData buf junk (i + 1)).flatten := by
  obtain ⟨s₁, hrec₁, hs₁, hout₁⟩ := recording_takes hs hout
  obtain ⟨hs₂, hout₂⟩ := hs₁.receive_soh
  have hnumber := hs₂.receive_number (number i)
  rw [sentData_length, if_neg (number_ne_succ i)] at hnumber
  obtain ⟨hs₃, hnak⟩ := hnumber
  obtain ⟨l, s₄, hrec₄, hl, hs₄, hout₄⟩ := recording_noise hnoise (hs₃.setOut none) rfl
  obtain ⟨hbranched, -, hmem⟩ := hs₄.receive_eot
  refine ⟨_, _, ((((hrec₁.append (recording_receive hs₁ hout₁ soh)).append
    (recording_receive hs₂ (hout₂.trans hout₁) (number i))).append (recording_reply hnak)).append
      hrec₄).append (recording_receive hs₄ hout₄ eot), ?_, hbranched, hmem⟩
  have hdual : (blockMoves buf junk i).map Move.dual =
      (packet i (payload buf junk i)).map .received ++ [.sent ack] := by
    rw [blockMoves, List.map_append, List.map_map]
    rfl
  simp [hdual, hl]

/-- `drain` reads what there is. -/
theorem run_drained (i : ℕ) (s : Receiver) (x y : List (BitVec 8)) :
    Run (Step buf junk) ⟨.draining i, s, x, y⟩ (y.map .drained) ⟨.draining i, s, x, []⟩ := by
  induction y with
  | nil => exact .nil _
  | cons b y ih => exact .cons .drained ih

/-- The sender comes to a block without a timeout. -/
theorem run_to_block (greeting : List (BitVec 8)) (xstring : ℕ → BitVec 8) (mem : Mem) {i : ℕ}
    (hi : i < blocks buf) :
    ∃ events s, Run (Step buf junk) (timedStart greeting xstring mem) events
        ⟨.sending i soh (sendBlock buf junk i), s, [], []⟩ ∧
      events.count .timeout = 0 ∧ At mem (sentData buf junk i) [] s ∧ s.out = none := by
  obtain ⟨s, hrec, hs, hout⟩ := @recording_takes_all buf junk xstring mem i
  obtain ⟨sides, hbefore, -⟩ := Net.run_dual (recording_blocks hi.le) hrec
  rw [nextBlock_of_lt hi] at hbefore
  refine ⟨_, s, (run_drained 0 (.start xstring mem) [] greeting).append
    (.cons .drainEnd (run_net hbefore)), List.count_eq_zero.mpr ?_, hs, hout⟩
  simp

/-- A block that is sent twice: the receiver takes the second packet for noise, up to an EOT
in it. -/
theorem branch_at_eot {i : ℕ} {noise tail : List (BitVec 8)} (hi : i < blocks buf)
    (hs : At mem (sentData buf junk i) [] s) (hout : s.out = none)
    (htail : (packet i (payload buf junk i)).drop 2 = noise ++ eot :: tail)
    (hnoise : ∀ b ∈ noise, b ≠ soh ∧ b ≠ eot) :
    ∃ events c, Run (Step buf junk) ⟨.sending i soh (sendBlock buf junk i), s, [], []⟩ events c ∧
      events.count .timeout = 1 ∧ c.right.branched = true ∧
      c.right.mem = storeBytes mem armbase (sentData buf junk (i + 1)).flatten := by
  -- the sender sends the block twice, as it finds the NAK first
  have hsends : Recording (sender buf junk) (.sending i soh (sendBlock buf junk i))
      ((packet i (payload buf junk i)).map .sent) (.reply i) :=
    soh_sendBlock buf junk i ▸ recording_sending i soh (sendBlock buf junk i)
  have hdraining : Recording (sender buf junk) (.sending i soh (sendBlock buf junk i))
      ((packet i (payload buf junk i)).map .sent ++ [.received nak]) (.draining i) := by
    have hne : nak ≠ ack := by decide
    refine hsends.append (.recv nak rfl ?_)
    rw [if_neg hne, if_neg (not_not.mpr rfl)]
    exact .nil _
  have hfirst := Net.run_left (N := receiver) (t := s) (x := []) (y := []) hdraining
  have hsecond := Net.run_left (N := receiver) (t := s) (x := packet i (payload buf junk i))
    (y := []) hsends
  -- the receiver reads both
  obtain ⟨l, s', htwice, hl, hbranched, hmem⟩ := recording_twice hs hout hnoise
  have hreads := Net.run_right (M := sender buf junk) (s := .reply i) (x := tail) (y := []) htwice
  have hstream : packet i (payload buf junk i) ++ packet i (payload buf junk i) =
      receivedOf l ++ tail := by
    have hpacket : packet i (payload buf junk i) = soh :: number i :: (noise ++ eot :: tail) := by
      rw [← htail]
      rfl
    rw [hl, List.append_assoc]
    congr 1
    rw [hpacket]
    simp
  simp only [receivedOf_append, receivedOf_map_sent, receivedOf_received, receivedOf_nil,
    sentOf_append, sentOf_map_sent, sentOf_received, sentOf_nil, List.nil_append, List.append_nil,
    hstream] at hfirst hsecond
  have hagain : Step buf junk ⟨.draining i, s, packet i (payload buf junk i), []⟩ .drainEnd
      ⟨.sending i soh (sendBlock buf junk i), s, packet i (payload buf junk i), []⟩ := by
    have hstep := @Step.drainEnd buf junk i s (packet i (payload buf junk i)) []
    rwa [nextBlock_of_lt hi] at hstep
  refine ⟨_, _, Run.cons (.timeout hout hs.running) (((run_net hfirst).append
    (.cons hagain (run_net hsecond))).append (run_net hreads)), ?_, hbranched, hmem⟩
  have hnet : ∀ sides : List Side, (sides.map Event.net).count .timeout = 0 := fun sides =>
    List.count_eq_zero.mpr (by simp)
  simp only [List.count_cons, List.count_append, hnet]
  rfl

/-- For every program and every block whose packet has an EOT behind its number, and no SOH
before that: there is a run with one timeout in which the Pi branches, though it has stored
no block behind this one. -/
theorem early_branch (greeting : List (BitVec 8)) (xstring : ℕ → BitVec 8) (mem : Mem) {i : ℕ}
    {noise tail : List (BitVec 8)} (hi : i < blocks buf)
    (htail : (packet i (payload buf junk i)).drop 2 = noise ++ eot :: tail)
    (hnoise : ∀ b ∈ noise, b ≠ soh ∧ b ≠ eot) :
    ∃ events c, Run (Step buf junk) (timedStart greeting xstring mem) events c ∧
      events.count .timeout = 1 ∧ c.right.branched = true ∧
      c.right.mem = storeBytes mem armbase (sentData buf junk (i + 1)).flatten := by
  obtain ⟨before, s, hbefore, hnone, hs, hout⟩ := run_to_block greeting xstring mem hi
  obtain ⟨events, c, hrun, hone, hbranched, hmem⟩ := branch_at_eot hi hs hout htail hnoise
  refine ⟨_, c, hbefore.append hrun, ?_, hbranched, hmem⟩
  rw [List.count_append, hnone, hone]

/-- The complement of the number of the 251st block is an EOT: for every program of more
blocks there is a run with one timeout in which the Pi branches to the first 251. -/
theorem early_branch_number (greeting : List (BitVec 8)) (xstring : ℕ → BitVec 8) (mem : Mem)
    (hlen : 251 < blocks buf) :
    ∃ events c, Run (Step buf junk) (timedStart greeting xstring mem) events c ∧
      events.count .timeout = 1 ∧ c.right.branched = true ∧
      c.right.mem = storeBytes mem armbase (sentData buf junk 251).flatten := by
  have htail : (packet 250 (payload buf junk 250)).drop 2 =
      [] ++ eot :: (payload buf junk 250 ++ [cksum (payload buf junk 250)]) := rfl
  have hi : 250 < blocks buf := by omega
  obtain ⟨before, s, hbefore, hnone, hs, hout⟩ := run_to_block greeting xstring mem hi
  obtain ⟨events, c, hrun, hone, hbranched, hmem⟩ :=
    branch_at_eot hi hs hout htail (List.forall_mem_nil _)
  refine ⟨_, c, hbefore.append hrun, ?_, hbranched, hmem⟩
  rw [List.count_append, hnone, hone]

/-- A program of 129 bytes, all of them EOTs: one timeout, and the Pi branches without the
last. -/
theorem early_branch_eots :
    ∃ events c, Run (Step (List.replicate 129 eot) fun _ => [])
        (timedStart [0x31] (fun _ => 0) fun _ => 0) events c ∧
      events.count .timeout = 1 ∧ c.right.branched = true ∧ c.right.mem 0x8080 = 0 := by
  have hpayload : payload (List.replicate 129 eot) (fun _ => []) 0 =
      eot :: List.replicate 127 eot := by
    simp [payload, payloadSz, List.replicate_succ]
  have htail : (packet 0 (payload (List.replicate 129 eot) (fun _ => []) 0)).drop 2 =
      [0xfe] ++ eot :: (List.replicate 127 eot ++ [cksum (eot :: List.replicate 127 eot)]) := by
    rw [hpayload, packet, head, List.cons_append]
    rfl
  have hblocks : 0 < blocks (List.replicate 129 eot) := by simp [blocks]
  obtain ⟨events, c, hrun, hone, hbranched, hmem⟩ := early_branch [0x31] (fun _ => 0) (fun _ => 0)
    hblocks htail (by decide)
  refine ⟨events, c, hrun, hone, hbranched, ?_⟩
  have hdata : (sentData (List.replicate 129 eot) (fun _ => []) 1).flatten.length = 128 :=
    sentData_flatten_length 1
  rw [hmem, storeBytes_of_ge _ (by rw [hdata]; decide)]

end

end RpiVm.Xmodem
