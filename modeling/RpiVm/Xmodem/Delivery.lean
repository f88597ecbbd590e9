import RpiVm.Xmodem.Sender

/-!
# Delivery by XMODEM

While the timer of the Pi does not go off, sender and receiver take turns, and one run of
both in lock-step stands for all: the program arrives whole, whatever its length, and the
numbers of the blocks may wrap.
-/

namespace RpiVm.Xmodem

open CLib Channel Transition

section

variable {buf : List (BitVec 8)} {junk : ℕ → List (BitVec 8)} {xstring : ℕ → BitVec 8} {mem : Mem}

/-! ## Lock-step -/

/-- What the sender does for a block. -/
def blockMoves (buf : List (BitVec 8)) (junk : ℕ → List (BitVec 8)) (i : ℕ) : List (Move (BitVec 8)) :=
  (packet i (payload buf junk i)).map .sent ++ [.received ack]

/-- What the sender does for the first blocks. -/
def blocksMoves (buf : List (BitVec 8)) (junk : ℕ → List (BitVec 8)) (k : ℕ) :
    List (Move (BitVec 8)) :=
  (List.range k).flatMap (blockMoves buf junk)

/-- One block more. -/
theorem blocksMoves_succ (k : ℕ) :
    blocksMoves buf junk (k + 1) = blocksMoves buf junk k ++ blockMoves buf junk k := by
  simp [blocksMoves, List.range_succ]

/-- The number of moves. -/
theorem blocksMoves_length (k : ℕ) : (blocksMoves buf junk k).length = 133 * k := by
  induction k with
  | zero => rfl
  | succ k ih =>
    rw [blocksMoves_succ, List.length_append, ih, blockMoves]
    simp
    omega

/-- The sender sends a packet. -/
theorem recording_sending (i : ℕ) (b : BitVec 8) (bs : List (BitVec 8)) :
    Recording (sender buf junk) (.sending i b bs) ((b :: bs).map .sent) (.reply i) := by
  induction bs generalizing b with
  | nil => exact .send rfl (.nil _)
  | cons b' bs ih => exact .send rfl (ih b')

/-- The sender sends a block, and it is acknowledged. -/
theorem recording_block {i : ℕ} (hi : i < blocks buf) :
    Recording (sender buf junk) (nextBlock buf junk i) (blockMoves buf junk i)
      (nextBlock buf junk (i + 1)) := by
  have hpacket : Recording (sender buf junk) _ _ _ :=
    recording_sending i soh (sendBlock buf junk i)
  rw [soh_sendBlock, ← nextBlock_of_lt hi] at hpacket
  refine hpacket.append (.recv ack rfl ?_)
  rw [if_pos rfl]
  exact .nil _

/-- The sender sends the first blocks. -/
theorem recording_blocks {k : ℕ} (hk : k ≤ blocks buf) :
    Recording (sender buf junk) (nextBlock buf junk 0) (blocksMoves buf junk k)
      (nextBlock buf junk k) := by
  induction k with
  | zero => exact .nil _
  | succ k ih =>
    rw [blocksMoves_succ]
    exact (ih (by omega)).append (recording_block (by omega))

/-- The receiver takes a block. -/
theorem recording_takes {k : ℕ} {s : Receiver} (hs : At mem (sentData buf junk k) [] s)
    (hout : s.out = none) :
    ∃ s', Recording receiver s ((blockMoves buf junk k).map Move.dual) s' ∧
      At mem (sentData buf junk (k + 1)) [] s' ∧ s'.out = none := by
  obtain ⟨s', hrec, hs', hout'⟩ := recording_packet hs hout (payload_length buf junk k)
    (cksum (payload buf junk k))
  rw [if_pos rfl, sentData_length] at hrec
  rw [if_pos rfl, ← sentData_succ] at hs'
  refine ⟨s', ?_, hs', hout'⟩
  have hdual : (blockMoves buf junk k).map Move.dual =
      (head k ++ payload buf junk k ++ [cksum (payload buf junk k)]).map .received ++
        [.sent ack] := by
    rw [blockMoves, List.map_append, List.map_map]
    rfl
  rw [hdual]
  exact hrec

/-- The receiver takes the first blocks. -/
theorem recording_takes_all (k : ℕ) :
    ∃ s, Recording receiver (.start xstring mem) ((blocksMoves buf junk k).map Move.dual) s ∧
      At mem (sentData buf junk k) [] s ∧ s.out = none := by
  induction k with
  | zero => exact ⟨_, .nil _, at_start xstring mem, rfl⟩
  | succ k ih =>
    obtain ⟨s, hrec, hs, hout⟩ := ih
    obtain ⟨s', hrec', hs', hout'⟩ := recording_takes hs hout
    refine ⟨s', ?_, hs', hout'⟩
    rw [blocksMoves_succ, List.map_append]
    exact hrec.append hrec'

/-! ## Every order of steps -/

/-- Both sides behind the first `drain`. -/
def start (buf : List (BitVec 8)) (junk : ℕ → List (BitVec 8)) (xstring : ℕ → BitVec 8) (mem : Mem) :
    Net (BitVec 8) SenderState Receiver :=
  ⟨nextBlock buf junk 0, .start xstring mem, [], []⟩

/-- A program that fits into the address space. -/
def Fits (buf : List (BitVec 8)) : Prop := armbase.toNat + 128 * blocks buf ≤ 2 ^ 32

instance (buf : List (BitVec 8)) : Decidable (Fits buf) := inferInstanceAs (Decidable (_ ≤ _))

/-- What is loaded of the data of all blocks is the program. -/
theorem readBytes_sentData (hfit : Fits buf) (mem : Mem) :
    readBytes (storeBytes mem armbase (sentData buf junk (blocks buf)).flatten) armbase
      buf.length = buf := by
  have hlen : (sentData buf junk (blocks buf)).flatten.length = 128 * blocks buf :=
    sentData_flatten_length _
  have hle : buf.length ≤ (sentData buf junk (blocks buf)).flatten.length := by
    rw [hlen, blocks]
    omega
  rw [← readBytes_take _ _ hle, readBytes_storeBytes _ (by rw [hlen]; exact hfit),
    take_sentData_blocks]

/-- For every program, every order of single bytes and whatever the array on the stack holds:
sender and receiver take a fixed number of steps, none of which is left only when the sender
has returned, the receiver branches, and the program is in memory. -/
theorem xmodem_delivers (hfit : Fits buf) {sides : List Side}
    {c : Net (BitVec 8) SenderState Receiver}
    (hrun : Run (Net.Step (sender buf junk) receiver) (start buf junk xstring mem) sides c) :
    (∃ sides' c', Run (Net.Step (sender buf junk) receiver) c sides' c' ∧
      Terminal (Net.Step (sender buf junk) receiver) c' ∧
      sides.length + sides'.length = 2 * (133 * blocks buf + 2)) ∧
    (Terminal (Net.Step (sender buf junk) receiver) c →
      c.left = .returned ∧ c.right.branched = true ∧ c.toRight = [] ∧ c.toLeft = [] ∧
        readBytes c.right.mem armbase buf.length = buf) := by
  have hsend : Recording (sender buf junk) (nextBlock buf junk 0)
      (blocksMoves buf junk (blocks buf) ++ [.sent eot, .received ack]) .returned := by
    refine (recording_blocks le_rfl).append ?_
    rw [nextBlock_of_le le_rfl]
    refine .send rfl (.recv ack rfl ?_)
    rw [if_neg (not_not.mpr rfl)]
    exact .nil _
  obtain ⟨s, hrec, hs, hout⟩ := @recording_takes_all buf junk xstring mem (blocks buf)
  obtain ⟨hbranched, hack, hmem⟩ := hs.receive_eot
  have htake : Recording receiver (.start xstring mem)
      ((blocksMoves buf junk (blocks buf) ++ [Move.sent eot, .received ack]).map Move.dual ++
        ([] : List (BitVec 8)).map .sent) { s.receive eot with out := none } := by
    have hall := (hrec.append (recording_receive hs hout eot)).append (recording_reply hack)
    rw [List.append_assoc] at hall
    rw [List.map_append, List.map_nil, List.append_nil]
    exact hall
  have hhalt : ∀ a u, receiver { s.receive eot with out := none } ≠ .send a u := by
    intro a u h
    simp only [receiver, hbranched, if_true] at h
    cases h
  obtain ⟨sides', hrest, hterm, hlen⟩ := Net.replay hsend rfl htake hhalt hrun
  refine ⟨⟨sides', _, hrest, hterm, ?_⟩, fun hend => ?_⟩
  · rw [hlen, List.length_append, blocksMoves_length]
    rfl
  · have hc : c = ⟨.returned, { s.receive eot with out := none }, [], []⟩ := by
      cases hrest with
      | nil => rfl
      | cons hstep _ => exact absurd hstep (hend _ _)
    subst hc
    refine ⟨rfl, hbranched, rfl, rfl, ?_⟩
    show readBytes (s.receive eot).mem armbase buf.length = buf
    rw [hmem]
    exact readBytes_sentData hfit mem

/-- A program of three bytes. -/
theorem xmodem_delivers_three :
    ∃ sides c, Run (Net.Step (sender [1, 4, 21] fun _ => []) receiver)
        (start [1, 4, 21] (fun _ => []) (fun _ => 0) fun _ => 0) sides c ∧
      sides.length = 270 ∧ readBytes c.right.mem armbase 3 = [1, 4, 21] := by
  have hfit : Fits [1, 4, 21] := by decide
  obtain ⟨⟨sides, c, hrun, hterm, hlen⟩, -⟩ := xmodem_delivers hfit
    (.nil (start [1, 4, 21] (fun _ => []) (fun _ => 0) fun _ => 0))
  obtain ⟨-, -, -, -, hmem⟩ := (xmodem_delivers hfit hrun).2 hterm
  exact ⟨sides, c, hrun, by simpa [blocks] using hlen, hmem⟩

end

end RpiVm.Xmodem
