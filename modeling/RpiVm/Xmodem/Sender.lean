import RpiVm.Xmodem.Heard

/-!
# The sender of the XMODEM bootloader

The UNIX side sends a program in blocks of 128 bytes and waits for an ACK after each; at a
NAK it drains what has arrived and sends the block again. While the timer of the Pi does not
go off, in every order of single bytes the program arrives, however many blocks it has.
-/

namespace RpiVm.Xmodem

open CLib Channel Transition

/-! ## The code -/

/-- `PAYLOAD_SZ`. -/
def payloadSz : ℕ := 128

/-- The array `payload` of `send_block`: `memcpy` fills as much of it as there is left of the
program, and the rest of it is not initialised. -/
def payload (buf : List (BitVec 8)) (junk : ℕ → List (BitVec 8)) (i : ℕ) : List (BitVec 8) :=
  let b := (buf.drop (payloadSz * i)).take payloadSz
  b ++ (List.range (payloadSz - b.length)).map fun k => (junk i).getD k 0

/-- Where the sender is; blocks are counted from zero. -/
inductive SenderState where
  /-- In `send_block`, with the bytes of the packet that are left. -/
  | sending (i : ℕ) (b : BitVec 8) (bs : List (BitVec 8))
  /-- In `send_block`, at `get_byte`. -/
  | reply (i : ℕ)
  /-- In `drain`, before a block. -/
  | draining (i : ℕ)
  /-- At `send_byte(fd, EOT)`. -/
  | eot
  /-- At the last `get_byte`. -/
  | lastReply
  /-- `xmodem` has returned. -/
  | returned
  /-- `panic` in `send_block`, with the byte received. -/
  | invalidReply (rx : BitVec 8)
  /-- `panic` in the `get_byte` of `send_block`. -/
  | readFailed
  /-- `panic` at the end of `xmodem`, with the byte received. -/
  | expectedAck (rx : BitVec 8)
  /-- `panic` in the last `get_byte`. -/
  | lastReadFailed
  deriving DecidableEq, Repr

/-- The bytes that `send_block` sends for a block, with the checksum of the data alone. -/
def sendBlock (buf : List (BitVec 8)) (junk : ℕ → List (BitVec 8)) (i : ℕ) : List (BitVec 8) :=
  number i :: (0xff - number i) :: (payload buf junk i ++ [cksum (payload buf junk i)])

/-- The head of the loop of `xmodem`. -/
def nextBlock (buf : List (BitVec 8)) (junk : ℕ → List (BitVec 8)) (i : ℕ) : SenderState :=
  if payloadSz * i < buf.length then .sending i soh (sendBlock buf junk i) else .eot

/-- `xmodem`. What `drain` does and whether a `read` fails depends on the channel, and is no step
of the machine. -/
def sender (buf : List (BitVec 8)) (junk : ℕ → List (BitVec 8)) : Machine (BitVec 8) SenderState
  | .sending i b [] => .send b (.reply i)
  | .sending i b (b' :: bs) => .send b (.sending i b' bs)
  | .reply i => .recv fun rx =>
    if rx = ack then nextBlock buf junk (i + 1)
    else if rx ≠ nak then .invalidReply rx
    else .draining i
  | .draining _ => .halt
  | .eot => .send eot .lastReply
  | .lastReply => .recv fun rx => if rx ≠ ack then .expectedAck rx else .returned
  | .returned => .halt
  | .invalidReply _ => .halt
  | .readFailed => .halt
  | .expectedAck _ => .halt
  | .lastReadFailed => .halt

/-! ## Blocks -/

/-- The number of blocks. -/
def blocks (buf : List (BitVec 8)) : ℕ := (buf.length + 127) / 128

section

variable {buf : List (BitVec 8)} {junk : ℕ → List (BitVec 8)} {i : ℕ}

@[simp] theorem payload_length (buf : List (BitVec 8)) (junk : ℕ → List (BitVec 8)) (i : ℕ) :
    (payload buf junk i).length = 128 := by
  have hsize : payloadSz = 128 := rfl
  simp only [payload, hsize, List.length_append, List.length_map, List.length_range,
    List.length_take]
  omega

/-- There is a block. -/
theorem lt_blocks : payloadSz * i < buf.length ↔ i < blocks buf := by
  have hsize : payloadSz = 128 := rfl
  rw [hsize, blocks]
  omega

/-- The bytes of a block make up its packet. -/
theorem soh_sendBlock (buf : List (BitVec 8)) (junk : ℕ → List (BitVec 8)) (i : ℕ) :
    soh :: sendBlock buf junk i = packet i (payload buf junk i) := by
  simp [sendBlock, packet, head]

/-- The next block. -/
theorem nextBlock_of_lt (h : i < blocks buf) :
    nextBlock buf junk i = .sending i soh (sendBlock buf junk i) := if_pos (lt_blocks.mpr h)

/-- Behind the last block. -/
theorem nextBlock_of_le (h : blocks buf ≤ i) : nextBlock buf junk i = .eot :=
  if_neg fun hlt => absurd (lt_blocks.mp hlt) (not_lt.mpr h)

/-- The data of the first blocks. -/
def sentData (buf : List (BitVec 8)) (junk : ℕ → List (BitVec 8)) (k : ℕ) : List (List (BitVec 8)) :=
  (List.range k).map (payload buf junk)

@[simp] theorem sentData_length (k : ℕ) : (sentData buf junk k).length = k := by
  simp [sentData]

/-- The data of one block more. -/
theorem sentData_succ (k : ℕ) :
    sentData buf junk (k + 1) = sentData buf junk k ++ [payload buf junk k] := by
  simp [sentData, List.range_succ]

/-- The length of the data of some blocks. -/
theorem sentData_flatten_length (k : ℕ) : (sentData buf junk k).flatten.length = 128 * k := by
  induction k with
  | zero => rfl
  | succ k ih =>
    rw [sentData_succ, List.flatten_append, List.length_append, ih]
    simp
    omega

/-- The data of the first blocks begins as the program does. -/
theorem take_sentData (k : ℕ) : (sentData buf junk k).flatten.take buf.length =
    buf.take (128 * k) := by
  have hsize : payloadSz = 128 := rfl
  induction k with
  | zero => simp [sentData]
  | succ k ih =>
    have hlen : (sentData buf junk k).flatten.length = 128 * k := sentData_flatten_length k
    rw [sentData_succ, List.flatten_append, List.flatten_singleton, List.take_append, ih, hlen]
    have hnext : buf.take (128 * (k + 1)) = buf.take (128 * k) ++ (buf.drop (128 * k)).take 128 := by
      rw [Nat.mul_add, Nat.mul_one, List.take_add]
    rw [hnext]
    congr 1
    rw [payload, hsize]
    by_cases hfull : buf.length - 128 * k < 128
    · have hdrop : ((buf.drop (128 * k)).take 128).length = buf.length - 128 * k := by
        rw [List.length_take, List.length_drop]
        omega
      rw [List.take_append_of_le_length (by omega), List.take_of_length_le (by omega)]
    · have hdrop : ((buf.drop (128 * k)).take 128).length = 128 := by
        simp
        omega
      rw [List.take_append, hdrop, Nat.sub_self, List.range_zero, List.map_nil, List.take_nil,
        List.append_nil, List.take_take]
      congr 1
      omega

/-- All blocks hold the program. -/
theorem take_sentData_blocks :
    (sentData buf junk (blocks buf)).flatten.take buf.length = buf := by
  rw [take_sentData, List.take_of_length_le]
  unfold blocks
  omega

end

/-! ## The memory -/

/-- The memory elsewhere. -/
theorem storeBytes_of_lt (m : Mem) {a : BitVec 32} {bs : List (BitVec 8)}
    (hfit : a.toNat + bs.length ≤ 2 ^ 32) {x : BitVec 32} (hx : x.toNat < a.toNat) :
    storeBytes m a bs x = m x := by
  induction bs generalizing m a with
  | nil => rfl
  | cons b bs ih =>
    rw [List.length_cons] at hfit
    rw [storeBytes]
    cases bs with
    | nil =>
      have hne : x ≠ a := by
        rintro rfl
        exact absurd hx (lt_irrefl _)
      simp [storeBytes, Mem.store8, hne]
    | cons b' bs =>
      rw [List.length_cons] at hfit
      have hnext : (a + 1).toNat = a.toNat + 1 := by
        have hone : (1 : BitVec 32).toNat = 1 := rfl
        rw [BitVec.toNat_add, hone]
        omega
      have hne : x ≠ a := by
        rintro rfl
        exact absurd hx (lt_irrefl _)
      rw [ih _ (by rw [hnext, List.length_cons]; omega) (by omega)]
      simp [Mem.store8, hne]

/-- The memory behind. -/
theorem storeBytes_of_ge (m : Mem) {a : BitVec 32} {bs : List (BitVec 8)} {x : BitVec 32}
    (hx : a.toNat + bs.length ≤ x.toNat) : storeBytes m a bs x = m x := by
  induction bs generalizing m a with
  | nil => rfl
  | cons b bs ih =>
    rw [List.length_cons] at hx
    have hnext : (a + 1).toNat = a.toNat + 1 := by
      have hone : (1 : BitVec 32).toNat = 1 := rfl
      rw [BitVec.toNat_add, hone]
      omega
    have hne : x ≠ a := by
      rintro rfl
      omega
    rw [storeBytes, ih _ (by omega)]
    simp [Mem.store8, hne]

/-- What has been stored is read back. -/
theorem readBytes_storeBytes (m : Mem) {a : BitVec 32} {bs : List (BitVec 8)}
    (hfit : a.toNat + bs.length ≤ 2 ^ 32) : readBytes (storeBytes m a bs) a bs.length = bs := by
  induction bs generalizing m a with
  | nil => rfl
  | cons b bs ih =>
    rw [List.length_cons] at hfit
    have hsplit := readBytes_add (storeBytes m a (b :: bs)) a 1 bs.length
    rw [List.length_cons, Nat.add_comm, hsplit]
    have hfirst : readBytes (storeBytes m a (b :: bs)) a 1 = [b] := by
      have hzero : a + BitVec.ofNat 32 0 = a := by simp
      simp only [readBytes, List.range_one, List.map_cons, List.map_nil, hzero, storeBytes]
      cases bs with
      | nil => simp [storeBytes, Mem.store8]
      | cons b' bs =>
        rw [List.length_cons] at hfit
        have hnext : (a + 1).toNat = a.toNat + 1 := by
          have hone : (1 : BitVec 32).toNat = 1 := rfl
          rw [BitVec.toNat_add, hone]
          omega
        rw [storeBytes_of_lt _ (by rw [hnext, List.length_cons]; omega) (by omega)]
        simp [Mem.store8]
    rw [hfirst, storeBytes]
    cases bs with
    | nil => rfl
    | cons b' bs =>
      rw [List.length_cons] at hfit
      have hnext : (a + BitVec.ofNat 32 1).toNat = a.toNat + 1 := by
        have hone : (BitVec.ofNat 32 1).toNat = 1 := rfl
        rw [BitVec.toNat_add, hone]
        omega
      have hrest := ih (m.store8 a b) (a := a + BitVec.ofNat 32 1)
        (by rw [hnext, List.length_cons]; omega)
      rw [List.singleton_append]
      exact congrArg _ hrest

end RpiVm.Xmodem
