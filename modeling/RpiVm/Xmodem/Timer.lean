import RpiVm.Xmodem.Delivery

/-!
# XMODEM with the timer of the Pi

The Pi sends a NAK whenever its timer goes off, and the sender drains what has arrived and
sends its block again. If no byte of a packet behind its number is an SOH or EOT, the
receiver stays in step with what is unread: it stores the packets that are new to it and
refuses the others byte by byte.
-/

namespace RpiVm.Xmodem

open CLib Channel Transition

/-! ## Steps -/

/-- What happens. -/
inductive Event where
  /-- One of the two sides sends or receives a byte. -/
  | net (side : Side)
  /-- The timer of the Pi goes off. -/
  | timeout
  /-- `drain` reads a byte. -/
  | drained (b : BitVec 8)
  /-- `drain` ends. -/
  | drainEnd
  /-- The `read` of `get_byte` comes back with nothing. -/
  | readFailed
  deriving DecidableEq, Repr

/-- One step of the sender, the receiver, the timer or `drain`. A `read` may come back with nothing
at any time, as bytes may be on their way: `drain` ends then, and `get_byte` panics. -/
inductive Step (buf : List (BitVec 8)) (junk : ℕ → List (BitVec 8)) :
    Net (BitVec 8) SenderState Receiver → Event → Net (BitVec 8) SenderState Receiver → Prop
  | net {c c' : Net (BitVec 8) SenderState Receiver} {side : Side}
      (h : Net.Step (sender buf junk) receiver c side c') : Step buf junk c (.net side) c'
  | timeout {u : SenderState} {s : Receiver} {x y : List (BitVec 8)} (hout : s.out = none)
      (hrunning : s.branched = false) : Step buf junk ⟨u, s, x, y⟩ .timeout ⟨u, s, x, y ++ [nak]⟩
  | drained {i : ℕ} {s : Receiver} {x y : List (BitVec 8)} {b : BitVec 8} :
      Step buf junk ⟨.draining i, s, x, b :: y⟩ (.drained b) ⟨.draining i, s, x, y⟩
  | drainEnd {i : ℕ} {s : Receiver} {x y : List (BitVec 8)} :
      Step buf junk ⟨.draining i, s, x, y⟩ .drainEnd ⟨nextBlock buf junk i, s, x, y⟩
  | readFailed {i : ℕ} {s : Receiver} {x y : List (BitVec 8)} :
      Step buf junk ⟨.reply i, s, x, y⟩ .readFailed ⟨.readFailed, s, x, y⟩
  | lastReadFailed {s : Receiver} {x y : List (BitVec 8)} :
      Step buf junk ⟨.lastReply, s, x, y⟩ .readFailed ⟨.lastReadFailed, s, x, y⟩

/-- Both sides before the first `drain`. What `hexstring` has sent before the loop of `notmain` is
still on its way. -/
def timedStart (greeting : List (BitVec 8)) (xstring : ℕ → BitVec 8) (mem : Mem) :
    Net (BitVec 8) SenderState Receiver :=
  ⟨.draining 0, .start xstring mem, [], greeting⟩

/-- The greeting has no byte that is a reply: it is digits and the ends of lines. -/
def Plain (greeting : List (BitVec 8)) : Prop := ∀ b ∈ greeting, b ≠ ack ∧ b ≠ nak

instance (greeting : List (BitVec 8)) : Decidable (Plain greeting) := by
  unfold Plain
  infer_instance

/-- Behind its number no byte of a packet is an SOH or EOT. -/
def Quiet (buf : List (BitVec 8)) (junk : ℕ → List (BitVec 8)) : Prop :=
  ∀ i < blocks buf, ∀ b ∈ (packet i (payload buf junk i)).drop 2, b ≠ soh ∧ b ≠ eot

/-! ## What is unread -/

/-- Packets to come, after so many different ones and up to so many: each is the next one, or
the last one again. -/
inductive Path (n : ℕ) : ℕ → List ℕ → ℕ → Prop
  | nil (k : ℕ) : Path n k [] k
  | again {k f : ℕ} {L : List ℕ} (hk : k < n) (h : Path n (k + 1) L f) : Path n (k + 1) (k :: L) f
  | next {k f : ℕ} {L : List ℕ} (hk : k < n) (h : Path n (k + 1) L f) : Path n k (k :: L) f

/-- The next packet at the end. -/
theorem Path.snoc_next {n k f : ℕ} {L : List ℕ} (h : Path n k L f) (hf : f < n) :
    Path n k (L ++ [f]) (f + 1) := by
  induction h with
  | nil => exact .next hf (.nil _)
  | again hk _ ih => exact .again hk (ih hf)
  | next hk _ ih => exact .next hk (ih hf)

/-- The last packet again at the end. -/
theorem Path.snoc_again {n k f : ℕ} {L : List ℕ} (h : Path n k L (f + 1)) (hf : f < n) :
    Path n k (L ++ [f]) (f + 1) := by
  generalize hf' : f + 1 = f' at h
  induction h with
  | nil =>
    subst hf'
    exact .again hf (.nil _)
  | again hk _ ih => exact .again hk (ih hf')
  | next hk _ ih => exact .next hk (ih hf')

/-- There are no fewer at the end. -/
theorem Path.le {n k f : ℕ} {L : List ℕ} (h : Path n k L f) : k ≤ f := by
  induction h with
  | nil => exact le_rfl
  | again _ _ ih => exact ih
  | next _ _ ih => exact (Nat.le_succ _).trans ih

/-- The bytes of packets. -/
def packets (buf : List (BitVec 8)) (junk : ℕ → List (BitVec 8)) (L : List ℕ) : List (BitVec 8) :=
  L.flatMap fun i => packet i (payload buf junk i)

/-- The EOT behind them, if it has been sent. -/
def ending (ended : Bool) : List (BitVec 8) := if ended then [eot] else []

/-- The receiver has stored some blocks, and bytes are unread: what is left of the packet
that it is in, packets up to so many blocks, and maybe an EOT. -/
inductive Follows (buf : List (BitVec 8)) (junk : ℕ → List (BitVec 8)) (mem : Mem) (f : ℕ)
    (ended : Bool) : List (BitVec 8) → ℕ → Receiver → Prop
  /-- Between packets. -/
  | between {k : ℕ} {L : List ℕ} {s : Receiver} (hL : Path (blocks buf) k L f)
      (hs : At mem (sentData buf junk k) [] s) :
      Follows buf junk mem f ended (packets buf junk L ++ ending ended) k s
  /-- Behind the SOH of a packet. -/
  | started {k i : ℕ} {L : List ℕ} {s : Receiver} (hL : Path (blocks buf) k (i :: L) f)
      (hs : At mem (sentData buf junk k) [soh] s) :
      Follows buf junk mem f ended
        (sendBlock buf junk i ++ (packets buf junk L ++ ending ended)) k s
  /-- In the packet of the next block. -/
  | fresh {k m : ℕ} {L : List ℕ} {s : Receiver} (hk : k < blocks buf)
      (hL : Path (blocks buf) (k + 1) L f) (hm : 2 ≤ m) (hm' : m < 132)
      (hs : At mem (sentData buf junk k) ((packet k (payload buf junk k)).take m) s) :
      Follows buf junk mem f ended
        ((packet k (payload buf junk k)).drop m ++ (packets buf junk L ++ ending ended)) k s
  /-- In the packet of a block that has been stored. -/
  | again {k m : ℕ} {L : List ℕ} {s : Receiver} (hk : k < blocks buf)
      (hL : Path (blocks buf) (k + 1) L f) (hm : 2 ≤ m) (hm' : m < 132)
      (hs : At mem (sentData buf junk (k + 1)) [] s) :
      Follows buf junk mem f ended
        ((packet k (payload buf junk k)).drop m ++ (packets buf junk L ++ ending ended)) (k + 1) s
  /-- Behind the EOT. -/
  | ended {s : Receiver} (hf : f = blocks buf) (hended : ended = true) (hbranched : s.branched = true)
      (hmem : s.mem = storeBytes mem armbase (sentData buf junk f).flatten) :
      Follows buf junk mem f ended [] f s

section

variable {buf : List (BitVec 8)} {junk : ℕ → List (BitVec 8)} {xstring : ℕ → BitVec 8} {mem : Mem}
  {f k : ℕ} {ended : Bool} {U : List (BitVec 8)} {s : Receiver}

@[simp] theorem packets_nil : packets buf junk [] = [] := rfl

@[simp] theorem packets_cons (i : ℕ) (L : List ℕ) :
    packets buf junk (i :: L) = packet i (payload buf junk i) ++ packets buf junk L := rfl

/-- One packet more. -/
theorem packets_concat (L : List ℕ) (i : ℕ) :
    packets buf junk (L ++ [i]) = packets buf junk L ++ packet i (payload buf junk i) := by
  simp [packets]

/-- What has been stored. -/
theorem Follows.mem_eq (h : Follows buf junk mem f ended U k s) :
    s.mem = storeBytes mem armbase (sentData buf junk k).flatten := by
  cases h with
  | between _ hs => exact hs.mem_eq
  | started _ hs => exact hs.mem_eq
  | fresh _ _ _ _ hs => exact hs.mem_eq
  | again _ _ _ _ hs => exact hs.mem_eq
  | ended _ _ _ hmem => exact hmem

/-- No more is stored than has been sent. -/
theorem Follows.le (h : Follows buf junk mem f ended U k s) : k ≤ f := by
  cases h with
  | between hL => exact hL.le
  | started hL => exact hL.le
  | fresh _ hL => exact (Nat.le_succ _).trans hL.le
  | again _ hL => exact hL.le
  | ended => exact le_rfl

/-- The receiver branches behind the EOT only. -/
theorem Follows.of_branched (h : Follows buf junk mem f ended U k s) (hb : s.branched = true) :
    ended = true ∧ U = [] ∧ k = f ∧ f = blocks buf := by
  cases h with
  | ended hf hended => exact ⟨hended, rfl, rfl, hf⟩
  | between _ hs | started _ hs | fresh _ _ _ _ hs | again _ _ _ _ hs =>
    cases hs.running.symm.trans hb

/-- Replies do not matter. -/
theorem Follows.setOut (h : Follows buf junk mem f ended U k s) (out : Option (BitVec 8)) :
    Follows buf junk mem f ended U k { s with out := out } := by
  cases h with
  | between hL hs => exact .between hL (hs.setOut out)
  | started hL hs => exact .started hL (hs.setOut out)
  | fresh hk hL hm hm' hs => exact .fresh hk hL hm hm' (hs.setOut out)
  | again hk hL hm hm' hs => exact .again hk hL hm hm' (hs.setOut out)
  | ended hf hended hbranched hmem => exact .ended hf hended hbranched hmem

/-- A packet is sent behind what is unread. -/
theorem Follows.snoc {f' i : ℕ} (h : Follows buf junk mem f false U k s)
    (hsnoc : ∀ {k L}, Path (blocks buf) k L f → Path (blocks buf) k (L ++ [i]) f') :
    Follows buf junk mem f' false (U ++ packet i (payload buf junk i)) k s := by
  have hending : ending false = [] := rfl
  cases h with
  | between hL hs =>
    have hnext : Follows buf junk mem f' false _ k s := .between (hsnoc hL) hs
    rw [packets_concat, hending, List.append_nil] at hnext
    rwa [hending, List.append_nil]
  | @started _ j L _ hL hs =>
    have hpath : Path (blocks buf) k (j :: (L ++ [i])) f' := hsnoc hL
    have hnext : Follows buf junk mem f' false _ k s := .started hpath hs
    rw [packets_concat, hending, List.append_nil, ← List.append_assoc] at hnext
    rwa [hending, List.append_nil]
  | fresh hk hL hm hm' hs =>
    have hnext : Follows buf junk mem f' false _ k s := .fresh hk (hsnoc hL) hm hm' hs
    rw [packets_concat, hending, List.append_nil, ← List.append_assoc] at hnext
    rwa [hending, List.append_nil]
  | again hk hL hm hm' hs =>
    have hnext : Follows buf junk mem f' false _ _ s := .again hk (hsnoc hL) hm hm' hs
    rw [packets_concat, hending, List.append_nil, ← List.append_assoc] at hnext
    rwa [hending, List.append_nil]
  | ended _ hended => cases hended

/-- The EOT is sent behind what is unread. -/
theorem Follows.sendEot (h : Follows buf junk mem f false U k s) :
    Follows buf junk mem f true (U ++ [eot]) k s := by
  have hending : ending false = [] := rfl
  cases h with
  | between hL hs =>
    have hnext : Follows buf junk mem f true _ k s := .between hL hs
    rwa [hending, List.append_nil]
  | started hL hs =>
    have hnext : Follows buf junk mem f true _ k s := .started hL hs
    rwa [hending, List.append_nil, List.append_assoc]
  | fresh hk hL hm hm' hs =>
    have hnext : Follows buf junk mem f true _ k s := .fresh hk hL hm hm' hs
    rwa [hending, List.append_nil, List.append_assoc]
  | again hk hL hm hm' hs =>
    have hnext : Follows buf junk mem f true _ _ s := .again hk hL hm hm' hs
    rwa [hending, List.append_nil, List.append_assoc]
  | ended _ hended => cases hended

/-! ## One byte -/

/-- A byte of the packet that comes next, behind its SOH and before its checksum. -/
theorem At.receive_packet {ps : List (List (BitVec 8))} {data : List (BitVec 8)} {m : ℕ}
    (hs : At mem ps ((packet k data).take m) s) (hps : ps.length = k) (hlen : data.length = 128)
    (hm : 1 ≤ m) (hm' : m < 131) {b : BitVec 8} (hb : (packet k data)[m]? = some b) :
    At mem ps ((packet k data).take (m + 1)) (s.receive b) ∧ (s.receive b).out = s.out := by
  subst hps
  have hhead : (head ps.length).length = 3 := rfl
  have htake : (packet ps.length data).take (m + 1) = (packet ps.length data).take m ++ [b] := by
    rw [List.take_add_one, hb]
    rfl
  rw [htake]
  obtain rfl | rfl | hdata : m = 1 ∨ m = 2 ∨ 3 ≤ m := by omega
  · obtain rfl : number ps.length = b := Option.some.inj hb
    have hnext := hs.receive_number (number ps.length)
    rwa [if_pos rfl] at hnext
  · obtain rfl : 0xff - number ps.length = b := Option.some.inj hb
    have hnext := hs.receive_complement (0xff - number ps.length)
    rwa [if_pos rfl] at hnext
  · have hpart : (packet ps.length data).take m = head ps.length ++ data.take (m - 3) := by
      rw [packet, List.append_assoc, List.take_append, List.take_of_length_le (by omega), hhead,
        List.take_append_of_le_length (by omega)]
    rw [hpart] at hs ⊢
    rw [List.append_assoc]
    exact hs.receive_data (by rw [List.length_take]; omega) b

/-- The checksum of the packet that comes next. -/
theorem At.receive_last {ps : List (List (BitVec 8))} {data : List (BitVec 8)}
    (hs : At mem ps ((packet k data).take 131) s) (hps : ps.length = k) (hlen : data.length = 128)
    {b : BitVec 8} (hb : (packet k data)[131]? = some b) :
    At mem (ps ++ [data]) [] (s.receive b) ∧ (s.receive b).out = some ack := by
  subst hps
  have hpart : (head ps.length ++ data).length = 131 := by
    rw [List.length_append, hlen]
    rfl
  obtain rfl : cksum data = b := by
    rw [packet, List.getElem?_append_right (by omega), hpart] at hb
    exact Option.some.inj hb
  rw [packet, List.take_append_of_le_length (by omega), List.take_of_length_le (by omega)] at hs
  have hnext := hs.receive_cksum hlen (cksum data)
  rwa [if_pos rfl] at hnext

/-- What a byte makes the receiver do. -/
inductive Took (s : Receiver) (U : List (BitVec 8)) (k : ℕ) : ℕ → Receiver → Prop
  /-- It goes on, or refuses a byte. -/
  | went {s' : Receiver} (hout : s'.out = s.out ∨ s'.out = some nak)
      (hrunning : s'.branched = false) : Took s U k k s'
  /-- It stores a block. -/
  | stored {s' : Receiver} (hout : s'.out = some ack) (hrunning : s'.branched = false) :
      Took s U k (k + 1) s'
  /-- It branches, and nothing is left to read. -/
  | branched {s' : Receiver} (hU : U = []) (hout : s'.out = some ack)
      (hbranched : s'.branched = true) : Took s U k k s'

/-- The next byte of what is left of a packet. -/
theorem drop_cons {p T U : List (BitVec 8)} {b : BitVec 8} {m : ℕ} (hm : m < p.length)
    (h : p.drop m ++ T = b :: U) : p[m]? = some b ∧ U = p.drop (m + 1) ++ T := by
  rw [List.drop_eq_getElem_cons hm, List.cons_append] at h
  injection h with hb hU
  exact ⟨by rw [List.getElem?_eq_getElem hm, hb], hU.symm⟩

/-- The numbers of two blocks in turn differ. -/
theorem number_ne_succ (k : ℕ) : number k ≠ number (k + 1) := by
  have hall : ∀ n : BitVec 8, n ≠ n + 1 := by decide +kernel
  have hsucc : number (k + 1) = number k + 1 := BitVec.ofNat_add (k + 1) 1
  rw [hsucc]
  exact hall _

/-- The receiver reads the next byte of what is unread. -/
theorem Follows.receive {b : BitVec 8} (hquiet : Quiet buf junk)
    (hended : ended = true → f = blocks buf) (h : Follows buf junk mem f ended (b :: U) k s) :
    ∃ k', Follows buf junk mem f ended U k' (s.receive b) ∧ Took s U k k' (s.receive b) := by
  have hpacket : ∀ i, (packet i (payload buf junk i)).length = 132 := fun i =>
    packet_length (payload_length buf junk i)
  generalize hV : b :: U = V at h
  cases h with
  | between hL hs =>
    cases hL with
    | nil =>
      rw [packets_nil, List.nil_append] at hV
      cases ended with
      | false => cases hV
      | true =>
        obtain ⟨rfl, rfl⟩ : b = eot ∧ U = [] := by simpa [ending] using hV
        obtain ⟨hbranched, hout, hmem⟩ := hs.receive_eot
        exact ⟨_, .ended (hended rfl) rfl hbranched hmem, .branched rfl hout hbranched⟩
    | @again k _ L hk hL =>
      rw [packets_cons, ← soh_sendBlock, List.append_assoc, List.cons_append] at hV
      obtain ⟨rfl, rfl⟩ : b = soh ∧ U = _ := by simpa using hV
      obtain ⟨hs', hout⟩ := hs.receive_soh
      exact ⟨k + 1, .started (.again hk hL) hs', .went (.inl hout) hs'.running⟩
    | @next k _ L hk hL =>
      rw [packets_cons, ← soh_sendBlock, List.append_assoc, List.cons_append] at hV
      obtain ⟨rfl, rfl⟩ : b = soh ∧ U = _ := by simpa using hV
      obtain ⟨hs', hout⟩ := hs.receive_soh
      exact ⟨k, .started (.next hk hL) hs', .went (.inl hout) hs'.running⟩
  | @started k i _ _ hL hs =>
    have hnumber := hs.receive_number b
    rw [sentData_length] at hnumber
    cases hL with
    | again hk hL =>
      obtain ⟨rfl, rfl⟩ : b = number i ∧ U = (packet i (payload buf junk i)).drop 2 ++ _ := by
        simpa [sendBlock, packet, head] using hV
      rw [if_neg (number_ne_succ i)] at hnumber
      obtain ⟨hs', hout⟩ := hnumber
      exact ⟨i + 1, .again hk hL le_rfl (by decide) hs', .went (.inr hout) hs'.running⟩
    | next hk hL =>
      obtain ⟨rfl, rfl⟩ : b = number k ∧ U = (packet k (payload buf junk k)).drop 2 ++ _ := by
        simpa [sendBlock, packet, head] using hV
      rw [if_pos rfl] at hnumber
      obtain ⟨hs', hout⟩ := hnumber
      exact ⟨k, .fresh hk hL le_rfl (by decide) hs', .went (.inl hout) hs'.running⟩
  | @fresh _ m L _ hk hL hm hm' hs =>
    obtain ⟨hb, rfl⟩ := drop_cons (by rw [hpacket]; exact hm') hV.symm
    have hlen : (sentData buf junk k).length = k := sentData_length k
    obtain hlast | rfl : m < 131 ∨ m = 131 := by omega
    · obtain ⟨hs', hout⟩ := hs.receive_packet hlen (payload_length buf junk k) (by omega) hlast hb
      exact ⟨k, .fresh hk hL (by omega) (by omega) hs', .went (.inl hout) hs'.running⟩
    · obtain ⟨hs', hout⟩ := hs.receive_last hlen (payload_length buf junk k) hb
      rw [← sentData_succ] at hs'
      refine ⟨k + 1, ?_, .stored hout hs'.running⟩
      rw [List.drop_of_length_le (by rw [hpacket])]
      exact .between hL hs'
  | @again k m L _ hk hL hm hm' hs =>
    obtain ⟨hb, rfl⟩ := drop_cons (by rw [hpacket]; exact hm') hV.symm
    have hmem : b ∈ (packet k (payload buf junk k)).drop 2 := by
      refine List.mem_iff_getElem?.mpr ⟨m - 2, ?_⟩
      rw [List.getElem?_drop, Nat.add_sub_cancel' hm, hb]
    obtain ⟨hsoh, heot⟩ := hquiet k hk b hmem
    obtain ⟨hs', hout⟩ := hs.receive_noise hsoh heot
    refine ⟨k + 1, ?_, .went (.inr hout) hs'.running⟩
    obtain hlast | rfl : m < 131 ∨ m = 131 := by omega
    · exact .again hk hL (by omega) (by omega) hs'
    · rw [List.drop_of_length_le (by rw [hpacket])]
      exact .between hL hs'
  | ended => cases hV

end

end RpiVm.Xmodem
