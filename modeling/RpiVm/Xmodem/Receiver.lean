import RpiVm.Boot.Image
import RpiVm.Lib.BitField
import RpiVm.Lib.Recording

/-!
# The receiver of the XMODEM bootloader

The Pi reads packets of 132 bytes: a start byte, the number of the block and its complement,
128 bytes of data, and a checksum. It stores the data of a packet that is right and answers
with ACK; whatever else it reads it answers with NAK.
-/

namespace RpiVm.Xmodem

open CLib Channel

/-! ## The code -/

/-- `SOH`, start of header. -/
def soh : BitVec 8 := 0x01

/-- `ACK`. -/
def ack : BitVec 8 := 0x06

/-- `NAK`. -/
def nak : BitVec 8 := 0x15

/-- `EOT`, end of transmission. -/
def eot : BitVec 8 := 0x04

/-- `PACKET_SIZE`. -/
def packetSize : ℕ := 132

/-- The variables of `notmain`, and the memory. -/
structure Receiver where
  /-- `block`. -/
  block : BitVec 32
  /-- `addr`. -/
  addr : BitVec 32
  /-- `state`. -/
  state : ℕ
  /-- `crc`. -/
  crc : BitVec 32
  /-- `xstring`. -/
  xstring : ℕ → BitVec 8
  /-- The memory. -/
  mem : Mem
  /-- What `uart_send` is about to send. -/
  out : Option (BitVec 8)
  /-- `BRANCHTO(ARMBASE)` has been reached. -/
  branched : Bool

/-- `notmain` before its loop. -/
def Receiver.start (xstring : ℕ → BitVec 8) (mem : Mem) : Receiver :=
  ⟨1, armbase, 0, 0, xstring, mem, none, false⟩

/-- `PUT8(addr++, xstring[ra + 3])` for each `ra`. -/
def copyPayload (xstring : ℕ → BitVec 8) (mem : Mem) (addr : BitVec 32) : Mem × BitVec 32 :=
  (List.range 128).foldl (fun s ra => (s.1.store8 s.2 (xstring (ra + 3)), s.2 + 1)) (mem, addr)

/-- One turn of the loop that receives a byte. -/
def Receiver.receive (s : Receiver) (b : BitVec 8) : Receiver :=
  let xstring := Function.update s.xstring s.state b
  if s.state = 0 ∧ b = eot then
    { s with xstring := xstring, out := some ack, branched := true }
  else if s.state = 0 then
    if b = soh then { s with xstring := xstring, crc := b.setWidth 32, state := s.state + 1 }
    else { s with xstring := xstring, out := some nak }
  else if s.state = 1 then
    if b.setWidth 32 = s.block then
      { s with xstring := xstring, crc := s.crc + b.setWidth 32, state := s.state + 1 }
    else { s with xstring := xstring, state := 0, out := some nak }
  else if s.state = 2 then
    if b.setWidth 32 = 0xff - (xstring (s.state - 1)).setWidth 32 then
      { s with xstring := xstring, crc := s.crc + b.setWidth 32, state := s.state + 1 }
    else { s with xstring := xstring, out := some nak, state := 0 }
  else if s.state = packetSize - 1 then
    let crc := s.crc &&& 0xff
    if b.setWidth 32 = crc then
      let (mem, addr) := copyPayload xstring s.mem s.addr
      { s with
        xstring := xstring, crc := crc, mem := mem, addr := addr, out := some ack
        block := (s.block + 1) &&& 0xff, state := 0 }
    else { s with xstring := xstring, crc := crc, out := some nak, state := 0 }
  else { s with xstring := xstring, crc := s.crc + b.setWidth 32, state := s.state + 1 }

/-- The loop of `notmain`, while its timer does not go off. -/
def receiver : Machine (BitVec 8) Receiver := fun s =>
  match s.out with
  | some b => .send b { s with out := none }
  | none => if s.branched then .halt else .recv s.receive

/-! ## Packets -/

/-- The number of a block, counted from zero, as a packet has it. -/
def number (k : ℕ) : BitVec 8 := BitVec.ofNat 8 (k + 1)

/-- The sum of bytes. -/
def cksum (data : List (BitVec 8)) : BitVec 8 := data.foldl (· + ·) 0

/-- The head of the packet of a block. -/
def head (k : ℕ) : List (BitVec 8) := [soh, number k, 0xff - number k]

/-- The packet of a block. -/
def packet (k : ℕ) (data : List (BitVec 8)) : List (BitVec 8) := head k ++ data ++ [cksum data]

/-- Bytes stored one after the other. -/
def storeBytes (m : Mem) : BitVec 32 → List (BitVec 8) → Mem
  | _, [] => m
  | a, b :: bs => storeBytes (m.store8 a b) (a + 1) bs

/-- The sum starts anywhere. -/
theorem foldl_add (c : BitVec 8) (data : List (BitVec 8)) :
    data.foldl (· + ·) c = c + cksum data := by
  induction data generalizing c with
  | nil => simp [cksum]
  | cons b data ih =>
    have hrest : cksum (b :: data) = (0 + b) + cksum data := by
      rw [cksum, List.foldl_cons]
      exact ih (0 + b)
    rw [List.foldl_cons, ih, hrest]
    simp [BitVec.add_assoc]

@[simp] theorem cksum_append (as bs : List (BitVec 8)) : cksum (as ++ bs) = cksum as + cksum bs := by
  rw [cksum, List.foldl_append, foldl_add]
  rfl

@[simp] theorem cksum_singleton (b : BitVec 8) : cksum [b] = b := by
  simp [cksum]

/-- The bytes of a head add up to nothing. -/
theorem cksum_head (k : ℕ) : cksum (head k) = 0 := by
  have hall : ∀ n : BitVec 8, soh + n + (0xff - n) = 0 := by decide +kernel
  simpa [cksum, head] using hall (number k)

@[simp] theorem packet_length {k : ℕ} {data : List (BitVec 8)} (h : data.length = 128) :
    (packet k data).length = 132 := by
  simp [packet, head, h]

/-- The loop of `PUT8`. -/
theorem copyPayload_eq {xstring : ℕ → BitVec 8} {data : List (BitVec 8)} (hlen : data.length = 128)
    (hx : ∀ i < 128, xstring (i + 3) = data.getD i 0) (m : Mem) (a : BitVec 32) :
    copyPayload xstring m a = (storeBytes m a data, a + 128) := by
  have hall : ∀ (n j : ℕ) (m : Mem) (a : BitVec 32), j + n = 128 →
      (List.range' j n).foldl
        (fun (s : Mem × BitVec 32) ra => (s.1.store8 s.2 (xstring (ra + 3)), s.2 + 1)) (m, a) =
        (storeBytes m a (data.drop j), a + BitVec.ofNat 32 n) := by
    intro n
    induction n with
    | zero =>
      intro j m a hj
      rw [List.drop_of_length_le (by omega)]
      simp [storeBytes]
    | succ n ih =>
      intro j m a hj
      have hget : data.drop j = data[j] :: data.drop (j + 1) := (List.cons_getElem_drop_succ).symm
      have hbyte : xstring (j + 3) = data[j] := by
        rw [hx j (by omega), List.getD_eq_getElem _ _ (by omega)]
      rw [List.range'_succ, List.foldl_cons, ih (j + 1) _ _ (by omega), hget, storeBytes, hbyte]
      simp only [Prod.mk.injEq, true_and, BitVec.add_assoc]
      congr 1
      rw [BitVec.add_comm, BitVec.ofNat_add]
      rfl
  rw [copyPayload, List.range_eq_range', hall 128 0 m a rfl, List.drop_zero]
  rfl

/-- More bytes are stored behind. -/
theorem storeBytes_append (m : Mem) (a : BitVec 32) (as bs : List (BitVec 8)) :
    storeBytes m a (as ++ bs) =
      storeBytes (storeBytes m a as) (a + BitVec.ofNat 32 as.length) bs := by
  induction as generalizing m a with
  | nil => simp [storeBytes]
  | cons b as ih =>
    have haddr : a + 1 + BitVec.ofNat 32 as.length = a + BitVec.ofNat 32 (b :: as).length := by
      rw [List.length_cons, Nat.add_comm, BitVec.ofNat_add, BitVec.add_assoc]
      rfl
    rw [List.cons_append, storeBytes, ih, storeBytes, haddr]

/-! ## Where the receiver is -/

/-- The receiver has stored the data of some packets and read a part of the next. -/
structure At (mem : Mem) (ps : List (List (BitVec 8))) (part : List (BitVec 8)) (s : Receiver) :
    Prop where
  /-- The number of the next block. -/
  block : s.block = (number ps.length).setWidth 32
  /-- Where its data goes. -/
  addr : s.addr = armbase + BitVec.ofNat 32 ps.flatten.length
  /-- What has been stored. -/
  mem_eq : s.mem = storeBytes mem armbase ps.flatten
  /-- Data comes in packets. -/
  full : ∀ p ∈ ps, p.length = 128
  /-- The length of the part. -/
  state : s.state = part.length
  /-- The part. -/
  bytes : ∀ i < part.length, s.xstring i = part.getD i 0
  /-- The sum of the part. -/
  crc : part ≠ [] → s.crc.setWidth 8 = cksum part
  /-- The receiver goes on. -/
  running : s.branched = false

section

variable {mem : Mem} {ps : List (List (BitVec 8))} {part : List (BitVec 8)} {s : Receiver}

/-- Before the first byte. -/
theorem at_start (xstring : ℕ → BitVec 8) (mem : Mem) : At mem [] [] (.start xstring mem) :=
  ⟨rfl, rfl, rfl, by simp, rfl, by simp, fun h => absurd rfl h, rfl⟩

/-- What is to be sent does not matter. -/
theorem At.setOut (h : At mem ps part s) (out : Option (BitVec 8)) :
    At mem ps part { s with out := out } :=
  ⟨h.block, h.addr, h.mem_eq, h.full, h.state, h.bytes, h.crc, h.running⟩

/-- The bytes of a part that has grown. -/
theorem At.bytes_concat (h : At mem ps part s) (b : BitVec 8) :
    ∀ i < (part ++ [b]).length, Function.update s.xstring s.state b i = (part ++ [b]).getD i 0 := by
  intro i hi
  rw [List.length_append, List.length_singleton] at hi
  rw [h.state]
  by_cases heq : i = part.length
  · subst heq
    simp
  · rw [Function.update_of_ne heq, h.bytes i (by omega),
      List.getD_append _ _ _ _ (by omega : i < part.length)]

/-- The sum of a part that has grown. -/
theorem At.crc_concat (h : At mem ps part s) (hpart : part ≠ []) (b : BitVec 8) :
    (s.crc + b.setWidth 32).setWidth 8 = cksum (part ++ [b]) := by
  have hadd : (s.crc + b.setWidth 32).setWidth 8 = s.crc.setWidth 8 + b := by
    rw [BitVec.setWidth_add _ _ (by decide)]
    simp
  rw [hadd, h.crc hpart, cksum_append, cksum_singleton]

/-- Between packets an EOT ends the transfer. -/
theorem At.receive_eot (h : At mem ps [] s) :
    (s.receive eot).branched = true ∧ (s.receive eot).out = some ack ∧
      (s.receive eot).mem = storeBytes mem armbase ps.flatten := by
  have hstate : s.state = 0 := h.state
  simp [Receiver.receive, hstate, h.mem_eq]

/-- Between packets an SOH starts one. -/
theorem At.receive_soh (h : At mem ps [] s) :
    At mem ps [soh] (s.receive soh) ∧ (s.receive soh).out = s.out := by
  have hstate : s.state = 0 := h.state
  have heot : soh ≠ eot := by decide
  have hreceive : s.receive soh = { s with
      xstring := Function.update s.xstring 0 soh, crc := soh.setWidth 32, state := 1 } := by
    simp [Receiver.receive, hstate, heot]
  rw [hreceive]
  refine ⟨⟨h.block, h.addr, h.mem_eq, h.full, rfl, fun i hi => ?_, fun _ => rfl, h.running⟩, rfl⟩
  obtain rfl : i = 0 := by simpa using hi
  simp

/-- Between packets any other byte is refused. -/
theorem At.receive_noise (h : At mem ps [] s) {b : BitVec 8} (hsoh : b ≠ soh) (heot : b ≠ eot) :
    At mem ps [] (s.receive b) ∧ (s.receive b).out = some nak := by
  have hstate : s.state = 0 := h.state
  have hreceive : s.receive b = { s with
      xstring := Function.update s.xstring 0 b, out := some nak } := by
    simp [Receiver.receive, hstate, heot, hsoh]
  rw [hreceive]
  exact ⟨⟨h.block, h.addr, h.mem_eq, h.full, hstate, by simp, fun hne => absurd rfl hne,
    h.running⟩, rfl⟩

/-- Bytes that are the same as words are the same. -/
theorem setWidth_inj {b c : BitVec 8} : b.setWidth 32 = c.setWidth 32 ↔ b = c := by
  constructor
  · intro heq
    have hval := congrArg (BitVec.setWidth 8) heq
    rwa [BitVec.setWidth_setWidth_of_le _ (by decide), BitVec.setWidth_setWidth_of_le _ (by decide),
      BitVec.setWidth_eq, BitVec.setWidth_eq] at hval
  · rintro rfl
    rfl

/-- The number of the block. -/
theorem At.receive_number (h : At mem ps [soh] s) (b : BitVec 8) :
    if b = number ps.length then
      At mem ps [soh, number ps.length] (s.receive b) ∧ (s.receive b).out = s.out
    else At mem ps [] (s.receive b) ∧ (s.receive b).out = some nak := by
  have hstate : s.state = 1 := h.state
  have hinj : b.setWidth 32 = s.block ↔ b = number ps.length := by
    rw [h.block, setWidth_inj]
  split
  · rename_i hb
    have hreceive : s.receive b = { s with
        xstring := Function.update s.xstring s.state b, crc := s.crc + b.setWidth 32, state := 2 } := by
      simp [Receiver.receive, hstate, hinj.mpr hb]
    rw [hreceive, ← hb]
    exact ⟨⟨h.block, h.addr, h.mem_eq, h.full, rfl, h.bytes_concat b,
      fun _ => h.crc_concat (by simp) b, h.running⟩, rfl⟩
  · rename_i hb
    have hreceive : s.receive b = { s with
        xstring := Function.update s.xstring s.state b, state := 0, out := some nak } := by
      simp [Receiver.receive, hstate, mt hinj.mp hb]
    rw [hreceive]
    exact ⟨⟨h.block, h.addr, h.mem_eq, h.full, rfl, by simp, fun hne => absurd rfl hne,
      h.running⟩, rfl⟩

/-- Its complement. -/
theorem At.receive_complement (h : At mem ps [soh, number ps.length] s) (b : BitVec 8) :
    if b = 0xff - number ps.length then
      At mem ps (head ps.length) (s.receive b) ∧ (s.receive b).out = s.out
    else At mem ps [] (s.receive b) ∧ (s.receive b).out = some nak := by
  have hstate : s.state = 2 := h.state
  have hnumber : s.xstring 1 = number ps.length := h.bytes 1 (by simp)
  have hsub : ∀ n : BitVec 8, 0xff#32 - n.setWidth 32 = (0xff - n).setWidth 32 := by decide +kernel
  have hinj : b.setWidth 32 = 0xff#32 - (number ps.length).setWidth 32 ↔
      b = 0xff - number ps.length := by
    rw [hsub, setWidth_inj]
  split
  · rename_i hb
    have hreceive : s.receive b = { s with
        xstring := Function.update s.xstring s.state b, crc := s.crc + b.setWidth 32, state := 3 } := by
      simp [Receiver.receive, hstate, hnumber, hinj.mpr hb]
    have hhead : [soh, number ps.length] ++ [b] = head ps.length := by rw [hb]; rfl
    rw [hreceive]
    refine ⟨⟨h.block, h.addr, h.mem_eq, h.full, rfl, ?_, fun _ => ?_, h.running⟩, rfl⟩
    · rw [← hhead]
      exact h.bytes_concat b
    · rw [← hhead]
      exact h.crc_concat (by simp) b
  · rename_i hb
    have hreceive : s.receive b = { s with
        xstring := Function.update s.xstring s.state b, out := some nak, state := 0 } := by
      simp [Receiver.receive, hstate, hnumber, mt hinj.mp hb]
    rw [hreceive]
    exact ⟨⟨h.block, h.addr, h.mem_eq, h.full, rfl, by simp, fun hne => absurd rfl hne,
      h.running⟩, rfl⟩

/-- A byte of the data. -/
theorem At.receive_data {data : List (BitVec 8)} (h : At mem ps (head ps.length ++ data) s)
    (hlen : data.length < 128) (b : BitVec 8) :
    At mem ps (head ps.length ++ (data ++ [b])) (s.receive b) ∧ (s.receive b).out = s.out := by
  have hstate : s.state = data.length + 3 := by
    rw [h.state, List.length_append, Nat.add_comm]
    rfl
  have hlast : data.length + 3 ≠ packetSize - 1 := by
    have hsize : packetSize - 1 = 131 := rfl
    omega
  have hreceive : s.receive b = { s with
      xstring := Function.update s.xstring s.state b, crc := s.crc + b.setWidth 32,
      state := s.state + 1 } := by
    simp [Receiver.receive, hstate, hlast]
  rw [hreceive, ← List.append_assoc]
  exact ⟨⟨h.block, h.addr, h.mem_eq, h.full, by simp [h.state, Nat.add_assoc], h.bytes_concat b,
    fun _ => h.crc_concat (by simp [head]) b, h.running⟩, rfl⟩

/-- The checksum. -/
theorem At.receive_cksum {data : List (BitVec 8)} (h : At mem ps (head ps.length ++ data) s)
    (hlen : data.length = 128) (b : BitVec 8) :
    if b = cksum data then
      At mem (ps ++ [data]) [] (s.receive b) ∧ (s.receive b).out = some ack
    else At mem ps [] (s.receive b) ∧ (s.receive b).out = some nak := by
  have hhead : (head ps.length).length = 3 := rfl
  have hstate : s.state = packetSize - 1 := by
    rw [h.state, List.length_append, hlen]
    rfl
  have hcrc : (s.crc &&& 0xff).setWidth 8 = cksum data := by
    rw [setWidth_mask, h.crc (by simp [head]), cksum_append, cksum_head]
    exact BitVec.zero_add _
  have hinj : b.setWidth 32 = s.crc &&& 0xff ↔ b = cksum data := by
    have hff : (0xff : BitVec 32).toNat = 2 ^ 8 - 1 := by decide
    constructor
    · intro heq
      rw [← hcrc, ← heq]
      simp
    · rintro rfl
      rw [← hcrc]
      apply BitVec.eq_of_toNat_eq
      rw [BitVec.toNat_setWidth, BitVec.toNat_setWidth, BitVec.toNat_and, hff,
        Nat.and_two_pow_sub_one_eq_mod]
      omega
  split
  · rename_i hb
    have hcopy : copyPayload (Function.update s.xstring s.state b) s.mem s.addr =
        (storeBytes s.mem s.addr data, s.addr + 128) := by
      refine copyPayload_eq hlen (fun i hi => ?_) _ _
      have hne : i + 3 ≠ s.state := by
        have hsize : packetSize - 1 = 131 := rfl
        omega
      rw [Function.update_of_ne hne, h.bytes (i + 3) (by rw [List.length_append, hhead]; omega),
        List.getD_append_right _ _ _ _ (by rw [hhead]; omega), hhead, Nat.add_sub_cancel]
    have hreceive : s.receive b = { s with
        xstring := Function.update s.xstring s.state b, crc := s.crc &&& 0xff,
        mem := storeBytes s.mem s.addr data, addr := s.addr + 128, out := some ack,
        block := (s.block + 1) &&& 0xff, state := 0 } := by
      have hsize : packetSize - 1 = 131 := rfl
      rw [Receiver.receive, hcopy]
      simp [hstate, hsize, hinj.mpr hb]
    rw [hreceive]
    refine ⟨⟨?_, ?_, ?_, ?_, rfl, by simp, fun hne => absurd rfl hne, h.running⟩, rfl⟩
    · have hnext : ∀ n : BitVec 8, (n.setWidth 32 + 1#32) &&& 0xff#32 = (n + 1).setWidth 32 := by
        decide +kernel
      have hnumber : number (ps ++ [data]).length = number ps.length + 1 := by
        rw [number, List.length_append, BitVec.ofNat_add]
        rfl
      rw [h.block, hnumber, ← hnext]
      rfl
    · rw [h.addr, List.flatten_append, List.length_append, BitVec.ofNat_add, BitVec.add_assoc]
      simp [hlen]
    · rw [h.mem_eq, h.addr, List.flatten_append, storeBytes_append]
      simp
    · intro p hp
      obtain hp | hp := List.mem_append.mp hp
      · exact h.full p hp
      · rwa [List.mem_singleton.mp hp]
  · rename_i hb
    have hreceive : s.receive b = { s with
        xstring := Function.update s.xstring s.state b, crc := s.crc &&& 0xff, out := some nak,
        state := 0 } := by
      have hsize : packetSize - 1 = 131 := rfl
      have hwrong : ¬ b.setWidth 32 = s.crc &&& 0xff := mt hinj.mp hb
      simp only [Receiver.receive, hstate, hsize, if_neg hwrong]
      rfl
    rw [hreceive]
    exact ⟨⟨h.block, h.addr, h.mem_eq, h.full, rfl, by simp, fun hne => absurd rfl hne,
      h.running⟩, rfl⟩

end

end RpiVm.Xmodem
