import RpiVm.Boot.Crc32
import RpiVm.Lib.Framing
import RpiVm.Lib.Memory

/-!
# The two sides of the boot protocol

`simple_boot` on the UNIX side and `notmain` of the bootloader on the Pi, as machines
that exchange words; `put_uint` and `get_uint` send and receive a word as four bytes.
-/

namespace RpiVm

open CLib Channel

/-! ## Protocol codes -/

/-- `ARMBASE`, where a program gets linked. -/
def armbase : BitVec 32 := 0x8000

/-- `SOH`, start of header. -/
def soh : BitVec 32 := 0x12345678

/-- `BAD_CKSUM`. -/
def badCksum : BitVec 32 := 0x1

/-- `BAD_START`. -/
def badStart : BitVec 32 := 2

/-- `BAD_END`. -/
def badEnd : BitVec 32 := 3

/-- `TOO_BIG`. -/
def tooBig : BitVec 32 := 4

/-- `ACK`. -/
def ack : BitVec 32 := 5

/-- `NAK`. -/
def nak : BitVec 32 := 6

/-- `EOT`, end of transmission. -/
def eot : BitVec 32 := 7

/-! ## Words and bytes -/

/-- The bytes that `put_uint` sends. -/
def putUint (u : BitVec 32) : List (BitVec 8) :=
  [((u >>> 0) &&& 0xff).setWidth 8, ((u >>> 8) &&& 0xff).setWidth 8,
    ((u >>> 16) &&& 0xff).setWidth 8, ((u >>> 24) &&& 0xff).setWidth 8]

/-- The word that `get_uint` makes of four bytes. -/
def getUint : List (BitVec 8) → BitVec 32
  | [b₀, b₁, b₂, b₃] =>
    b₀.setWidth 32 ||| (b₁.setWidth 32 <<< 8) ||| (b₂.setWidth 32 <<< 16) |||
      (b₃.setWidth 32 <<< 24)
  | _ => 0

/-- The bytes of a word in memory, lowest first. -/
def wordBytes (u : BitVec 32) : List (BitVec 8) :=
  [u.extractLsb' 0 8, u.extractLsb' 8 8, u.extractLsb' 16 8, u.extractLsb' 24 8]

/-- `put_uint` sends a word as it lies in memory. -/
theorem putUint_eq (u : BitVec 32) : putUint u = wordBytes u := by
  have hbyte : ∀ k, ((u >>> k) &&& 0xff).setWidth 8 = u.extractLsb' k 8 := by
    intro k
    apply BitVec.eq_of_toNat_eq
    have hmask : (0xff : BitVec 32).toNat = 2 ^ 8 - 1 := by decide
    rw [BitVec.toNat_setWidth, BitVec.toNat_and, hmask, Nat.and_two_pow_sub_one_eq_mod,
      BitVec.toNat_ushiftRight, BitVec.extractLsb'_toNat, Nat.mod_mod]
  rw [putUint, wordBytes, hbyte, hbyte, hbyte, hbyte]

/-- `get_uint` puts the first byte lowest. -/
theorem getUint_eq (b₀ b₁ b₂ b₃ : BitVec 8) : getUint [b₀, b₁, b₂, b₃] = b₃ ++ b₂ ++ b₁ ++ b₀ := by
  apply BitVec.eq_of_getLsbD_eq
  intro i hi
  simp only [getUint, BitVec.getLsbD_or, BitVec.getLsbD_shiftLeft, BitVec.getLsbD_setWidth,
    BitVec.getLsbD_append]
  by_cases h0 : i < 8
  · simp [h0, show i < 16 by omega, show i < 24 by omega, hi]
  by_cases h1 : i < 16
  · simp [h0, h1, show i < 24 by omega, hi, show i - 8 < 8 by omega,
      BitVec.getLsbD_of_ge b₀ i (by omega)]
    omega
  by_cases h2 : i < 24
  · simp [h0, h1, h2, hi, show ¬ i - 8 < 8 by omega, show i - 16 < 8 by omega,
      BitVec.getLsbD_of_ge b₀ i (by omega), BitVec.getLsbD_of_ge b₁ (i - 8) (by omega),
      show i - 8 - 8 = i - 16 by omega]
    omega
  · simp [h0, h1, h2, hi, show ¬ i - 8 < 8 by omega, show ¬ i - 8 - 8 < 8 by omega,
      BitVec.getLsbD_of_ge b₀ i (by omega), BitVec.getLsbD_of_ge b₁ (i - 8) (by omega),
      BitVec.getLsbD_of_ge b₂ (i - 16) (by omega), show i - 8 - 8 - 8 = i - 24 by omega]
    omega

/-- The four bytes of a word joined again. -/
theorem append_wordBytes (u : BitVec 32) :
    u.extractLsb' 24 8 ++ u.extractLsb' 16 8 ++ u.extractLsb' 8 8 ++ u.extractLsb' 0 8 = u := by
  apply BitVec.eq_of_getLsbD_eq
  intro i hi
  simp only [BitVec.getLsbD_append, BitVec.getLsbD_extractLsb']
  by_cases h0 : i < 8
  · simp [h0]
  by_cases h1 : i < 16
  · simp [h0, show i - 8 < 8 by omega, show 8 + (i - 8) = i by omega]
  by_cases h2 : i < 24
  · simp [h0, show ¬ i - 8 < 8 by omega, show i - 8 - 8 < 8 by omega,
      show 16 + (i - 8 - 8) = i by omega]
  · simp [h0, show ¬ i - 8 < 8 by omega, show ¬ i - 8 - 8 < 8 by omega,
      show i - 8 - 8 - 8 < 8 by omega, show 24 + (i - 8 - 8 - 8) = i by omega]

/-- The bytes of a joined word. -/
theorem wordBytes_append (b₀ b₁ b₂ b₃ : BitVec 8) :
    wordBytes (b₃ ++ b₂ ++ b₁ ++ b₀) = [b₀, b₁, b₂, b₃] := by
  have hbytes : ∀ k, k < 4 → (b₃ ++ b₂ ++ b₁ ++ b₀).extractLsb' (8 * k) 8 =
      [b₀, b₁, b₂, b₃].getD k 0 := by
    intro k hk
    apply BitVec.eq_of_getLsbD_eq
    intro i hi
    simp only [BitVec.getLsbD_extractLsb', BitVec.getLsbD_append, hi, decide_true, Bool.true_and]
    obtain rfl | rfl | rfl | rfl : k = 0 ∨ k = 1 ∨ k = 2 ∨ k = 3 := by omega
    · simp [hi]
    · simp [hi, show ¬ 8 + i < 8 by omega]
    · simp [hi, show ¬ 16 + i < 8 by omega, show ¬ 16 + i - 8 < 8 by omega,
        show 16 + i - 8 - 8 = i by omega]
    · simp [show ¬ 24 + i < 8 by omega, show ¬ 24 + i - 8 < 8 by omega,
        show ¬ 24 + i - 8 - 8 < 8 by omega, show 24 + i - 8 - 8 - 8 = i by omega]
  have h0 := hbytes 0 (by decide)
  have h1 := hbytes 1 (by decide)
  have h2 := hbytes 2 (by decide)
  have h3 := hbytes 3 (by decide)
  simp only [wordBytes]
  simp only [Nat.mul_zero, Nat.mul_one, Nat.reduceMul] at h0 h1 h2 h3
  rw [h0, h1, h2, h3]
  rfl

/-- Words as `put_uint` and `get_uint` exchange them. -/
def wordCode : Code (BitVec 32) (BitVec 8) where
  size := 4
  encode := putUint
  decode := getUint
  size_pos := by decide
  length_encode _ := rfl
  decode_encode u := by rw [putUint_eq, wordBytes, getUint_eq, append_wordBytes]
  encode_decode l hl := by
    obtain ⟨b₀, b₁, b₂, b₃, rfl⟩ := List.length_eq_four.mp hl
    rw [getUint_eq, putUint_eq, wordBytes_append]

/-! ## The UNIX side -/

/-- The text that `expect` puts behind an unexpected word. -/
def expectError (x : BitVec 32) : String :=
  if x = badCksum then "bad checksum"
  else if x = badStart then "bad start of transmission"
  else if x = badEnd then "bad end of transmission"
  else if x = tooBig then "payload too big"
  else if x = nak then "no acknowledgement/error in transmission"
  else "not an error code - invalid data echoed?"

/-- Where `simple_boot` is. -/
inductive UnixState where
  /-- `put_uint(fd, SOH)`. -/
  | putSoh
  /-- `put_uint(fd, n)`. -/
  | putNBytes
  /-- `put_uint(fd, fileHash)`. -/
  | putFileHash
  /-- `expect("receive echoed SOH", fd, SOH)`. -/
  | expectSoh
  /-- `expect("receive crc32 checksum of nBytes", fd, nBytesHash)`. -/
  | expectNBytesHash
  /-- `expect("receive echoed file checksum", fd, fileHash)`. -/
  | expectFileHash
  /-- `put_uint(fd, ACK)`. -/
  | putAck
  /-- The loop that sends the buffer, and `put_uint(fd, EOT)` after it. -/
  | data (offset : BitVec 32)
  /-- `expect("receive acknowlegement of transmission", fd, ACK)`. -/
  | expectAck
  /-- `simple_boot` has returned. -/
  | returned
  /-- `expect` has panicked: its message, the words expected and received, and the text. -/
  | panicked (msg : String) (v x : BitVec 32) (error : String)
  deriving DecidableEq, Repr

/-- `expect`, and what follows when the word is right. -/
def expect (msg : String) (v : BitVec 32) (next : UnixState) : Action (BitVec 32) UnixState :=
  .recv fun x => if x ≠ v then .panicked msg v x (expectError x) else next

/-- `*(unsigned *)(buf + offset)`, on a little-endian machine; `read_file` has filled
the buffer up to a multiple of four bytes with zeros. -/
def loadChunk (buf : List (BitVec 8)) (offset : ℕ) : BitVec 32 :=
  buf.getD (offset + 3) 0 ++ buf.getD (offset + 2) 0 ++ buf.getD (offset + 1) 0 ++ buf.getD offset 0

/-- `simple_boot`, with the whole buffer. -/
def simpleBoot (buf : List (BitVec 8)) : Machine (BitVec 32) UnixState :=
  let n := BitVec.ofNat 32 buf.length
  let fileHash := crc32 buf
  let nBytesHash := crc32 (wordBytes n)
  fun
  | .putSoh => .send soh .putNBytes
  | .putNBytes => .send n .putFileHash
  | .putFileHash => .send fileHash .expectSoh
  | .expectSoh => expect "receive echoed SOH" soh .expectNBytesHash
  | .expectNBytesHash => expect "receive crc32 checksum of nBytes" nBytesHash .expectFileHash
  | .expectFileHash => expect "receive echoed file checksum" fileHash .putAck
  | .putAck => .send ack (.data 0)
  | .data offset =>
    if offset < n then .send (loadChunk buf offset.toNat) (.data (offset + 4))
    else .send eot .expectAck
  | .expectAck => expect "receive acknowlegement of transmission" ack .returned
  | .returned => .halt
  | .panicked _ _ _ _ => .halt

/-! ## The Pi side -/

/-- Where `notmain` is. -/
inductive PiPc where
  /-- `get_uint() != SOH`. -/
  | getSoh
  /-- `nBytes = get_uint()`. -/
  | getNBytes
  /-- `fileHash = get_uint()`, and the comparison with `__bss_start__`. -/
  | getFileHash (nBytes : BitVec 32)
  /-- `put_uint(SOH)`. -/
  | putSoh (nBytes fileHash : BitVec 32)
  /-- `put_uint(nBytesHash)`. -/
  | putNBytesHash (nBytes fileHash : BitVec 32)
  /-- `put_uint(fileHash)`. -/
  | putFileHash (nBytes fileHash : BitVec 32)
  /-- `get_uint() != ACK`. -/
  | getAck (nBytes fileHash : BitVec 32)
  /-- The loop that copies the program, and the comparisons after it. -/
  | copy (nBytes fileHash offset : BitVec 32)
  /-- `put_uint(ACK)`. -/
  | putAck
  /-- `BRANCHTO(ARMBASE)`, after a delay. -/
  | branchTo
  /-- `die(code)`. -/
  | die (code : BitVec 32)
  /-- `rpi_reboot()`. -/
  | reboot
  deriving DecidableEq, Repr

/-- The Pi: where it is, its memory, and the addresses that `PUT32` has stored to,
latest first, which is a record of the run. -/
structure PiState where
  /-- Where `notmain` is. -/
  pc : PiPc
  /-- The memory. -/
  mem : Mem
  /-- The addresses stored to. -/
  stores : List (BitVec 32)

/-- The bytes of memory from an address on. -/
def readBytes (m : Mem) (a : BitVec 32) (n : ℕ) : List (BitVec 8) :=
  (List.range n).map fun i => m (a + BitVec.ofNat 32 i)

/-- `notmain` of the bootloader, whose bss starts at `bssStart`. -/
def notmain (bssStart : BitVec 32) : Machine (BitVec 32) PiState := fun s =>
  match s.pc with
  | .getSoh => .recv fun u => { s with pc := if u ≠ soh then .die badStart else .getNBytes }
  | .getNBytes => .recv fun nBytes => { s with pc := .getFileHash nBytes }
  | .getFileHash nBytes => .recv fun fileHash =>
    { s with pc := if bssStart ≤ armbase + nBytes then .die tooBig else .putSoh nBytes fileHash }
  | .putSoh nBytes fileHash => .send soh { s with pc := .putNBytesHash nBytes fileHash }
  | .putNBytesHash nBytes fileHash =>
    .send (crc32 (wordBytes nBytes)) { s with pc := .putFileHash nBytes fileHash }
  | .putFileHash nBytes fileHash => .send fileHash { s with pc := .getAck nBytes fileHash }
  | .getAck nBytes fileHash => .recv fun u =>
    { s with pc := if u ≠ ack then .die nak else .copy nBytes fileHash 0 }
  | .copy nBytes fileHash offset =>
    if offset < nBytes then .recv fun chunk =>
      ⟨.copy nBytes fileHash (offset + 4), s.mem.store32 (armbase + offset) chunk,
        (armbase + offset) :: s.stores⟩
    else .recv fun u =>
      { s with pc :=
          if u ≠ eot then .die badEnd
          else if crc32 (readBytes s.mem armbase nBytes.toNat) = fileHash then .putAck
          else .die badCksum }
  | .putAck => .send ack { s with pc := .branchTo }
  | .branchTo => .halt
  | .die code => .send code { s with pc := .reboot }
  | .reboot => .halt

/-- The Pi before `notmain`. -/
def PiState.start (mem : Mem) : PiState := ⟨.getSoh, mem, []⟩

end RpiVm
