import Mathlib

/-!
# Table-driven checksums of 32 bits

One table entry for each byte, as in the reflected form of a CRC. If the top bytes of
the entries are all different, a step can be undone; then a change of at most four
bytes in a row always changes the checksum. If the entries are what the shift register
makes of the bytes, the checksum is the one computed bit by bit.
-/

namespace Crc

/-- The step for one byte. -/
def step (tab : BitVec 8 → BitVec 32) (c : BitVec 32) (b : BitVec 8) : BitVec 32 :=
  tab (c.setWidth 8 ^^^ b) ^^^ (c >>> 8)

/-- The steps for some bytes. -/
def run (tab : BitVec 8 → BitVec 32) (c : BitVec 32) (bs : List (BitVec 8)) : BitVec 32 :=
  bs.foldl (step tab) c

/-- The top bytes of the entries are all different. -/
def TopInjective (tab : BitVec 8 → BitVec 32) : Prop :=
  ∀ i j, (tab i).extractLsb' 24 8 = (tab j).extractLsb' 24 8 → i = j

variable {tab : BitVec 8 → BitVec 32}

@[simp] theorem run_nil (c : BitVec 32) : run tab c [] = c := rfl

@[simp] theorem run_cons (c : BitVec 32) (b : BitVec 8) (bs : List (BitVec 8)) :
    run tab c (b :: bs) = run tab (step tab c b) bs := rfl

theorem run_append (c : BitVec 32) (as bs : List (BitVec 8)) :
    run tab c (as ++ bs) = run tab (run tab c as) bs := List.foldl_append

/-! ## Undoing steps -/

/-- The top byte of a step is that of the table entry. -/
theorem step_top (c : BitVec 32) (b : BitVec 8) :
    (step tab c b).extractLsb' 24 8 = (tab (c.setWidth 8 ^^^ b)).extractLsb' 24 8 := by
  have hshift : (c >>> 8).extractLsb' 24 8 = 0#8 := by
    apply BitVec.eq_of_toNat_eq
    have hc := c.isLt
    rw [BitVec.extractLsb'_toNat, BitVec.toNat_ushiftRight, Nat.shiftRight_eq_div_pow,
      Nat.shiftRight_eq_div_pow]
    simp only [BitVec.toNat_ofNat]
    omega
  rw [step, BitVec.extractLsb'_xor, hshift, BitVec.xor_zero]

/-- A word is its low byte and the rest. -/
theorem eq_of_low_eq_of_shift_eq {c c' : BitVec 32} (hlow : c.setWidth 8 = c'.setWidth 8)
    (hhigh : c >>> 8 = c' >>> 8) : c = c' := by
  apply BitVec.eq_of_toNat_eq
  have hl := congrArg BitVec.toNat hlow
  have hh := congrArg BitVec.toNat hhigh
  rw [BitVec.toNat_setWidth, BitVec.toNat_setWidth] at hl
  rw [BitVec.toNat_ushiftRight, BitVec.toNat_ushiftRight, Nat.shiftRight_eq_div_pow,
    Nat.shiftRight_eq_div_pow] at hh
  omega

/-- The steps for the same byte take different states to different states. -/
theorem step_injective (htab : TopInjective tab) {c c' : BitVec 32} {b : BitVec 8}
    (h : step tab c b = step tab c' b) : c = c' := by
  have hindex : c.setWidth 8 ^^^ b = c'.setWidth 8 ^^^ b :=
    htab _ _ (by rw [← step_top, ← step_top, h])
  have hlow : c.setWidth 8 = c'.setWidth 8 := (BitVec.xor_left_inj _).mp hindex
  rw [step, step, hindex] at h
  exact eq_of_low_eq_of_shift_eq hlow ((BitVec.xor_right_inj _).mp h)

/-- So do the steps for the same bytes. -/
theorem run_injective (htab : TopInjective tab) {c c' : BitVec 32} {bs : List (BitVec 8)}
    (h : run tab c bs = run tab c' bs) : c = c' := by
  induction bs generalizing c c' with
  | nil => exact h
  | cons b bs ih => exact step_injective htab (ih h)

/-! ## Four bytes -/

/-- Bytes as a word, the first one lowest. -/
def pack : List (BitVec 8) → BitVec 32
  | [] => 0
  | b :: bs => b.setWidth 32 ^^^ (pack bs <<< 8)

/-- The word of a list of bytes fits in as many bytes. -/
theorem pack_lt (bs : List (BitVec 8)) : (pack bs).toNat < 2 ^ (8 * bs.length) := by
  induction bs with
  | nil => simp [pack]
  | cons b bs ih =>
    have hb : (b.setWidth 32).toNat < 2 ^ (8 * (bs.length + 1)) := by
      rw [BitVec.toNat_setWidth]
      have hlt : b.toNat < 2 ^ 8 := b.isLt
      have hpow : (2 : ℕ) ^ 8 ≤ 2 ^ (8 * (bs.length + 1)) :=
        Nat.pow_le_pow_right (by decide) (by omega)
      exact (Nat.mod_le _ _).trans_lt (hlt.trans_le hpow)
    have hshift : (pack bs <<< 8).toNat < 2 ^ (8 * (bs.length + 1)) := by
      rw [BitVec.toNat_shiftLeft, Nat.shiftLeft_eq,
        show 8 * (bs.length + 1) = 8 * bs.length + 8 by ring, Nat.pow_add]
      exact (Nat.mod_le _ _).trans_lt (Nat.mul_lt_mul_of_pos_right ih (by decide))
    rw [pack, BitVec.toNat_xor, List.length_cons]
    exact Nat.xor_lt_two_pow hb hshift

/-- A word of at most three bytes, moved up and down again. -/
theorem shiftLeft_shiftRight_of_lt {p : BitVec 32} (hp : p.toNat < 2 ^ 24) :
    (p <<< 8) >>> 8 = p ∧ (p <<< 8).setWidth 8 = 0 := by
  have hvalue : (p <<< 8).toNat = p.toNat * 2 ^ 8 := by
    rw [BitVec.toNat_shiftLeft, Nat.shiftLeft_eq]
    exact Nat.mod_eq_of_lt (by omega)
  constructor
  · apply BitVec.eq_of_toNat_eq
    rw [BitVec.toNat_ushiftRight, Nat.shiftRight_eq_div_pow, hvalue]
    omega
  · apply BitVec.eq_of_toNat_eq
    rw [BitVec.toNat_setWidth, hvalue]
    simp

/-- Nothing of a byte lies above its eight bits. -/
theorem setWidth_shiftRight (b : BitVec 8) : b.setWidth 32 >>> 8 = 0#32 := by
  apply BitVec.eq_of_toNat_eq
  have hlt := b.isLt
  rw [BitVec.toNat_ushiftRight, Nat.shiftRight_eq_div_pow, BitVec.toNat_setWidth]
  show b.toNat % 2 ^ 32 / 2 ^ 8 = 0
  omega

/-- A byte that is in the state already counts as zero, and the bytes above it move
down. -/
theorem step_xor {p : BitVec 32} (hp : p.toNat < 2 ^ 24) (c : BitVec 32) (b : BitVec 8) :
    step tab (c ^^^ (b.setWidth 32 ^^^ (p <<< 8))) 0 = step tab c b ^^^ p := by
  obtain ⟨hshift, hlow⟩ := shiftLeft_shiftRight_of_lt hp
  have hb : (b.setWidth 32).setWidth 8 = b := by simp
  have hindex : (c ^^^ (b.setWidth 32 ^^^ (p <<< 8))).setWidth 8 ^^^ 0 = c.setWidth 8 ^^^ b := by
    rw [BitVec.setWidth_xor, BitVec.setWidth_xor, hlow, hb]
    simp
  have hrest : (c ^^^ (b.setWidth 32 ^^^ (p <<< 8))) >>> 8 = (c >>> 8) ^^^ p := by
    rw [BitVec.ushiftRight_xor_distrib, BitVec.ushiftRight_xor_distrib, setWidth_shiftRight, hshift]
    simp
  rw [step, hindex, hrest, step, BitVec.xor_assoc]

/-- Up to four bytes can be put in the state at once. -/
theorem run_pack {bs : List (BitVec 8)} (hlen : bs.length ≤ 4) (c : BitVec 32) :
    run tab c bs = run tab (c ^^^ pack bs) (List.replicate bs.length 0) := by
  induction bs generalizing c with
  | nil => simp [pack]
  | cons b bs ih =>
    rw [List.length_cons] at hlen
    have hlt : (pack bs).toNat < 2 ^ 24 :=
      (pack_lt bs).trans_le (Nat.pow_le_pow_right (by decide) (by omega))
    rw [run_cons, ih (by omega), List.length_cons, List.replicate_succ, run_cons, pack,
      step_xor hlt]

/-- The bytes of a word. -/
theorem pack_injective {bs bs' : List (BitVec 8)} (hlen : bs.length ≤ 4)
    (heq : bs.length = bs'.length) (h : pack bs = pack bs') : bs = bs' := by
  induction bs generalizing bs' with
  | nil => exact (List.length_eq_zero_iff.mp heq.symm).symm
  | cons b bs ih =>
    obtain ⟨b', bs', rfl⟩ := List.exists_cons_of_length_pos (by rw [← heq]; simp : 0 < bs'.length)
    rw [List.length_cons] at hlen
    rw [List.length_cons, List.length_cons, Nat.add_right_cancel_iff] at heq
    have hlt {l : List (BitVec 8)} (hl : l.length ≤ 3) : (pack l).toNat < 2 ^ 24 :=
      (pack_lt l).trans_le (Nat.pow_le_pow_right (by decide) (by omega))
    obtain ⟨hshift, hlow⟩ := shiftLeft_shiftRight_of_lt (hlt (l := bs) (by omega))
    obtain ⟨hshift', hlow'⟩ := shiftLeft_shiftRight_of_lt (hlt (l := bs') (by omega))
    have hb : b = b' := by
      have hset := congrArg (BitVec.setWidth 8) h
      rw [pack, pack, BitVec.setWidth_xor, BitVec.setWidth_xor, hlow, hlow'] at hset
      simpa using hset
    subst hb
    rw [pack, pack, BitVec.xor_right_inj] at h
    have hrest : pack bs = pack bs' := by rw [← hshift, h, hshift']
    rw [ih (by omega) heq hrest]

/-- A change of at most four bytes in a row changes the checksum. -/
theorem run_change (htab : TopInjective tab) {c : BitVec 32} {as bs bs' cs : List (BitVec 8)}
    (hlen : bs.length ≤ 4) (heq : bs.length = bs'.length)
    (h : run tab c (as ++ (bs ++ cs)) = run tab c (as ++ (bs' ++ cs))) : bs = bs' := by
  rw [run_append, run_append, run_append, run_append] at h
  have hword := run_injective htab h
  have hlen' : bs'.length ≤ 4 := heq ▸ hlen
  rw [run_pack hlen, run_pack hlen', ← heq] at hword
  exact pack_injective hlen heq ((BitVec.xor_right_inj _).mp (run_injective htab hword))

/-! ## Bit by bit -/

/-- The shift register with a polynomial takes a bit: the polynomial is subtracted if the bit that
leaves the register differs from it. -/
def bitStep (poly c : BitVec 32) (bit : Bool) : BitVec 32 :=
  if c.getLsbD 0 != bit then (c >>> 1) ^^^ poly else c >>> 1

/-- The bits of a byte, lowest first. -/
def bits (b : BitVec 8) : List Bool := (List.range 8).map b.getLsbD

/-- The register after all bits of some bytes. -/
def bitwise (poly c : BitVec 32) (bs : List (BitVec 8)) : BitVec 32 :=
  (bs.flatMap bits).foldl (bitStep poly) c

/-- The register after zeros. -/
def shifts (poly : BitVec 32) : ℕ → BitVec 32 → BitVec 32
  | 0, c => c
  | k + 1, c => shifts poly k (bitStep poly c false)

variable {poly : BitVec 32}

/-- The register is linear. -/
theorem bitStep_xor (c d : BitVec 32) :
    bitStep poly (c ^^^ d) false = bitStep poly c false ^^^ bitStep poly d false := by
  simp only [bitStep, BitVec.getLsbD_xor, BitVec.ushiftRight_xor_distrib, Bool.bne_false]
  cases c.getLsbD 0 <;> cases d.getLsbD 0
  · rfl
  · exact BitVec.xor_assoc _ _ _
  · show c >>> 1 ^^^ d >>> 1 ^^^ poly = c >>> 1 ^^^ poly ^^^ d >>> 1
    rw [BitVec.xor_assoc, BitVec.xor_comm (d >>> 1), ← BitVec.xor_assoc]
  · show c >>> 1 ^^^ d >>> 1 = c >>> 1 ^^^ poly ^^^ (d >>> 1 ^^^ poly)
    rw [BitVec.xor_assoc (c >>> 1) poly, BitVec.xor_comm poly, BitVec.xor_assoc (d >>> 1),
      BitVec.xor_self, BitVec.xor_zero]

/-- So are several zeros. -/
theorem shifts_xor (k : ℕ) (c d : BitVec 32) :
    shifts poly k (c ^^^ d) = shifts poly k c ^^^ shifts poly k d := by
  induction k generalizing c d with
  | zero => rfl
  | succ k ih => rw [shifts, bitStep_xor, ih, shifts, shifts]

/-- What lies above the bit that leaves moves down. -/
theorem bitStep_double {y : BitVec 32} (hy : y.toNat < 2 ^ 31) :
    bitStep poly (y <<< 1) false = y := by
  have hlow : (y <<< 1).getLsbD 0 = false := by simp
  have hdown : (y <<< 1) >>> 1 = y := by
    apply BitVec.eq_of_toNat_eq
    rw [BitVec.toNat_ushiftRight, BitVec.toNat_shiftLeft, Nat.shiftLeft_eq,
      Nat.shiftRight_eq_div_pow, Nat.mod_eq_of_lt (by omega)]
    omega
  rw [bitStep, hlow, hdown]
  rfl

/-- What lies above the bits that leave moves down. -/
theorem shifts_shiftLeft {k : ℕ} {y : BitVec 32} (hy : y.toNat * 2 ^ k < 2 ^ 32) :
    shifts poly k (y <<< k) = y := by
  induction k generalizing y with
  | zero => rw [shifts, BitVec.shiftLeft_zero]
  | succ k ih =>
    have hpow : 2 ^ (k + 1) = 2 ^ k * 2 := Nat.pow_succ 2 k
    have hprod : y.toNat * 2 ^ k * 2 < 2 ^ 32 := by rwa [Nat.mul_assoc, ← hpow]
    have hvalue : (y <<< k).toNat = y.toNat * 2 ^ k := by
      rw [BitVec.toNat_shiftLeft, Nat.shiftLeft_eq]
      exact Nat.mod_eq_of_lt (by omega)
    rw [shifts, BitVec.shiftLeft_add, bitStep_double (by omega)]
    exact ih (by omega)

/-- A bit counts like a bit that is in the register already. -/
theorem bitStep_eq (c : BitVec 32) (bit : Bool) :
    bitStep poly c bit = bitStep poly (c ^^^ (BitVec.ofBool bit).setWidth 32) false := by
  cases bit with
  | false => simp
  | true =>
    have hone : (BitVec.ofBool true).setWidth 32 >>> 1 = 0#32 := by decide
    have hlow : ((BitVec.ofBool true).setWidth 32).getLsbD 0 = true := by decide
    simp only [bitStep, BitVec.getLsbD_xor, BitVec.ushiftRight_xor_distrib, hone, hlow,
      BitVec.xor_zero, Bool.bne_true, Bool.bne_false]

/-- Bits as a word, the first one lowest. -/
def ofBits : List Bool → BitVec 32
  | [] => 0#32
  | bit :: l => (BitVec.ofBool bit).setWidth 32 ^^^ (ofBits l <<< 1)

/-- The word of some bits has no more bits. -/
theorem ofBits_lt (l : List Bool) : (ofBits l).toNat < 2 ^ l.length := by
  induction l with
  | nil => exact Nat.one_pos
  | cons bit l ih =>
    have hbit : ((BitVec.ofBool bit).setWidth 32).toNat < 2 ^ (l.length + 1) := by
      have hone : ((BitVec.ofBool bit).setWidth 32).toNat ≤ 1 := by cases bit <;> decide
      exact lt_of_le_of_lt hone (Nat.one_lt_two_pow (Nat.succ_ne_zero _))
    have hrest : (ofBits l <<< 1).toNat < 2 ^ (l.length + 1) := by
      rw [BitVec.toNat_shiftLeft, Nat.shiftLeft_eq, Nat.pow_succ]
      exact lt_of_le_of_lt (Nat.mod_le _ _) (Nat.mul_lt_mul_of_pos_right ih (by decide))
    rw [ofBits, BitVec.toNat_xor, List.length_cons]
    exact Nat.xor_lt_two_pow hbit hrest

/-- Up to 32 bits can be put in the register at once. -/
theorem foldl_bitStep {l : List Bool} (hlen : l.length ≤ 32) (c : BitVec 32) :
    l.foldl (bitStep poly) c = shifts poly l.length (c ^^^ ofBits l) := by
  induction l generalizing c with
  | nil => rw [List.foldl_nil, ofBits, List.length_nil, shifts, BitVec.xor_zero]
  | cons bit l ih =>
    rw [List.length_cons] at hlen
    have hlt : (ofBits l).toNat < 2 ^ 31 :=
      (ofBits_lt l).trans_le (Nat.pow_le_pow_right (by decide) (by omega))
    rw [List.foldl_cons, ih (by omega), List.length_cons, shifts, ofBits, ← BitVec.xor_assoc,
      bitStep_xor (c ^^^ _), bitStep_double hlt, bitStep_eq]

/-- The bits of a byte make its word. -/
theorem ofBits_bits : ∀ b : BitVec 8, ofBits (bits b) = b.setWidth 32 := by
  decide +kernel

/-- A byte moves the register down by eight bits and adds what the register makes of the byte that
leaves. -/
theorem shifts_eight (x : BitVec 32) :
    shifts poly 8 x = shifts poly 8 ((x.setWidth 8).setWidth 32) ^^^ (x >>> 8) := by
  have hhigh : (x >>> 8).toNat * 2 ^ 8 < 2 ^ 32 := by
    have hx := x.isLt
    rw [BitVec.toNat_ushiftRight, Nat.shiftRight_eq_div_pow]
    omega
  have hsplit : x = (x.setWidth 8).setWidth 32 ^^^ ((x >>> 8) <<< 8) := by
    apply eq_of_low_eq_of_shift_eq
    · rw [BitVec.setWidth_xor, (shiftLeft_shiftRight_of_lt (by omega)).2]
      simp
    · rw [BitVec.ushiftRight_xor_distrib, (shiftLeft_shiftRight_of_lt (by omega)).1,
        setWidth_shiftRight, BitVec.zero_xor]
  conv_lhs => rw [hsplit]
  rw [shifts_xor, shifts_shiftLeft hhigh]

/-- A table of what the register makes of each byte gives its checksum. -/
theorem run_eq_bitwise (htab : ∀ i, tab i = shifts poly 8 (i.setWidth 32)) (c : BitVec 32)
    (bs : List (BitVec 8)) : run tab c bs = bitwise poly c bs := by
  induction bs generalizing c with
  | nil => rfl
  | cons b bs ih =>
    have hstep : step tab c b = (bits b).foldl (bitStep poly) c := by
      have hlow : (c ^^^ b.setWidth 32).setWidth 8 = c.setWidth 8 ^^^ b := by
        rw [BitVec.setWidth_xor]
        simp
      have hrest : (c ^^^ b.setWidth 32) >>> 8 = c >>> 8 := by
        rw [BitVec.ushiftRight_xor_distrib, setWidth_shiftRight, BitVec.xor_zero]
      have hlen : (bits b).length ≤ 32 := by simp [bits]
      rw [foldl_bitStep hlen, ofBits_bits]
      show _ = shifts poly 8 _
      rw [shifts_eight, hlow, hrest, step, htab]
    rw [run_cons, ih, bitwise, bitwise, List.flatMap_cons, List.foldl_append, hstep]

end Crc
