import Mathlib

/-!
# Bit-fields of a 32-bit word

A C structure of `unsigned` bit-fields that fills one word is that word, seen
through fields given by an offset and a width. Assigning a field truncates the
value to the width and leaves every other bit; reading a field that does not
overlap an assigned one sees the old bits.
-/

namespace CLib

/-- A field of `width` bits, the lowest of which is bit `off` of the word. -/
structure BitField (width : ℕ) where
  /-- Position of the lowest bit of the field. -/
  off : ℕ
  deriving DecidableEq

namespace BitField

variable {n : ℕ}

/-- The value of a field. -/
def get (f : BitField n) (w : BitVec 32) : BitVec n := w.extractLsb' f.off n

/-- The bits a field occupies. -/
def mask (f : BitField n) : BitVec 32 := (BitVec.allOnes n).setWidth 32 <<< f.off

/-- Assignment to a field: the value loses the bits above the width. -/
def set (f : BitField n) (w v : BitVec 32) : BitVec 32 :=
  (w &&& ~~~f.mask) ||| ((v.setWidth n).setWidth 32 <<< f.off)

/-- An assigned field holds the truncated value. -/
@[simp] theorem extractLsb'_set_same {o : ℕ} (w v : BitVec 32) (h : o + n ≤ 32) :
    (set (⟨o⟩ : BitField n) w v).extractLsb' o n = v.setWidth n := by
  apply BitVec.eq_of_getLsbD_eq
  intro i hi
  simp [set, mask, hi, show o + i < 32 by omega, show i < 32 by omega]

/-- A range of bits disjoint from an assigned field keeps its value. -/
@[simp] theorem extractLsb'_set_of_disjoint {o p k : ℕ} (w v : BitVec 32) (h : p + k ≤ o ∨ o + n ≤ p) :
    (set (⟨o⟩ : BitField n) w v).extractLsb' p k = w.extractLsb' p k := by
  apply BitVec.eq_of_getLsbD_eq
  intro i hi
  by_cases hbit : p + i < 32
  · rcases h with h | h
    · simp [set, mask, hi, hbit, show p + i < o by omega]
    · simp [set, mask, hi, hbit, show ¬ p + i - o < n by omega]
  · simp [hi, BitVec.getLsbD_of_ge _ _ (Nat.le_of_not_lt hbit)]

/-- An assignment keeps the bits outside its field. -/
theorem getLsbD_set_of_outside (f : BitField n) (w v : BitVec 32) {i : ℕ}
    (h : ¬ (f.off ≤ i ∧ i < f.off + n)) : (f.set w v).getLsbD i = w.getLsbD i := by
  by_cases hi : i < 32
  · by_cases hlow : i < f.off
    · simp [set, mask, hi, hlow]
    · simp [set, mask, hi, hlow, show ¬ i - f.off < n by omega]
  · have hge : 32 ≤ i := Nat.le_of_not_lt hi
    rw [BitVec.getLsbD_of_ge _ _ hge, BitVec.getLsbD_of_ge _ _ hge]

/-- Every field of the zero word is zero. -/
@[simp] theorem extractLsb'_zero_word (o k : ℕ) : (0#32).extractLsb' o k = 0#k := by
  apply BitVec.eq_of_getLsbD_eq
  simp

end BitField

/-- The lowest byte of a word, masked before. -/
theorem setWidth_mask (w : BitVec 32) : (w &&& 0xff).setWidth 8 = w.setWidth 8 := by
  apply BitVec.eq_of_toNat_eq
  have hff : (0xff : BitVec 32).toNat = 2 ^ 8 - 1 := by decide
  rw [BitVec.toNat_setWidth, BitVec.toNat_and, hff, Nat.and_two_pow_sub_one_eq_mod, Nat.mod_mod,
    BitVec.toNat_setWidth]

end CLib
