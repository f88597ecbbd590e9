import Mathlib

/-!
# Byte memory with little-endian words

The memory of a 32-bit machine maps every address to a byte; a word occupies
four consecutive bytes, least significant first. Separation is stated with
regions of natural-number addresses, so that it never wraps: a store changes
only the bytes of its word, and a load depends only on the bytes of its word.
-/

namespace CLib

/-- The addresses from `base` up to, not including, `base + size`. -/
structure Region where
  /-- First address. -/
  base : ℕ
  /-- Number of addresses. -/
  size : ℕ
  deriving DecidableEq, Repr

namespace Region

/-- Membership of an address. -/
def Contains (r : Region) (x : ℕ) : Prop := r.base ≤ x ∧ x < r.base + r.size

/-- One region lies wholly below the other. -/
def Disjoint (r s : Region) : Prop := r.base + r.size ≤ s.base ∨ s.base + s.size ≤ r.base

/-- Inclusion of regions. -/
def Within (r s : Region) : Prop := s.base ≤ r.base ∧ r.base + r.size ≤ s.base + s.size

instance (r s : Region) : Decidable (r.Disjoint s) := by unfold Disjoint; infer_instance

theorem Disjoint.symm {r s : Region} (h : r.Disjoint s) : s.Disjoint r := Or.symm h

theorem Disjoint.mono {r s r' s' : Region} (h : r.Disjoint s) (hr : r'.Within r)
    (hs : s'.Within s) : r'.Disjoint s' := by
  unfold Disjoint Within at *
  omega

/-- Disjoint regions share no address. -/
theorem Disjoint.not_contains {r s : Region} (h : r.Disjoint s) {x : ℕ} (hx : r.Contains x) :
    ¬ s.Contains x := by
  unfold Disjoint Contains at *
  omega

end Region

/-- Byte-addressed memory. -/
abbrev Mem := BitVec 32 → BitVec 8

namespace Mem

/-- The little-endian word at an address. -/
def load32 (m : Mem) (a : BitVec 32) : BitVec 32 :=
  m (a + 3) ++ m (a + 2) ++ m (a + 1) ++ m a

/-- Storing a word, least significant byte first. -/
def store32 (m : Mem) (a v : BitVec 32) : Mem := fun x =>
  if x = a then v.extractLsb' 0 8
  else if x = a + 1 then v.extractLsb' 8 8
  else if x = a + 2 then v.extractLsb' 16 8
  else if x = a + 3 then v.extractLsb' 24 8
  else m x

/-- Storing one byte. -/
def store8 (m : Mem) (a : BitVec 32) (v : BitVec 8) : Mem := fun x => if x = a then v else m x

/-- Two memories hold the same bytes in a region. -/
def AgreeOn (m m' : Mem) (r : Region) : Prop := ∀ x : BitVec 32, r.Contains x.toNat → m x = m' x

theorem AgreeOn.refl (m : Mem) (r : Region) : AgreeOn m m r := fun _ _ => rfl

theorem AgreeOn.symm {m m' : Mem} {r : Region} (h : AgreeOn m m' r) : AgreeOn m' m r :=
  fun x hx => (h x hx).symm

theorem AgreeOn.trans {m m' m'' : Mem} {r : Region} (h : AgreeOn m m' r)
    (h' : AgreeOn m' m'' r) : AgreeOn m m'' r :=
  fun x hx => (h x hx).trans (h' x hx)

theorem AgreeOn.mono {m m' : Mem} {r s : Region} (h : AgreeOn m m' r) (hs : s.Within r) :
    AgreeOn m m' s := by
  intro x hx
  apply h
  unfold Region.Contains Region.Within at *
  omega

/-- The region of the word at an address. -/
def wordAt (a : BitVec 32) : Region := ⟨a.toNat, 4⟩

/-- A load depends only on the four bytes of its word. -/
theorem load32_congr {m m' : Mem} {a : BitVec 32} (ha : a.toNat + 4 ≤ 2 ^ 32)
    (h : AgreeOn m m' (wordAt a)) : m.load32 a = m'.load32 a := by
  have hbyte : ∀ k : ℕ, k < 4 → m (a + BitVec.ofNat 32 k) = m' (a + BitVec.ofNat 32 k) := by
    intro k hk
    apply h
    simp only [Region.Contains, wordAt, BitVec.toNat_add, BitVec.toNat_ofNat]
    omega
  have h0 := hbyte 0 (by decide)
  have h1 := hbyte 1 (by decide)
  have h2 := hbyte 2 (by decide)
  have h3 := hbyte 3 (by decide)
  simp only [BitVec.add_zero] at h0
  simp only [load32, h0]
  exact congrArg₂ _ (congrArg₂ _ (congrArg₂ _ h3 h2) h1) rfl

/-- Loading the word just stored. -/
@[simp] theorem load32_store32_same (m : Mem) (a v : BitVec 32) :
    (m.store32 a v).load32 a = v := by
  have h1 : a + 1 ≠ a := by bv_omega
  have h2 : a + 2 ≠ a ∧ a + 2 ≠ a + 1 := by constructor <;> bv_omega
  have h3 : a + 3 ≠ a ∧ a + 3 ≠ a + 1 ∧ a + 3 ≠ a + 2 := by refine ⟨?_, ?_, ?_⟩ <;> bv_omega
  simp only [load32, store32, h1, h2, h3, if_true, if_false]
  apply BitVec.eq_of_getLsbD_eq
  intro i hi
  simp only [BitVec.getLsbD_append, BitVec.getLsbD_extractLsb']
  by_cases hi0 : i < 8
  · simp [hi0]
  by_cases hi1 : i < 16
  · simp [hi0, show i - 8 < 8 by omega, show 8 + (i - 8) = i by omega]
  by_cases hi2 : i < 24
  · simp [hi0, show ¬ i - 8 < 8 by omega, show i - 8 - 8 < 8 by omega,
      show 16 + (i - 8 - 8) = i by omega]
  · simp [hi0, show ¬ i - 8 < 8 by omega, show ¬ i - 8 - 8 < 8 by omega,
      show i - 8 - 8 - 8 < 8 by omega, show 24 + (i - 8 - 8 - 8) = i by omega]

/-- A store changes only the four bytes of its word. -/
theorem store32_agreeOn {m : Mem} {a v : BitVec 32} {r : Region} (ha : a.toNat + 4 ≤ 2 ^ 32)
    (h : (wordAt a).Disjoint r) : AgreeOn (m.store32 a v) m r := by
  intro x hx
  have hout := h.symm.not_contains hx
  simp only [Region.Contains, wordAt] at hout
  have h0 : x ≠ a := by rintro rfl; omega
  have h1 : x ≠ a + 1 := by rintro rfl; simp only [BitVec.toNat_add] at hout; simp at hout; omega
  have h2 : x ≠ a + 2 := by rintro rfl; simp only [BitVec.toNat_add] at hout; simp at hout; omega
  have h3 : x ≠ a + 3 := by rintro rfl; simp only [BitVec.toNat_add] at hout; simp at hout; omega
  simp only [store32, h0, h1, h2, h3, if_false]

/-- Loading a word disjoint from the one stored. -/
theorem load32_store32_of_disjoint {m : Mem} {a b v : BitVec 32} (ha : a.toNat + 4 ≤ 2 ^ 32)
    (hb : b.toNat + 4 ≤ 2 ^ 32) (h : (wordAt a).Disjoint (wordAt b)) :
    (m.store32 a v).load32 b = m.load32 b :=
  load32_congr hb (store32_agreeOn ha h)

/-- Every byte of a word is zero, hence so is the word. -/
theorem load32_eq_zero {m : Mem} {a : BitVec 32} (ha : a.toNat + 4 ≤ 2 ^ 32)
    (h : ∀ x : BitVec 32, (wordAt a).Contains x.toNat → m x = 0) : m.load32 a = 0 := by
  have hzero : m.load32 a = load32 (fun _ => 0) a := load32_congr ha h
  rw [hzero]
  simp [load32]

end Mem

end CLib
