import RpiVm.Lib.Memory

/-!
# Copies of memory

Bytes or words copied one after the other in ascending order. The regions may overlap: a
copy then reads what it has written. Word by word it still leaves what it leaves byte by
byte, if the distance of the regions is a multiple of a word.
-/

namespace CLib.Mem

/-- The first `n` bytes of a copy. -/
def copyBytes (m : Mem) (dst src : BitVec 32) : ℕ → Mem
  | 0 => m
  | n + 1 =>
    let m' := copyBytes m dst src n
    m'.store8 (dst + BitVec.ofNat 32 n) (m' (src + BitVec.ofNat 32 n))

/-- The first `n` words of a copy. -/
def copyWords (m : Mem) (dst src : BitVec 32) : ℕ → Mem
  | 0 => m
  | n + 1 =>
    let m' := copyWords m dst src n
    m'.store32 (dst + 4 * BitVec.ofNat 32 n) (m'.load32 (src + 4 * BitVec.ofNat 32 n))

variable {m : Mem} {dst src : BitVec 32}

/-! ## Bytes -/

/-- Different offsets lead to different addresses. -/
theorem add_ofNat_inj {a : BitVec 32} {i j : ℕ} (hi : i < 2 ^ 32) (hj : j < 2 ^ 32) :
    a + BitVec.ofNat 32 i = a + BitVec.ofNat 32 j ↔ i = j := by
  rw [BitVec.add_right_inj]
  constructor
  · intro h
    have hnat := congrArg BitVec.toNat h
    rwa [BitVec.toNat_ofNat, BitVec.toNat_ofNat, Nat.mod_eq_of_lt hi, Nat.mod_eq_of_lt hj] at hnat
  · rintro rfl
    rfl

/-- One address further. -/
theorem add_ofNat_succ (a : BitVec 32) (i : ℕ) :
    a + BitVec.ofNat 32 (i + 1) = a + 1 + BitVec.ofNat 32 i := by
  rw [BitVec.add_assoc, Nat.add_comm, BitVec.ofNat_add]
  rfl

/-- The offset of a word. -/
theorem four_mul_ofNat (i : ℕ) : (4 : BitVec 32) * BitVec.ofNat 32 i = BitVec.ofNat 32 (4 * i) :=
  (BitVec.ofNat_mul 4 i).symm

/-- A copy of bytes leaves every other address. -/
theorem copyBytes_of_ne {n : ℕ} {x : BitVec 32} (h : ∀ k < n, x ≠ dst + BitVec.ofNat 32 k) :
    copyBytes m dst src n x = m x := by
  induction n with
  | zero => rfl
  | succ n ih =>
    rw [copyBytes]
    exact (if_neg (h n (Nat.lt_succ_self n))).trans (ih fun k hk => h k (Nat.lt_succ_of_lt hk))

/-- A byte of the copy is the byte that was read when it was its turn. -/
theorem copyBytes_at {n j : ℕ} (hj : j < n) (hn : n ≤ 2 ^ 32) :
    copyBytes m dst src n (dst + BitVec.ofNat 32 j) =
      copyBytes m dst src j (src + BitVec.ofNat 32 j) := by
  induction n with
  | zero => exact absurd hj (Nat.not_lt_zero j)
  | succ n ih =>
    rw [copyBytes]
    rcases Nat.lt_succ_iff_lt_or_eq.mp hj with hlt | rfl
    · have hne : dst + BitVec.ofNat 32 j ≠ dst + BitVec.ofNat 32 n := fun h =>
        hlt.ne ((add_ofNat_inj (by omega) (by omega)).mp h)
      exact (if_neg hne).trans (ih hlt (by omega))
    · exact if_pos rfl

/-- A copy goes on behind its first bytes. -/
theorem copyBytes_add (k n : ℕ) : copyBytes m dst src (k + n) =
    copyBytes (copyBytes m dst src k) (dst + BitVec.ofNat 32 k) (src + BitVec.ofNat 32 k) n := by
  induction n with
  | zero => rfl
  | succ n ih =>
    rw [← Nat.add_assoc, copyBytes, ih, copyBytes, BitVec.add_assoc, BitVec.add_assoc,
      ← BitVec.ofNat_add]

/-- A copy of bytes that does not wrap around changes no byte outside its region. -/
theorem copyBytes_of_not_contains {n : ℕ} (hfit : dst.toNat + n ≤ 2 ^ 32) {x : BitVec 32}
    (hx : ¬ Region.Contains ⟨dst.toNat, n⟩ x.toNat) : copyBytes m dst src n x = m x := by
  refine copyBytes_of_ne fun k hk => ?_
  rintro rfl
  refine hx ?_
  have hvalue : (dst + BitVec.ofNat 32 k).toNat = dst.toNat + k := by
    rw [BitVec.toNat_add, BitVec.toNat_ofNat]
    omega
  rw [hvalue]
  exact ⟨Nat.le_add_right _ _, Nat.add_lt_add_left hk _⟩

/-! ## Words -/

/-- The bytes of a stored word. -/
theorem store32_at (m : Mem) (a v : BitVec 32) {j : ℕ} (hj : j < 4) :
    m.store32 a v (a + BitVec.ofNat 32 j) = v.extractLsb' (8 * j) 8 := by
  have h1 : a + 1 ≠ a := by bv_omega
  have h2 : a + 2 ≠ a ∧ a + 2 ≠ a + 1 := by constructor <;> bv_omega
  have h3 : a + 3 ≠ a ∧ a + 3 ≠ a + 1 ∧ a + 3 ≠ a + 2 := by refine ⟨?_, ?_, ?_⟩ <;> bv_omega
  interval_cases j
  · simp [store32]
  · exact (if_neg h1).trans (if_pos rfl)
  · exact (if_neg h2.1).trans ((if_neg h2.2).trans (if_pos rfl))
  · exact (if_neg h3.1).trans ((if_neg h3.2.1).trans ((if_neg h3.2.2).trans (if_pos rfl)))

/-- The other bytes. -/
theorem store32_of_ne (m : Mem) (a v : BitVec 32) {x : BitVec 32}
    (h : ∀ j < 4, x ≠ a + BitVec.ofNat 32 j) : m.store32 a v x = m x := by
  have h0 : x ≠ a := by simpa using h 0 (by decide)
  have h1 : x ≠ a + 1 := h 1 (by decide)
  have h2 : x ≠ a + 2 := h 2 (by decide)
  have h3 : x ≠ a + 3 := h 3 (by decide)
  simp only [store32, h0, h1, h2, h3, if_false]

/-- A word no byte of which is a byte of the stored word is loaded as before. -/
theorem load32_store32_of_ne (m : Mem) (a v : BitVec 32) {b : BitVec 32}
    (h : ∀ j < 4, ∀ k < 4, b + BitVec.ofNat 32 j ≠ a + BitVec.ofNat 32 k) :
    (m.store32 a v).load32 b = m.load32 b := by
  have hbyte {j : ℕ} (hj : j < 4) :
      m.store32 a v (b + BitVec.ofNat 32 j) = m (b + BitVec.ofNat 32 j) :=
    store32_of_ne m a v (h j hj)
  have h0 : m.store32 a v b = m b := by simpa using hbyte (show 0 < 4 by decide)
  have h1 : m.store32 a v (b + 1) = m (b + 1) := hbyte (show 1 < 4 by decide)
  have h2 : m.store32 a v (b + 2) = m (b + 2) := hbyte (show 2 < 4 by decide)
  have h3 : m.store32 a v (b + 3) = m (b + 3) := hbyte (show 3 < 4 by decide)
  rw [load32, load32, h0, h1, h2, h3]

/-- The bytes of a loaded word. -/
theorem extractLsb'_load32 (m : Mem) (a : BitVec 32) {j : ℕ} (hj : j < 4) :
    (m.load32 a).extractLsb' (8 * j) 8 = m (a + BitVec.ofNat 32 j) := by
  apply BitVec.eq_of_getLsbD_eq
  intro i hi
  simp only [load32, BitVec.getLsbD_extractLsb', BitVec.getLsbD_append, hi, decide_true,
    Bool.true_and]
  interval_cases j
  · rw [if_pos (by omega), Nat.mul_zero, Nat.zero_add, BitVec.add_zero]
  · rw [if_neg (by omega), if_pos (by omega), show 8 * 1 + i - 8 = i by omega]
    rfl
  · rw [if_neg (by omega), if_neg (by omega), if_pos (by omega),
      show 8 * 2 + i - 8 - 8 = i by omega]
    rfl
  · rw [if_neg (by omega), if_neg (by omega), if_neg (by omega),
      show 8 * 3 + i - 8 - 8 - 8 = i by omega]
    rfl

/-- A word is copied like its four bytes, unless a byte is read that was written before. -/
theorem store32_load32_eq {a b : BitVec 32}
    (h : ∀ j k : ℕ, k < j → j < 4 → b + BitVec.ofNat 32 j ≠ a + BitVec.ofNat 32 k) :
    m.store32 a (m.load32 b) = copyBytes m a b 4 := by
  funext x
  by_cases hx : ∃ j < 4, x = a + BitVec.ofNat 32 j
  · obtain ⟨j, hj, rfl⟩ := hx
    rw [store32_at m a _ hj, extractLsb'_load32 m b hj, copyBytes_at hj (by decide),
      copyBytes_of_ne fun k hk => h j k hk hj]
  · have hne : ∀ j < 4, x ≠ a + BitVec.ofNat 32 j := fun j hj heq => hx ⟨j, hj, heq⟩
    rw [store32_of_ne m a _ hne, copyBytes_of_ne hne]

/-- Word by word a copy leaves the memory that it leaves byte by byte, if source and destination
lie equally in their words. -/
theorem copyWords_eq (h : dst.toNat % 4 = src.toNat % 4) (n : ℕ) :
    copyWords m dst src n = copyBytes m dst src (4 * n) := by
  induction n with
  | zero => rfl
  | succ n ih =>
    rw [Nat.mul_succ, copyBytes_add, ← ih, copyWords, four_mul_ofNat]
    refine store32_load32_eq fun j k hk hj heq => ?_
    have hnat := congrArg BitVec.toNat heq
    simp only [BitVec.toNat_add, BitVec.toNat_ofNat] at hnat
    omega

/-- The address of a word of an array that does not wrap around. -/
theorem toNat_add_ofNat_mul {a : BitVec 32} {i n : ℕ} (hi : i < n)
    (hfit : a.toNat + 4 * n ≤ 2 ^ 32) :
    (a + BitVec.ofNat 32 (4 * i)).toNat = a.toNat + 4 * i := by
  rw [BitVec.toNat_add, BitVec.toNat_ofNat]
  omega

/-- A copy of words leaves every word apart from its destination. -/
theorem load32_copyWords_of_disjoint {n : ℕ} {b : BitVec 32} (hdst : dst.toNat + 4 * n ≤ 2 ^ 32)
    (hb : b.toNat + 4 ≤ 2 ^ 32) (h : Region.Disjoint ⟨dst.toNat, 4 * n⟩ (wordAt b)) :
    (copyWords m dst src n).load32 b = m.load32 b := by
  induction n with
  | zero => rfl
  | succ n ih =>
    have haddr := toNat_add_ofNat_mul (a := dst) (Nat.lt_succ_self n) hdst
    have hword : (wordAt (dst + BitVec.ofNat 32 (4 * n))).Disjoint (wordAt b) :=
      h.mono ⟨by simp only [wordAt]; omega, by simp only [wordAt]; omega⟩ ⟨le_rfl, le_rfl⟩
    rw [copyWords, four_mul_ofNat, load32_store32_of_disjoint (by omega) hb hword]
    exact ih (by omega) (h.mono ⟨le_rfl, by simp only; omega⟩ ⟨le_rfl, le_rfl⟩)

/-- Where the regions are apart, the words of the destination are those of the source. -/
theorem load32_copyWords {n i : ℕ} (hi : i < n) (hdst : dst.toNat + 4 * n ≤ 2 ^ 32)
    (hsrc : src.toNat + 4 * n ≤ 2 ^ 32)
    (h : Region.Disjoint ⟨dst.toNat, 4 * n⟩ ⟨src.toNat, 4 * n⟩) :
    (copyWords m dst src n).load32 (dst + BitVec.ofNat 32 (4 * i)) =
      m.load32 (src + BitVec.ofNat 32 (4 * i)) := by
  induction n with
  | zero => exact absurd hi (Nat.not_lt_zero i)
  | succ n ih =>
    have hfirst : Region.Disjoint ⟨dst.toNat, 4 * n⟩ ⟨src.toNat, 4 * n⟩ :=
      h.mono ⟨le_rfl, by simp only; omega⟩ ⟨le_rfl, by simp only; omega⟩
    rw [copyWords, four_mul_ofNat]
    rcases Nat.lt_succ_iff_lt_or_eq.mp hi with hlt | rfl
    · have haddr := toNat_add_ofNat_mul (a := dst) (Nat.lt_succ_self n) hdst
      have hbefore := toNat_add_ofNat_mul (a := dst) hi hdst
      have hword : (wordAt (dst + BitVec.ofNat 32 (4 * n))).Disjoint
          (wordAt (dst + BitVec.ofNat 32 (4 * i))) := Or.inr (by simp only [wordAt]; omega)
      rw [load32_store32_of_disjoint (by omega) (by omega) hword]
      exact ih hlt (by omega) (by omega) hfirst
    · have hsource := toNat_add_ofNat_mul (a := src) hi hsrc
      rw [load32_store32_same]
      refine load32_copyWords_of_disjoint (by omega) (by omega) (h.mono ⟨le_rfl, ?_⟩ ⟨?_, ?_⟩)
      · simp only
        omega
      · simp only [wordAt]
        omega
      · simp only [wordAt]
        omega

end CLib.Mem
