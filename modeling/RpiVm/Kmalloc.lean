import RpiVm.Lib.Memory
import RpiVm.Lib.Panic

/-!
# The bump allocator

`kmalloc` hands out memory from a pointer that only grows, and zeroes it;
`kmalloc_aligned` first rounds the pointer up. Both compute with 32-bit
pointers and sizes. The results here hold while the exact end of the heap, as a
natural number, stays below `2 ^ 32`.
-/

namespace RpiVm

open CLib

/-- The memory of the machine and the variables of the allocator. The last two
fields are a record of the run that no code reads. -/
structure State where
  /-- Physical memory. -/
  mem : Mem
  /-- `heap`: the end of the memory handed out. -/
  heap : BitVec 32
  /-- `heap_start`: where `kmalloc_set_start` last put the heap. -/
  heapStart : BitVec 32
  /-- The blocks that `kmalloc` handed out, latest first. -/
  blocks : List Region
  /-- The regions stored to, latest first. -/
  stores : List Region

/-- The macro `roundup`. -/
def roundup (x n : BitVec 32) : BitVec 32 := (x + (n - 1)) &&& ~~~(n - 1)

/-- The macro `is_aligned`: its second argument is a size, not a number of bits. -/
def isAligned (x a : BitVec 32) : Bool := (x &&& (a - 1)) == 0

/-- The macro `is_pow2`. -/
def isPow2 (x : BitVec 32) : Bool := (x &&& -x) == x

/-- A store of one word. -/
def State.store32 (s : State) (a v : BitVec 32) : State :=
  { s with mem := s.mem.store32 a v, stores := Mem.wordAt a :: s.stores }

/-- The loop of `memset`: `count` bytes from `p` on. -/
def memsetLoop (m : Mem) (p : BitVec 32) (c : BitVec 8) : ℕ → Mem
  | 0 => m
  | count + 1 => memsetLoop (m.store8 p c) (p + 1) c count

/-- `memset`: the loop runs while `p < e` for the 32-bit pointer `e = p + n`. -/
def memset (s : State) (p : BitVec 32) (c : BitVec 8) (n : BitVec 32) : State :=
  let e := p + n
  let count := e.toNat - p.toNat
  { s with mem := memsetLoop s.mem p c count, stores := ⟨p.toNat, count⟩ :: s.stores }

/-- `kmalloc_set_start`. -/
def kmallocSetStart (s : State) (addr : BitVec 32) : State :=
  { s with heap := addr, heapStart := addr }

/-- `kmalloc`: `union align` has eight bytes. -/
def kmalloc (s : State) (sz : BitVec 32) : BitVec 32 × State :=
  let sz := roundup sz 8
  let addr := s.heap
  let s := { s with heap := s.heap + sz, blocks := ⟨addr.toNat, sz.toNat⟩ :: s.blocks }
  (addr, memset s addr 0 sz)

/-- `kmalloc_aligned`. -/
def kmallocAligned (s : State) (nbytes alignment : BitVec 32) :
    Except Panic (BitVec 32 × State) := do
  demand (isPow2 alignment) "is_pow2(alignment)" "assuming power of two"
  let h := roundup s.heap alignment
  demand (isAligned h alignment) "is_aligned(h, alignment)" "impossible"
  pure (kmalloc { s with heap := h } nbytes)

/-! ## Rounding -/

/-- Rounding up to a multiple of `n`, without a bound. -/
def roundUpNat (x n : ℕ) : ℕ := (x + (n - 1)) / n * n

/-- The low mask of a power of two. -/
theorem toNat_twoPow_sub_one {k : ℕ} (hk : k < 32) :
    (BitVec.twoPow 32 k - 1).toNat = 2 ^ k - 1 := by
  have h : ∀ j : Fin 32, (BitVec.twoPow 32 j - 1).toNat = 2 ^ (j : ℕ) - 1 := by decide
  exact h ⟨k, hk⟩

/-- The low mask of a power of two tests the remainder. -/
theorem toNat_and_twoPow_sub_one (x : BitVec 32) {k : ℕ} (hk : k < 32) :
    (x &&& (BitVec.twoPow 32 k - 1)).toNat = x.toNat % 2 ^ k := by
  rw [BitVec.toNat_and, toNat_twoPow_sub_one hk, Nat.and_two_pow_sub_one_eq_mod]

/-- A word is the sum of the parts inside and outside a mask. -/
theorem toNat_and_not_add_toNat_and (x mask : BitVec 32) :
    (x &&& ~~~mask).toNat + (x &&& mask).toNat = x.toNat := by
  have hdisjoint : (x &&& ~~~mask) &&& (x &&& mask) = 0 := by
    ext i
    simp only [BitVec.getElem_and, BitVec.getElem_not]
    cases mask[i] <;> simp
  have hjoin : (x &&& ~~~mask) ||| (x &&& mask) = x := by
    ext i
    simp only [BitVec.getElem_or, BitVec.getElem_and, BitVec.getElem_not]
    cases mask[i] <;> simp
  rw [← BitVec.toNat_add_of_and_eq_zero hdisjoint, BitVec.add_eq_or_of_and_eq_zero _ _ hdisjoint,
    hjoin]

/-- Clearing the bits below a power of two rounds down. -/
theorem toNat_and_not_twoPow_sub_one (x : BitVec 32) {k : ℕ} (hk : k < 32) :
    (x &&& ~~~(BitVec.twoPow 32 k - 1)).toNat = x.toNat / 2 ^ k * 2 ^ k := by
  have hsplit := toNat_and_not_add_toNat_and x (BitVec.twoPow 32 k - 1)
  have hmod := toNat_and_twoPow_sub_one x hk
  have hdiv := Nat.div_add_mod x.toNat (2 ^ k)
  rw [Nat.mul_comm] at hdiv
  omega

/-- `is_aligned` with a power of two tests divisibility. -/
theorem isAligned_twoPow (x : BitVec 32) {k : ℕ} (hk : k < 32) :
    isAligned x (BitVec.twoPow 32 k) = true ↔ x.toNat % 2 ^ k = 0 := by
  rw [isAligned, beq_iff_eq, ← toNat_and_twoPow_sub_one x hk]
  exact ⟨fun h => by rw [h]; rfl, fun h => BitVec.eq_of_toNat_eq h⟩

/-- Multiples of a power of two pass `is_aligned` with any mask of low bits. -/
theorem isAligned_of_mod {x a : BitVec 32} {k : ℕ} (hk : k < 32)
    (ha : (BitVec.twoPow 32 k - 1) &&& (a - 1) = a - 1) (hx : x.toNat % 2 ^ k = 0) :
    isAligned x a = true := by
  have hlow : x &&& (BitVec.twoPow 32 k - 1) = 0 :=
    BitVec.eq_of_toNat_eq (by rw [toNat_and_twoPow_sub_one x hk]; exact hx)
  rw [isAligned, beq_iff_eq, ← ha, ← BitVec.and_assoc, hlow]
  exact BitVec.zero_and

/-- `roundup` to a power of two is exact while the sum does not wrap. -/
theorem toNat_roundup_twoPow {x : BitVec 32} {k : ℕ} (hk : k < 32)
    (hfit : x.toNat + (2 ^ k - 1) < 2 ^ 32) :
    (roundup x (BitVec.twoPow 32 k)).toNat = roundUpNat x.toNat (2 ^ k) := by
  rw [roundup, toNat_and_not_twoPow_sub_one _ hk, BitVec.toNat_add, toNat_twoPow_sub_one hk,
    Nat.mod_eq_of_lt hfit, roundUpNat]

/-- Every power of two passes `is_pow2`. -/
theorem isPow2_twoPow {k : ℕ} (hk : k < 32) : isPow2 (BitVec.twoPow 32 k) = true := by
  have h : ∀ j : Fin 32, isPow2 (BitVec.twoPow 32 j) = true := by decide
  exact h ⟨k, hk⟩

/-- Rounding up does not go down. -/
theorem le_roundUpNat {x n : ℕ} (hn : 0 < n) : x ≤ roundUpNat x n := by
  have h := Nat.div_add_mod (x + (n - 1)) n
  have hlt := Nat.mod_lt (x + (n - 1)) hn
  rw [Nat.mul_comm] at h
  unfold roundUpNat
  omega

/-- Rounding up yields a multiple. -/
theorem roundUpNat_mod (x n : ℕ) : roundUpNat x n % n = 0 := by
  simp [roundUpNat]

/-! ## What an allocation does -/

/-- The loop of `memset` sets the bytes it counts and no other. -/
theorem memsetLoop_apply (m : Mem) (p : BitVec 32) (c : BitVec 8) (count : ℕ)
    (hfit : p.toNat + count ≤ 2 ^ 32) (x : BitVec 32) :
    memsetLoop m p c count x =
      if p.toNat ≤ x.toNat ∧ x.toNat < p.toNat + count then c else m x := by
  induction count generalizing m p with
  | zero => rw [memsetLoop, if_neg (by omega)]
  | succ count ih =>
    rw [memsetLoop]
    by_cases hlast : p.toNat + 1 = 2 ^ 32
    · obtain rfl : count = 0 := by omega
      have hx : x = p ↔ p.toNat ≤ x.toNat ∧ x.toNat < p.toNat + 1 := by
        rw [← BitVec.toNat_inj]
        omega
      simp only [memsetLoop, Mem.store8, Nat.zero_add, hx]
    · have hnext : (p + 1).toNat = p.toNat + 1 := by bv_omega
      rw [ih _ _ (by omega), hnext]
      by_cases hx : x = p
      · subst hx
        rw [if_neg (by omega), if_pos (by omega)]
        simp [Mem.store8]
      · have hne : x.toNat ≠ p.toNat := fun h => hx (BitVec.eq_of_toNat_eq h)
        simp only [Mem.store8, if_neg hx]
        congr 1
        simp only [eq_iff_iff]
        omega

/-- The effect of a call that hands out `size` bytes at `p`: they lie above the
old end of the heap, are zeroed, and become the end of the heap. -/
structure Allocated (s s' : State) (p : BitVec 32) (size : ℕ) : Prop where
  /-- The block starts at or after the old end of the heap. -/
  le_base : s.heap.toNat ≤ p.toNat
  /-- The heap now ends where the block does. -/
  heap_eq : s'.heap.toNat = p.toNat + size
  /-- Every byte of the block is zero. -/
  zero : ∀ x : BitVec 32, Region.Contains ⟨p.toNat, size⟩ x.toNat → s'.mem x = 0
  /-- No other byte changes. -/
  frame : ∀ r, Region.Disjoint ⟨p.toNat, size⟩ r → Mem.AgreeOn s'.mem s.mem r
  /-- The block is recorded. -/
  blocks_eq : s'.blocks = ⟨p.toNat, size⟩ :: s.blocks
  /-- The only store is the zeroing. -/
  stores_eq : s'.stores = ⟨p.toNat, size⟩ :: s.stores
  /-- The start of the heap stays. -/
  heapStart_eq : s'.heapStart = s.heapStart

/-- The end of the heap after `kmalloc(sz)`, without a bound. -/
def kmallocEnd (h sz : ℕ) : ℕ := h + roundUpNat sz 8

/-- The end of the heap after `kmalloc_aligned(nbytes, 2 ^ k)`, without a bound. -/
def kmallocAlignedEnd (h nbytes k : ℕ) : ℕ := kmallocEnd (roundUpNat h (2 ^ k)) nbytes

/-- An allocation does not lower the end of the heap. -/
theorem le_kmallocAlignedEnd (h nbytes k : ℕ) : h ≤ kmallocAlignedEnd h nbytes k :=
  (le_roundUpNat (Nat.two_pow_pos k)).trans (Nat.le_add_right _ _)

/-- `kmalloc` hands out the rounded size at the old end of the heap. -/
theorem kmalloc_allocated {s : State} {sz : BitVec 32}
    (hfit : kmallocEnd s.heap.toNat sz.toNat < 2 ^ 32) :
    (kmalloc s sz).1 = s.heap ∧
      Allocated s (kmalloc s sz).2 s.heap (roundUpNat sz.toNat 8) := by
  have hle : sz.toNat + 7 < 2 ^ 32 := by
    unfold kmallocEnd roundUpNat at hfit
    omega
  have hsz : (roundup sz 8).toNat = roundUpNat sz.toNat 8 := by
    have height : (8 : BitVec 32) = BitVec.twoPow 32 3 := by decide
    rw [height]
    exact toNat_roundup_twoPow (by decide) hle
  have hend : (s.heap + roundup sz 8).toNat = s.heap.toNat + roundUpNat sz.toNat 8 := by
    rw [BitVec.toNat_add, hsz]
    exact Nat.mod_eq_of_lt hfit
  have hcount : (s.heap + roundup sz 8).toNat - s.heap.toNat = roundUpNat sz.toNat 8 := by omega
  refine ⟨rfl, ⟨le_rfl, hend, ?_, ?_, ?_, ?_, rfl⟩⟩
  · intro x hx
    have hx' := memsetLoop_apply s.mem s.heap 0 (roundUpNat sz.toNat 8) (Nat.le_of_lt hfit) x
    simp only [kmalloc, memset, hcount]
    rw [hx']
    exact if_pos hx
  · intro r hr x hx
    have hx' := memsetLoop_apply s.mem s.heap 0 (roundUpNat sz.toNat 8) (Nat.le_of_lt hfit) x
    simp only [kmalloc, memset, hcount]
    rw [hx']
    exact if_neg (hr.symm.not_contains hx)
  · simp only [kmalloc, memset, hsz]
  · simp only [kmalloc, memset, hcount]

/-- A multiple below `2 ^ 32` was rounded up without wrapping. -/
theorem add_lt_of_roundUpNat_lt {x k : ℕ} (hk : k ≤ 32) (h : roundUpNat x (2 ^ k) < 2 ^ 32) :
    x + (2 ^ k - 1) < 2 ^ 32 := by
  have hpow : 2 ^ 32 = 2 ^ (32 - k) * 2 ^ k := by rw [← Nat.pow_add]; congr 1; omega
  by_contra hge
  have hdiv : 2 ^ (32 - k) ≤ (x + (2 ^ k - 1)) / 2 ^ k := by
    rw [Nat.le_div_iff_mul_le (Nat.two_pow_pos k)]
    omega
  have hmul := Nat.mul_le_mul_right (2 ^ k) hdiv
  unfold roundUpNat at h
  omega

/-- `kmalloc_aligned` with a power of two hands out an aligned block. -/
theorem kmallocAligned_allocated {s : State} (nbytes : BitVec 32) {k : ℕ} (hk : k < 32)
    (hfit : kmallocAlignedEnd s.heap.toNat nbytes.toNat k < 2 ^ 32) :
    ∃ p s', kmallocAligned s nbytes (BitVec.twoPow 32 k) = .ok (p, s') ∧
      p.toNat = roundUpNat s.heap.toNat (2 ^ k) ∧
      Allocated s s' p (roundUpNat nbytes.toNat 8) := by
  have hpos : 0 < 2 ^ k := Nat.two_pow_pos k
  have hround : roundUpNat s.heap.toNat (2 ^ k) < 2 ^ 32 := by
    unfold kmallocAlignedEnd kmallocEnd at hfit
    omega
  have hsum := add_lt_of_roundUpNat_lt hk.le hround
  have hh : (roundup s.heap (BitVec.twoPow 32 k)).toNat = roundUpNat s.heap.toNat (2 ^ k) :=
    toNat_roundup_twoPow hk hsum
  have haligned : isAligned (roundup s.heap (BitVec.twoPow 32 k)) (BitVec.twoPow 32 k) = true := by
    rw [isAligned_twoPow _ hk, hh, roundUpNat_mod]
  have hfit' : kmallocEnd (roundup s.heap (BitVec.twoPow 32 k)).toNat nbytes.toNat < 2 ^ 32 := by
    rw [hh]
    exact hfit
  have halloc := kmalloc_allocated (s := { s with heap := roundup s.heap (BitVec.twoPow 32 k) }) hfit'
  refine ⟨_, _, ?_, hh, ⟨?_, halloc.2.heap_eq, halloc.2.zero, halloc.2.frame, halloc.2.blocks_eq,
    halloc.2.stores_eq, halloc.2.heapStart_eq⟩⟩
  · simp [kmallocAligned, isPow2_twoPow hk, haligned, demand, Bind.bind, Except.bind, Pure.pure,
      Except.pure]
    rfl
  · show s.heap.toNat ≤ (roundup s.heap (BitVec.twoPow 32 k)).toNat
    rw [hh]
    exact le_roundUpNat hpos

end RpiVm
