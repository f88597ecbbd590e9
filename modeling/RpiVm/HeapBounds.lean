import RpiVm.Heap

/-!
# Requests near the end of memory

The allocator computes modulo `2 ^ 32` and checks only the alignment, and `is_pow2`
lets zero pass. A request that it admits is answered safely exactly when the alignment
is no zero and the exact end of the block lies below `2 ^ 32`.
-/

namespace RpiVm

open CLib

/-- `is_pow2` lets powers of two pass, and zero. -/
theorem isPow2_iff {x : BitVec 32} :
    isPow2 x = true ↔ x = 0 ∨ ∃ k < 32, x = BitVec.twoPow 32 k := by
  constructor
  · intro h
    by_cases hx : x = 0
    · exact Or.inl hx
    have hne : x.toNat ≠ 0 := fun hzero => hx (BitVec.eq_of_toNat_eq hzero)
    have hle := Nat.log2_self_le hne
    have hlt : x.toNat < 2 ^ (x.toNat.log2 + 1) := Nat.lt_log2_self
    have hk : x.toNat.log2 < 32 := (Nat.log2_lt hne).mpr x.isLt
    refine Or.inr ⟨x.toNat.log2, hk, BitVec.eq_of_toNat_eq ?_⟩
    rw [BitVec.toNat_twoPow_of_lt hk]
    -- otherwise the highest bit stays when one is subtracted, and `-x` has it cleared
    by_contra hpow
    have hsub : (x - 1).toNat = x.toNat - 1 := by bv_omega
    have hneg : -x = ~~~(x - 1) := by
      rw [BitVec.neg_eq_not_add]
      exact BitVec.not_sub_one_eq_not_add_one.symm
    have hbit : x.getLsbD x.toNat.log2 = true :=
      Nat.testBit_of_two_pow_le_and_two_pow_add_one_gt hle hlt
    have hbit' : (x - 1).getLsbD x.toNat.log2 = true := by
      rw [BitVec.getLsbD, hsub]
      exact Nat.testBit_of_two_pow_le_and_two_pow_add_one_gt (by omega) (by omega)
    rw [isPow2, beq_iff_eq, hneg] at h
    have hclear : (x &&& ~~~(x - 1)).getLsbD x.toNat.log2 = x.getLsbD x.toNat.log2 :=
      congrArg (BitVec.getLsbD · x.toNat.log2) h
    rw [BitVec.getLsbD_and, BitVec.getLsbD_not, hbit', hbit] at hclear
    simp at hclear
  · rintro (rfl | ⟨k, hk, rfl⟩)
    · decide
    · exact isPow2_twoPow hk

/-- `roundup` to a power of two is exact or wraps to zero. -/
theorem toNat_roundup_twoPow_of_wrap {x : BitVec 32} {k : ℕ} (hk : k < 32)
    (hwrap : 2 ^ 32 ≤ x.toNat + (2 ^ k - 1)) : (roundup x (BitVec.twoPow 32 k)).toNat = 0 := by
  have hx := x.isLt
  have hpow : 2 ^ k ≤ 2 ^ 32 := Nat.pow_le_pow_right (by decide) hk.le
  have hsum : (x.toNat + (2 ^ k - 1)) % 2 ^ 32 < 2 ^ k := by omega
  rw [roundup, toNat_and_not_twoPow_sub_one _ hk, BitVec.toNat_add, toNat_twoPow_sub_one hk,
    Nat.div_eq_of_lt hsum, Nat.zero_mul]

/-! ## Safe answers -/

namespace AllocCall

/-- The call passes the demand on its alignment. -/
def Admitted : AllocCall → Prop
  | kmalloc _ => True
  | kmallocAligned _ alignment => isPow2 alignment = true

/-- If the call returns, its region lies at or above the old end of the heap, does not wrap,
and lies below the new end. -/
def Safe (s : State) (c : AllocCall) : Prop :=
  ∀ p s', c.exec s = .ok (p, s') → s.heap.toNat ≤ p.toNat ∧
    p.toNat + c.nbytes.toNat ≤ 2 ^ 32 ∧ p.toNat + c.nbytes.toNat ≤ s'.heap.toNat

/-- The alignment is no zero, unless the heap is still at zero. -/
def AlignmentOk (h : ℕ) : AllocCall → Prop
  | kmalloc _ => True
  | kmallocAligned _ alignment => alignment = 0 → h = 0

/-- The exact end of the block lies below `2 ^ 32`, and the alignment is no zero. -/
def Fits (h : ℕ) (c : AllocCall) : Prop := c.AlignmentOk h ∧ c.endFrom h < 2 ^ 32

end AllocCall

/-- `kmalloc` reserves what it was asked for exactly when the exact end fits. -/
theorem kmalloc_reserves_iff (s : State) (sz : BitVec 32) :
    s.heap.toNat + sz.toNat ≤ (kmalloc s sz).2.heap.toNat ↔
      kmallocEnd s.heap.toNat sz.toNat < 2 ^ 32 := by
  constructor
  · intro h
    by_contra hwrap
    have hsz := sz.isLt
    have hheap := s.heap.isLt
    have hnew : (kmalloc s sz).2.heap.toNat =
        (s.heap.toNat + (roundup sz 8).toNat) % 2 ^ 32 := BitVec.toNat_add _ _
    have height : (8 : BitVec 32) = BitVec.twoPow 32 3 := by decide
    unfold kmallocEnd at hwrap
    by_cases hround : sz.toNat + 7 < 2 ^ 32
    · have hexact : (roundup sz 8).toNat = roundUpNat sz.toNat 8 := by
        rw [height]
        exact toNat_roundup_twoPow (by decide) hround
      have hlt := (roundup sz 8).isLt
      omega
    · have hzero : (roundup sz 8).toNat = 0 := by
        rw [height]
        exact toNat_roundup_twoPow_of_wrap (by decide) (by omega)
      omega
  · intro hfit
    have hend := (kmalloc_allocated hfit).2.heap_eq
    have hle : sz.toNat ≤ roundUpNat sz.toNat 8 := le_roundUpNat (by decide)
    omega

/-- `kmalloc_aligned` with an alignment that it admits returns what `kmalloc` does on the
rounded heap. -/
theorem kmallocAligned_eq {s : State} {nbytes alignment : BitVec 32}
    (h : isPow2 alignment = true) : kmallocAligned s nbytes alignment =
      .ok (kmalloc { s with heap := roundup s.heap alignment } nbytes) := by
  have haligned : isAligned (roundup s.heap alignment) alignment = true := by
    rcases isPow2_iff.mp h with rfl | ⟨k, hk, rfl⟩
    · simp [isAligned, roundup]
    · rw [isAligned_twoPow _ hk, roundup, toNat_and_not_twoPow_sub_one _ hk]
      exact Nat.mul_mod_left _ _
  exact bind_eq_ok.mpr ⟨(), demand_eq_ok.mpr h, bind_eq_ok.mpr ⟨(), demand_eq_ok.mpr haligned, rfl⟩⟩

/-- A block that `kmalloc` puts at `b` is answered safely exactly when `b` is not below the old
end of the heap and the exact end fits. -/
theorem kmalloc_safe_iff (s : State) (b nbytes : BitVec 32) :
    (s.heap.toNat ≤ b.toNat ∧ b.toNat + nbytes.toNat ≤ 2 ^ 32 ∧
      b.toNat + nbytes.toNat ≤ (kmalloc { s with heap := b } nbytes).2.heap.toNat) ↔
      s.heap.toNat ≤ b.toNat ∧ kmallocEnd b.toNat nbytes.toNat < 2 ^ 32 := by
  have hreserves := kmalloc_reserves_iff { s with heap := b } nbytes
  have hlt := (kmalloc { s with heap := b } nbytes).2.heap.isLt
  constructor
  · rintro ⟨hle, _, hend⟩
    exact ⟨hle, hreserves.mp hend⟩
  · rintro ⟨hle, hfit⟩
    have hend := hreserves.mpr hfit
    exact ⟨hle, hend.trans hlt.le, hend⟩

/-- Rounding up with an alignment that is admitted stays above exactly when it is exact and
the alignment is no zero. -/
theorem roundup_safe_iff {h a : BitVec 32} (ha : isPow2 a = true) (n : ℕ) :
    (h.toNat ≤ (roundup h a).toNat ∧ kmallocEnd (roundup h a).toNat n < 2 ^ 32) ↔
      (a = 0 → h.toNat = 0) ∧ kmallocEnd (roundUpNat h.toNat a.toNat) n < 2 ^ 32 := by
  rcases isPow2_iff.mp ha with rfl | ⟨k, hk, rfl⟩
  · have hzero : (roundup h 0).toNat = 0 := by simp [roundup]
    have hnat : roundUpNat h.toNat (0 : BitVec 32).toNat = 0 := by simp [roundUpNat]
    rw [hzero, hnat, Nat.le_zero]
    simp only [forall_const]
  · have hpow : (BitVec.twoPow 32 k).toNat = 2 ^ k := BitVec.toNat_twoPow_of_lt hk
    have hle : h.toNat ≤ roundUpNat h.toNat (2 ^ k) := le_roundUpNat (Nat.two_pow_pos k)
    have hne : BitVec.twoPow 32 k ≠ 0 := by
      intro heq
      have hpos := Nat.two_pow_pos k
      rw [← hpow, heq] at hpos
      exact absurd hpos (by decide)
    rw [hpow]
    by_cases hwrap : h.toNat + (2 ^ k - 1) < 2 ^ 32
    · rw [toNat_roundup_twoPow hk hwrap]
      exact and_congr_left fun _ => iff_of_true hle fun heq => absurd heq hne
    · have hbig : ¬ roundUpNat h.toNat (2 ^ k) < 2 ^ 32 :=
        fun hlt => hwrap (add_lt_of_roundUpNat_lt hk.le hlt)
      have hpos : 2 ^ k < 2 ^ 32 := Nat.pow_lt_pow_right (by decide) hk
      rw [toNat_roundup_twoPow_of_wrap hk (by omega)]
      unfold kmallocEnd
      omega

namespace AllocCall

/-- Of every call, from every state: it answers safely exactly when it fits or is not
admitted. -/
theorem safe_iff {s : State} {c : AllocCall} :
    c.Safe s ↔ (c.Admitted → c.Fits s.heap.toNat) := by
  have hreturns {q : BitVec 32 × State} (hexec : c.exec s = .ok q) : c.Safe s ↔
      s.heap.toNat ≤ q.1.toNat ∧ q.1.toNat + c.nbytes.toNat ≤ 2 ^ 32 ∧
        q.1.toNat + c.nbytes.toNat ≤ q.2.heap.toNat := by
    constructor
    · intro h
      exact h _ _ hexec
    · rintro h p s' hok
      obtain rfl := Except.ok.inj (hexec.symm.trans hok)
      exact h
  cases c with
  | kmalloc sz =>
    rw [hreturns rfl]
    have hsafe := kmalloc_safe_iff s s.heap sz
    simp only [le_rfl, true_and] at hsafe
    simp only [Admitted, Fits, AlignmentOk, forall_const, true_and]
    exact (and_iff_right le_rfl).trans hsafe
  | kmallocAligned nbytes alignment =>
    by_cases hadm : isPow2 alignment = true
    · rw [hreturns (kmallocAligned_eq hadm)]
      have hsafe := kmalloc_safe_iff s (roundup s.heap alignment) nbytes
      have hround := roundup_safe_iff (h := s.heap) hadm nbytes.toNat
      simp only [Admitted, hadm, forall_const]
      exact hsafe.trans hround
    · refine iff_of_true ?_ fun h => absurd h hadm
      intro p s' hok
      obtain ⟨_, hdemand, _⟩ := bind_eq_ok.mp hok
      exact absurd (demand_eq_ok.mp hdemand) hadm

/-- An alignment of zero passes the demand, and moves the heap to zero. -/
theorem zero_alignment_unsafe :
    ∃ p s', (kmallocAligned 4 0).exec ⟨fun _ => 1, 0x140000#32, 0x140000#32, [], []⟩ =
      .ok (p, s') ∧ p = 0 ∧ s'.heap = 8 ∧ s'.mem 0 = 0 ∧
      ¬ (kmallocAligned 4 0).Safe ⟨fun _ => 1, 0x140000#32, 0x140000#32, [], []⟩ := by
  refine ⟨_, _, kmallocAligned_eq (by decide), by decide, by decide, by decide, ?_⟩
  intro h
  have hle := (h _ _ (kmallocAligned_eq (by decide))).1
  exact absurd hle (by decide)

end AllocCall

end RpiVm
