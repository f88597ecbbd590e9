import RpiVm.Mmu.World

/-!
# Pools of identifiers

`bvec.c` keeps the identifiers that are free in an array on the heap and uses
it as a stack. What a vector holds is the list of its first `n_left` elements;
each operation is shown to act on that list.
-/

namespace RpiVm

open CLib

/-- `bvec_t`. -/
structure Bvec where
  /-- `n_tot`. -/
  nTot : BitVec 32
  /-- `n_left`. -/
  nLeft : BitVec 32
  /-- `elm`. -/
  elm : BitVec 32
  deriving DecidableEq, Repr

/-- The address of `b->elm[i]`. -/
def Bvec.elmAddr (b : Bvec) (i : ℕ) : BitVec 32 := b.elm + 4 * BitVec.ofNat 32 i

/-- What `bvec_alloc` returns when nothing is left: `-1`. -/
def bvecExhausted : BitVec 32 := -1

/-- `bvec_alloc`. -/
def bvecAlloc (s : State) (b : Bvec) : Except Panic (BitVec 32 × Bvec) := do
  if b.nLeft == 0 then pure (bvecExhausted, b)
  else
    demand (0 < b.nLeft) "b->n_left > 0" "ran out!"
    let b := { b with nLeft := b.nLeft - 1 }
    pure (s.mem.load32 (b.elmAddr b.nLeft.toNat), b)

/-- `bvec_free`. -/
def bvecFree (s : State) (b : Bvec) (x : BitVec 32) : Except Panic (Bvec × State) := do
  demand (b.nLeft < b.nTot) "b->n_left < b->n_tot" "too many freed"
  if (List.range b.nLeft.toNat).any fun i => s.mem.load32 (b.elmAddr i) == x then
    throw (.message "double free of %x\n")
  else
    pure ({ b with nLeft := b.nLeft + 1 }, s.store32 (b.elmAddr b.nLeft.toNat) x)

/-- The loop of `bvec_mk`: the first `n` of its frees. -/
def bvecMkLoop (ub : BitVec 32) (n : ℕ) (b : Bvec) (s : State) : Except Panic (Bvec × State) :=
  (List.range n).foldlM (fun p i => bvecFree p.2 p.1 (ub - BitVec.ofNat 32 i - 1)) (b, s)

/-- `bvec_mk`. -/
def bvecMk (s : State) (lb ub : BitVec 32) : Except Panic (Bvec × State) := do
  assert (lb < ub) "ub>lb"
  let n := ub - lb
  let (elm, s) := kmalloc s (n * 4)
  bvecMkLoop ub n.toNat ⟨n, 0, elm⟩ s

/-! ## What a vector holds -/

/-- The free identifiers, in the order of the array. -/
def Bvec.contents (b : Bvec) (m : Mem) : List (BitVec 32) :=
  (List.range b.nLeft.toNat).map fun i => m.load32 (b.elmAddr i)

/-- The array of a vector. -/
def Bvec.region (b : Bvec) : Region := ⟨b.elm.toNat, 4 * b.nTot.toNat⟩

/-- A vector whose array does not wrap around holds a list. -/
structure Bvec.Holds (b : Bvec) (m : Mem) (l : List (BitVec 32)) : Prop where
  /-- The array ends below `2 ^ 32`. -/
  fits : b.elm.toNat + 4 * b.nTot.toNat ≤ 2 ^ 32
  /-- No more elements than the array has room for. -/
  nLeft_le : b.nLeft.toNat ≤ b.nTot.toNat
  /-- The elements. -/
  contents_eq : b.contents m = l

variable {b : Bvec} {m m' : Mem} {l : List (BitVec 32)}

/-- The number of elements that the array holds. -/
theorem Bvec.length_contents (b : Bvec) (m : Mem) : (b.contents m).length = b.nLeft.toNat := by
  rw [contents, List.length_map, List.length_range]

/-- The length of the list. -/
theorem Bvec.Holds.length_eq (h : b.Holds m l) : l.length = b.nLeft.toNat := by
  rw [← h.contents_eq, length_contents]

/-- An element's address, without wrapping around. -/
theorem Bvec.Holds.elmAddr_toNat (h : b.Holds m l) {i : ℕ} (hi : i < b.nTot.toNat) :
    (b.elmAddr i).toNat = b.elm.toNat + 4 * i := by
  have hfits := h.fits
  have h4 : (4 : BitVec 32).toNat = 4 := rfl
  simp only [elmAddr, BitVec.toNat_add, BitVec.toNat_mul, BitVec.toNat_ofNat, h4]
  omega

/-- An element's word lies in the array. -/
theorem Bvec.Holds.wordAt_within (h : b.Holds m l) {i : ℕ} (hi : i < b.nTot.toNat) :
    (Mem.wordAt (b.elmAddr i)).Within b.region := by
  have haddr := h.elmAddr_toNat hi
  simp only [Region.Within, Mem.wordAt, region]
  omega

/-- An element's word does not wrap around. -/
theorem Bvec.Holds.elmAddr_add_le (h : b.Holds m l) {i : ℕ} (hi : i < b.nTot.toNat) :
    (b.elmAddr i).toNat + 4 ≤ 2 ^ 32 := by
  have haddr := h.elmAddr_toNat hi
  have hfits := h.fits
  omega

/-- What a vector holds depends only on its array. -/
theorem Bvec.Holds.congr (h : b.Holds m l) (hagree : Mem.AgreeOn m m' b.region) :
    b.Holds m' l := by
  refine ⟨h.fits, h.nLeft_le, ?_⟩
  rw [← h.contents_eq, contents, contents]
  apply List.map_congr_left
  intro i hi
  have hlt : i < b.nTot.toNat := (List.mem_range.mp hi).trans_le h.nLeft_le
  exact (Mem.load32_congr (h.elmAddr_add_le hlt) (hagree.mono (h.wordAt_within hlt))).symm

/-- `bvec_alloc` takes the last element of the array. -/
theorem bvecAlloc_of_contents {s : State} {x : BitVec 32} (h : b.contents s.mem = l ++ [x]) :
    bvecAlloc s b = .ok (x, { b with nLeft := b.nLeft - 1 }) ∧
      Bvec.contents { b with nLeft := b.nLeft - 1 } s.mem = l := by
  have hlen : b.nLeft.toNat = l.length + 1 := by
    rw [← b.length_contents s.mem, h, List.length_append, List.length_singleton]
  have hne : (b.nLeft == 0) = false := by
    rw [beq_eq_false_iff_ne]
    intro hzero
    rw [hzero] at hlen
    simp at hlen
  have hpred : (b.nLeft - 1).toNat = l.length := by bv_omega
  have hsplit : b.contents s.mem = (List.range l.length).map
      (fun i => s.mem.load32 (b.elmAddr i)) ++ [s.mem.load32 (b.elmAddr l.length)] := by
    rw [Bvec.contents, hlen, List.range_succ, List.map_append, List.map_singleton]
  obtain ⟨hinit, hlast⟩ := List.append_inj' (hsplit.symm.trans h) (by simp)
  constructor
  · have hpos : decide (0 < b.nLeft) = true := decide_eq_true (by bv_omega)
    have hvalue : s.mem.load32 (Bvec.elmAddr { b with nLeft := b.nLeft - 1 } l.length) = x :=
      List.singleton_inj.mp hlast
    unfold bvecAlloc
    rw [hne]
    refine bind_eq_ok.mpr ⟨(), demand_eq_ok.mpr hpos, ?_⟩
    simp only [hpred, hvalue]
    rfl
  · rw [Bvec.contents]
    simp only [hpred]
    exact hinit

/-- `bvec_free` appends an identifier that is not there, while there is room and its word is apart
from the words before. -/
theorem bvecFree_of_contents {s : State} {x : BitVec 32} (hroom : b.nLeft < b.nTot)
    (hx : x ∉ b.contents s.mem)
    (hapart : ∀ i < b.nLeft.toNat, (s.mem.store32 (b.elmAddr b.nLeft.toNat) x).load32
      (b.elmAddr i) = s.mem.load32 (b.elmAddr i)) :
    bvecFree s b x =
        .ok ({ b with nLeft := b.nLeft + 1 }, s.store32 (b.elmAddr b.nLeft.toNat) x) ∧
      Bvec.contents { b with nLeft := b.nLeft + 1 } (s.store32 (b.elmAddr b.nLeft.toNat) x).mem =
        b.contents s.mem ++ [x] := by
  constructor
  · have hnone : ((List.range b.nLeft.toNat).any fun i => s.mem.load32 (b.elmAddr i) == x) =
        false := by
      rw [← Bool.not_eq_true, List.any_eq_true]
      rintro ⟨i, hi, heq⟩
      exact hx (List.mem_map.mpr ⟨i, hi, beq_iff_eq.mp heq⟩)
    unfold bvecFree
    refine bind_eq_ok.mpr ⟨(), demand_eq_ok.mpr (decide_eq_true hroom), ?_⟩
    rw [hnone]
    rfl
  · have hsucc : (b.nLeft + 1).toNat = b.nLeft.toNat + 1 := by
      have htot := b.nTot.isLt
      bv_omega
    rw [Bvec.contents, Bvec.contents]
    simp only [hsucc, List.range_succ, List.map_append, List.map_singleton]
    refine congrArg₂ (· ++ ·) ?_ (congrArg (fun v => [v]) (Mem.load32_store32_same _ _ _))
    exact List.map_congr_left fun i hi => hapart i (List.mem_range.mp hi)

/-- `bvec_alloc` pops the last element. -/
theorem bvecAlloc_concat {s : State} {x : BitVec 32} (h : b.Holds s.mem (l ++ [x])) :
    ∃ b', bvecAlloc s b = .ok (x, b') ∧ b'.Holds s.mem l ∧ b'.region = b.region := by
  obtain ⟨hok, hcontents⟩ := bvecAlloc_of_contents h.contents_eq
  refine ⟨_, hok, ⟨h.fits, ?_, hcontents⟩, rfl⟩
  have hlen := h.length_eq
  have hle := h.nLeft_le
  rw [List.length_append, List.length_singleton] at hlen
  have hpred : (b.nLeft - 1).toNat = l.length := by bv_omega
  simp only
  omega

/-- `bvec_free` pushes an identifier that is not there, while there is room. -/
theorem bvecFree_concat {s : State} {x : BitVec 32} (h : b.Holds s.mem l) (hx : x ∉ l)
    (hroom : l.length < b.nTot.toNat) :
    ∃ b', bvecFree s b x = .ok (b', s.store32 (b.elmAddr l.length) x) ∧
      b'.Holds (s.store32 (b.elmAddr l.length) x).mem (l ++ [x]) ∧
      b'.elm = b.elm ∧ b'.nTot = b.nTot := by
  have hlen := h.length_eq
  have htot := b.nTot.isLt
  have hapart : ∀ i < b.nLeft.toNat, (s.mem.store32 (b.elmAddr b.nLeft.toNat) x).load32
      (b.elmAddr i) = s.mem.load32 (b.elmAddr i) := by
    intro i hi
    rw [← hlen] at hi ⊢
    have h1 := h.elmAddr_toNat hroom
    have h2 := h.elmAddr_toNat (hi.trans hroom)
    apply Mem.load32_store32_of_disjoint (h.elmAddr_add_le hroom)
      (h.elmAddr_add_le (hi.trans hroom))
    exact Or.inr (by simp only [Mem.wordAt]; omega)
  rw [← h.contents_eq] at hx
  obtain ⟨hok, hcontents⟩ := bvecFree_of_contents (by bv_omega) hx hapart
  rw [h.contents_eq] at hcontents
  rw [hlen]
  refine ⟨_, hok, ⟨h.fits, ?_, hcontents⟩, rfl, rfl⟩
  have hsucc : (b.nLeft + 1).toNat = l.length + 1 := by bv_omega
  simp only [hsucc]
  omega

/-! ## Making a vector -/

/-- The integers from `lb` up to, not including, `ub`, last one first: what
`bvec_mk` leaves in the array. -/
def initialIds (ub : BitVec 32) (n : ℕ) : List (BitVec 32) :=
  (List.range n).map fun i => ub - BitVec.ofNat 32 i - 1

/-- An identifier that the loop frees is not among the ones before it. -/
theorem not_mem_initialIds (ub : BitVec 32) {n : ℕ} (hn : n < 2 ^ 32) :
    ub - BitVec.ofNat 32 n - 1 ∉ initialIds ub n := by
  intro hmem
  obtain ⟨i, hi, heq⟩ := List.mem_map.mp hmem
  have hlt := List.mem_range.mp hi
  have hi' : (BitVec.ofNat 32 i).toNat = i := by rw [BitVec.toNat_ofNat]; omega
  have hn' : (BitVec.ofNat 32 n).toNat = n := by rw [BitVec.toNat_ofNat]; omega
  bv_omega

/-- One more identifier. -/
theorem initialIds_succ (ub : BitVec 32) (n : ℕ) :
    initialIds ub (n + 1) = initialIds ub n ++ [ub - BitVec.ofNat 32 n - 1] := by
  rw [initialIds, List.range_succ, List.map_append, List.map_singleton, initialIds]

/-- The loop of `bvec_mk` fills the array, which is a client's block, and
leaves the rest of the world. -/
theorem bvecMkLoop_holds {w : World} (hinv : w.Inv) {r : Region}
    (hr : (Owner.client, r) ∈ w.allocs) (hb : b.Holds w.st.mem []) (hregion : b.region.Within r)
    (ub : BitVec 32) {n : ℕ} (hn : n ≤ b.nTot.toNat) :
    ∃ b' s, bvecMkLoop ub n b w.st = .ok (b', s) ∧ World.Inv { w with st := s } ∧
      b'.Holds s.mem (initialIds ub n) ∧ b'.elm = b.elm ∧ b'.nTot = b.nTot ∧
      s.heap = w.st.heap ∧ s.heapStart = w.st.heapStart ∧
      ∀ r', r.Disjoint r' → Mem.AgreeOn s.mem w.st.mem r' := by
  induction n with
  | zero => exact ⟨b, w.st, rfl, hinv, hb, rfl, rfl, rfl, rfl, fun _ _ => Mem.AgreeOn.refl _ _⟩
  | succ n ih =>
    obtain ⟨b₁, s₁, hok, hinv₁, hb₁, helm, htot, hheap, hstart, hframe⟩ := ih (by omega)
    have hlen : (initialIds ub n).length = n := by simp [initialIds]
    have hroom : (initialIds ub n).length < b₁.nTot.toNat := by rw [hlen, htot]; omega
    obtain ⟨b₂, hok₂, hb₂, helm₂, htot₂⟩ :=
      bvecFree_concat hb₁ (not_mem_initialIds ub (by have := b.nTot.isLt; omega)) hroom
    have hword : (Mem.wordAt (b₁.elmAddr (initialIds ub n).length)).Within r := by
      have hin := hb₁.wordAt_within hroom
      have hsame : b₁.region = b.region := by rw [Bvec.region, helm, htot, Bvec.region]
      rw [hsame] at hin
      unfold Region.Within at *
      omega
    refine ⟨b₂, s₁.store32 (b₁.elmAddr (initialIds ub n).length) (ub - BitVec.ofNat 32 n - 1), ?_,
      hinv₁.clientStore hr hword, ?_, helm₂.trans helm, htot₂.trans htot, hheap,
      hstart, ?_⟩
    · rw [bvecMkLoop, List.range_succ, List.foldlM_append]
      exact bind_eq_ok.mpr ⟨(b₁, s₁), hok, bind_eq_ok.mpr ⟨_, hok₂, rfl⟩⟩
    · rw [initialIds_succ]
      exact hb₂
    · intro r' hr'
      exact (Mem.store32_agreeOn (hb₁.elmAddr_add_le hroom)
        (hr'.mono hword ⟨le_rfl, le_rfl⟩)).trans (hframe r' hr')

/-- `bvec_mk` returns a vector that holds its whole range, in a new block. -/
theorem bvecMk_holds {w : World} (hinv : w.Inv) {lb ub : BitVec 32} (hlt : lb < ub)
    (hsmall : (ub - lb).toNat < 2 ^ 30)
    (hfit : kmallocEnd w.st.heap.toNat (4 * (ub - lb).toNat) < 2 ^ 32) :
    ∃ b s, bvecMk w.st lb ub = .ok (b, s) ∧
      World.Inv ⟨s, w.tables,
        (Owner.client, ⟨b.elm.toNat, roundUpNat (4 * (ub - lb).toNat) 8⟩) :: w.allocs⟩ ∧
      b.Holds s.mem (initialIds ub (ub - lb).toNat) ∧ b.elm = w.st.heap ∧ b.nTot = ub - lb ∧
      s.heap.toNat = kmallocEnd w.st.heap.toNat (4 * (ub - lb).toNat) ∧
      s.heapStart = w.st.heapStart ∧
      ∀ r, r.base + r.size ≤ w.st.heap.toNat → Mem.AgreeOn s.mem w.st.mem r := by
  have hbytes : ((ub - lb) * 4).toNat = 4 * (ub - lb).toNat := by
    have h4 : (4 : BitVec 32).toNat = 4 := rfl
    rw [BitVec.toNat_mul, h4]
    omega
  have hround : 4 * (ub - lb).toNat ≤ roundUpNat (4 * (ub - lb).toNat) 8 :=
    le_roundUpNat (by decide)
  have hend : w.st.heap.toNat + roundUpNat (4 * (ub - lb).toNat) 8 < 2 ^ 32 := hfit
  rw [← hbytes] at hfit
  obtain ⟨hp, halloc⟩ := kmalloc_allocated hfit
  rw [hbytes] at halloc
  have hempty : Bvec.Holds ⟨ub - lb, 0, w.st.heap⟩ (kmalloc w.st ((ub - lb) * 4)).2.mem [] :=
    ⟨by simp only; omega, Nat.zero_le _, rfl⟩
  obtain ⟨b, s, hok, hinv', hb, helm, htot, hheap, hstart, hframe⟩ :=
    bvecMkLoop_holds (hinv.allocated halloc .client) (List.mem_cons_self) hempty
      ⟨le_rfl, by simp only [Bvec.region]; omega⟩ ub (n := (ub - lb).toNat) le_rfl
  refine ⟨b, s, ?_, ?_, hb, helm, htot, ?_, hstart.trans halloc.heapStart_eq, ?_⟩
  · unfold bvecMk
    exact bind_eq_ok.mpr ⟨(), assert_eq_ok.mpr (decide_eq_true hlt), hok⟩
  · rw [helm]
    exact hinv'
  · rw [hheap, halloc.heap_eq]
    rfl
  · intro r hr
    have hdisj : Region.Disjoint ⟨w.st.heap.toNat, roundUpNat (4 * (ub - lb).toNat) 8⟩ r :=
      Or.inr hr
    exact (hframe r hdisj).trans (halloc.frame r hdisj)

end RpiVm
