import RpiVm.Env.Bvec
import RpiVm.Lib.Copy
import RpiVm.Lib.FreeList

/-!
# Pools as free lists

A vector made for the integers of a range holds, after any calls, exactly those that are not
handed out, wherever on the heap its array lies: addresses are taken modulo `2 ^ 32`, and below
`2 ^ 30` elements the words of an array are apart from each other all the same.
-/

namespace RpiVm

open CLib Transition

/-! ## The code -/

/-- `bvec_free` in place: how it ends, and the vector and the memory that it leaves. -/
def bvecFreeInPlace (s : State) (b : Bvec) (x : BitVec 32) : Except Panic Unit × Bvec × State :=
  match demand (b.nLeft < b.nTot) "b->n_left < b->n_tot" "too many freed" with
  | .error e => (.error e, b, s)
  | .ok () =>
    if (List.range b.nLeft.toNat).any fun i => s.mem.load32 (b.elmAddr i) == x then
      (.error (.message "double free of %x\n"), b, s)
    else
      let s := s.store32 (b.elmAddr b.nLeft.toNat) x
      let b := { b with nLeft := b.nLeft + 1 }
      (.ok (), b, s)

/-- In place `bvec_free` does what it does, and a panic leaves the vector and the memory. -/
theorem bvecFreeInPlace_eq (s : State) (b : Bvec) (x : BitVec 32) :
    bvecFreeInPlace s b x =
      match bvecFree s b x with
      | .ok p => (.ok (), p)
      | .error e => (.error e, b, s) := by
  unfold bvecFreeInPlace bvecFree
  cases demand (b.nLeft < b.nTot) "b->n_left < b->n_tot" "too many freed" with
  | error e => rfl
  | ok u =>
    dsimp only [Bind.bind, Except.bind]
    split_ifs with hany
    · rfl
    · rfl

/-- A call, or what the rest of the kernel does in between. -/
inductive BvecCall where
  /-- `bvec_alloc(b)`. -/
  | alloc
  /-- `bvec_free(b, x)`. -/
  | free (x : BitVec 32)
  /-- Code that leaves the array. -/
  | other
  deriving DecidableEq, Repr

/-- A vector and the memory, with a record of the identifiers that are handed out. -/
structure IdPool where
  /-- The vector. -/
  b : Bvec
  /-- The memory. -/
  s : State
  /-- Returned by `bvec_alloc` and not given back since, latest first. -/
  out : List (BitVec 32)

/-- Calls that return, on a pool for the integers from `lb` up to, not including, `ub`. -/
inductive IdPool.Step (lb ub : BitVec 32) : IdPool → BvecCall → IdPool → Prop
  | alloc {p : IdPool} {v : BitVec 32} {b : Bvec} (hok : bvecAlloc p.s p.b = .ok (v, b)) :
      Step lb ub p .alloc ⟨b, p.s, if v = bvecExhausted then p.out else v :: p.out⟩
  | free {p : IdPool} {x : BitVec 32} {b : Bvec} {s : State} (hlb : lb ≤ x) (hub : x < ub)
      (hok : bvecFree p.s p.b x = .ok (b, s)) :
      Step lb ub p (.free x) ⟨b, s, p.out.erase x⟩
  | other {p : IdPool} {s : State}
      (harray : ∀ i < p.b.nTot.toNat,
        s.mem.load32 (p.b.elmAddr i) = p.s.mem.load32 (p.b.elmAddr i)) :
      Step lb ub p .other ⟨p.b, s, p.out⟩

/-! ## The array -/

/-- The words of an array of less than `2 ^ 30` elements are apart. -/
theorem Bvec.load32_store32_elmAddr (b : Bvec) (m : Mem) (v : BitVec 32) {i j : ℕ} (hij : i ≠ j)
    (hi : i < 2 ^ 30) (hj : j < 2 ^ 30) :
    (m.store32 (b.elmAddr i) v).load32 (b.elmAddr j) = m.load32 (b.elmAddr j) := by
  refine Mem.load32_store32_of_ne m _ v fun k hk l hl heq => hij ?_
  have h4 : (4 : BitVec 32).toNat = 4 := rfl
  have hnat := congrArg BitVec.toNat heq
  simp only [elmAddr, BitVec.toNat_add, BitVec.toNat_mul, BitVec.toNat_ofNat, h4] at hnat
  omega

variable {lb ub : BitVec 32}

/-- The integers that `bvec_mk` puts into the array are those of the range. -/
theorem mem_initialIds (hlt : lb < ub) {x : BitVec 32} :
    x ∈ initialIds ub (ub - lb).toNat ↔ lb ≤ x ∧ x < ub := by
  rw [initialIds, List.mem_map]
  constructor
  · rintro ⟨i, hi, rfl⟩
    have hrange := List.mem_range.mp hi
    have hvalue : (BitVec.ofNat 32 i).toNat = i := by rw [BitVec.toNat_ofNat]; omega
    constructor <;> bv_omega
  · rintro ⟨hlb, hub⟩
    refine ⟨(ub - x - 1).toNat, List.mem_range.mpr (by bv_omega), ?_⟩
    rw [BitVec.ofNat_toNat, BitVec.setWidth_eq]
    bv_omega

/-- They are different. -/
theorem nodup_initialIds (ub : BitVec 32) {n : ℕ} (hn : n ≤ 2 ^ 32) : (initialIds ub n).Nodup := by
  induction n with
  | zero => exact List.nodup_nil
  | succ n ih =>
    rw [initialIds_succ]
    refine List.Nodup.append (ih (by omega)) (List.nodup_singleton _) ?_
    rw [List.disjoint_singleton]
    exact not_mem_initialIds ub (by omega)

/-- Their number. -/
theorem length_initialIds (ub : BitVec 32) (n : ℕ) : (initialIds ub n).length = n := by
  rw [initialIds, List.length_map, List.length_range]

/-- The loop of `bvec_mk` puts one integer after the other into the array. -/
theorem bvecMkLoop_contents (ub : BitVec 32) {b : Bvec} (s : State) (hempty : b.nLeft = 0)
    (hsmall : b.nTot.toNat < 2 ^ 30) {n : ℕ} (hn : n ≤ b.nTot.toNat) :
    ∃ b' s', bvecMkLoop ub n b s = .ok (b', s') ∧ b'.contents s'.mem = initialIds ub n ∧
      b'.nTot = b.nTot := by
  induction n with
  | zero =>
    refine ⟨b, s, rfl, ?_, rfl⟩
    rw [Bvec.contents, hempty]
    rfl
  | succ n ih =>
    obtain ⟨b₁, s₁, hok, hcontents, htot⟩ := ih (by omega)
    have hleft : b₁.nLeft.toNat = n := by
      rw [← b₁.length_contents s₁.mem, hcontents, length_initialIds]
    have hroom : b₁.nLeft < b₁.nTot := by
      rw [htot]
      bv_omega
    have hfresh : ub - BitVec.ofNat 32 n - 1 ∉ b₁.contents s₁.mem := by
      rw [hcontents]
      exact not_mem_initialIds ub (by omega)
    obtain ⟨hfree, hnext⟩ := bvecFree_of_contents hroom hfresh fun i hi =>
      b₁.load32_store32_elmAddr _ _ (by omega) (by omega) (by omega)
    have hloop : bvecMkLoop ub (n + 1) b s = bvecFree s₁ b₁ (ub - BitVec.ofNat 32 n - 1) := by
      rw [bvecMkLoop] at hok ⊢
      rw [List.range_succ, List.foldlM_append, ok_bind hok]
      exact bind_pure _
    refine ⟨_, _, hloop.trans hfree, ?_, htot⟩
    rw [hnext, hcontents, initialIds_succ]

/-! ## The invariant -/

/-- The array holds what is not handed out. -/
structure IdPool.Inv (lb ub : BitVec 32) (p : IdPool) : Prop where
  /-- There is room for the whole range. -/
  nTot_eq : p.b.nTot = ub - lb
  /-- The range is split into the elements of the array and what is handed out. -/
  splits : Splits (initialIds ub (ub - lb).toNat) (p.b.contents p.s.mem) p.out

variable {p : IdPool}

/-- There are no more elements than there is room. -/
theorem IdPool.Inv.nLeft_le (h : p.Inv lb ub) : p.b.nLeft.toNat ≤ p.b.nTot.toNat := by
  have hlength := h.splits.perm.length_eq
  rw [List.length_append, Bvec.length_contents, length_initialIds] at hlength
  rw [h.nTot_eq]
  omega

/-- An empty vector is exhausted, and stays as it is. -/
theorem bvecAlloc_of_empty {s : State} {b : Bvec} (h : b.contents s.mem = []) :
    bvecAlloc s b = .ok (bvecExhausted, b) := by
  have hzero : b.nLeft = 0 := by
    apply BitVec.eq_of_toNat_eq
    rw [← b.length_contents s.mem, h]
    rfl
  rw [bvecAlloc, if_pos (beq_iff_eq.mpr hzero)]
  rfl

/-- A free identifier is not the exhausted value. -/
theorem IdPool.Inv.ne_exhausted (h : p.Inv lb ub) (hlt : lb < ub) {x : BitVec 32}
    (hx : x ∈ p.b.contents p.s.mem) : x ≠ bvecExhausted := by
  obtain ⟨-, hub⟩ := (mem_initialIds hlt).mp (h.splits.mem_free_iff.mp hx).1
  rintro rfl
  have hvalue : bvecExhausted.toNat = 2 ^ 32 - 1 := rfl
  bv_omega

/-- What is in the array is not freed again. -/
theorem bvecFree_of_mem {s : State} {b : Bvec} {x : BitVec 32} (hx : x ∈ b.contents s.mem) :
    ∃ e, bvecFree s b x = .error e := by
  cases hfree : bvecFree s b x with
  | error e => exact ⟨e, rfl⟩
  | ok q =>
    exfalso
    obtain ⟨i, hi, hvalue⟩ := List.mem_map.mp hx
    have hany : ((List.range b.nLeft.toNat).any fun i => s.mem.load32 (b.elmAddr i) == x) = true :=
      List.any_eq_true.mpr ⟨i, hi, beq_iff_eq.mpr hvalue⟩
    unfold bvecFree at hfree
    obtain ⟨-, -, hrest⟩ := bind_eq_ok.mp hfree
    rw [if_pos hany] at hrest
    cases hrest

/-- What is handed out can be given back. -/
theorem IdPool.Inv.free (h : p.Inv lb ub) (hsmall : (ub - lb).toNat < 2 ^ 30) {x : BitVec 32}
    (hx : x ∈ p.out) :
    ∃ b s, bvecFree p.s p.b x = .ok (b, s) ∧ IdPool.Inv lb ub ⟨b, s, p.out.erase x⟩ := by
  have hlt := h.splits.length_free_lt hx
  rw [Bvec.length_contents, length_initialIds, ← h.nTot_eq] at hlt
  have hnot : x ∉ p.b.contents p.s.mem := fun hfree => h.splits.not_mem_out hfree hx
  have htot := congrArg BitVec.toNat h.nTot_eq
  obtain ⟨hok, hcontents⟩ := bvecFree_of_contents (by bv_omega) hnot fun i hi =>
    p.b.load32_store32_elmAddr _ _ (by omega) (by omega) (by omega)
  refine ⟨_, _, hok, h.nTot_eq, ?_⟩
  have hsplits := h.splits.give hx
  rwa [← hcontents] at hsplits

/-- A free identifier can be handed out. -/
theorem IdPool.Inv.alloc (h : p.Inv lb ub) {l : List (BitVec 32)} {x : BitVec 32}
    (hl : p.b.contents p.s.mem = l ++ [x]) :
    ∃ b, bvecAlloc p.s p.b = .ok (x, b) ∧ IdPool.Inv lb ub ⟨b, p.s, x :: p.out⟩ := by
  obtain ⟨hok, hcontents⟩ := bvecAlloc_of_contents hl
  refine ⟨_, hok, h.nTot_eq, ?_⟩
  have hsplits := h.splits
  rw [hl] at hsplits
  have htaken := hsplits.take
  rwa [← hcontents] at htaken

/-- Every call that returns keeps the split. -/
theorem IdPool.Inv.step (hlt : lb < ub) (hsmall : (ub - lb).toNat < 2 ^ 30) {p p' : IdPool}
    {c : BvecCall} (h : p.Inv lb ub) (hstep : IdPool.Step lb ub p c p') : p'.Inv lb ub := by
  cases hstep with
  | @alloc v b hok =>
    rcases List.eq_nil_or_concat (p.b.contents p.s.mem) with hnil | ⟨l, x, hl⟩
    · have hsame := (bvecAlloc_of_empty hnil).symm.trans hok
      obtain ⟨rfl, rfl⟩ := Prod.mk.inj (Except.ok.inj hsame)
      rw [if_pos rfl]
      exact h
    · rw [List.concat_eq_append] at hl
      obtain ⟨b', hok', hnext⟩ := h.alloc hl
      obtain ⟨rfl, rfl⟩ := ok_pair_unique hok' hok
      have hmem : x ∈ p.b.contents p.s.mem := by rw [hl]; simp
      rw [if_neg (h.ne_exhausted hlt hmem)]
      exact hnext
  | @free x b s hlb hub hok =>
    have hout : x ∈ p.out := by
      by_contra hnot
      have hmem := h.splits.mem_free_iff.mpr ⟨(mem_initialIds hlt).mpr ⟨hlb, hub⟩, hnot⟩
      obtain ⟨e, herr⟩ := bvecFree_of_mem hmem
      rw [herr] at hok
      cases hok
    obtain ⟨b', s', hok', hnext⟩ := h.free hsmall hout
    obtain ⟨rfl, rfl⟩ := ok_pair_unique hok' hok
    exact hnext
  | @other s harray =>
    refine ⟨h.nTot_eq, ?_⟩
    have hsame : p.b.contents s.mem = p.b.contents p.s.mem :=
      List.map_congr_left fun i hi => harray i ((List.mem_range.mp hi).trans_le h.nLeft_le)
    rw [hsame]
    exact h.splits

/-- `bvec_mk` makes a pool nothing of which is handed out. -/
theorem bvecMk_inv (s : State) (hlt : lb < ub) (hsmall : (ub - lb).toNat < 2 ^ 30) :
    ∃ b s', bvecMk s lb ub = .ok (b, s') ∧ IdPool.Inv lb ub ⟨b, s', []⟩ := by
  obtain ⟨b, s', hok, hcontents, htot⟩ := bvecMkLoop_contents ub
    (b := ⟨ub - lb, 0, (kmalloc s ((ub - lb) * 4)).1⟩) (kmalloc s ((ub - lb) * 4)).2 rfl hsmall
    le_rfl
  refine ⟨b, s', ?_, htot, ?_⟩
  · unfold bvecMk
    exact bind_eq_ok.mpr ⟨(), assert_eq_ok.mpr (decide_eq_true hlt), hok⟩
  · rw [hcontents]
    exact .initial (nodup_initialIds ub (by omega))

/-! ## Exactness -/

/-- The vector of a pool is an exact free list. -/
structure IdPool.Exact (lb ub : BitVec 32) (p : IdPool) : Prop where
  /-- The elements are different. -/
  nodup : (p.b.contents p.s.mem).Nodup
  /-- They are the integers of the range that are not handed out. -/
  mem_iff : ∀ x, x ∈ p.b.contents p.s.mem ↔ (lb ≤ x ∧ x < ub) ∧ x ∉ p.out
  /-- `bvec_alloc` is exhausted exactly if all are handed out. -/
  exhausted_iff : (∃ b, bvecAlloc p.s p.b = .ok (bvecExhausted, b)) ↔
    ∀ x, lb ≤ x → x < ub → x ∈ p.out
  /-- It then changes nothing. -/
  exhausted : (∀ x, lb ≤ x → x < ub → x ∈ p.out) →
    bvecAlloc p.s p.b = .ok (bvecExhausted, p.b)
  /-- Otherwise it returns one that is not handed out. -/
  alloc : (∃ x, lb ≤ x ∧ x < ub ∧ x ∉ p.out) →
    ∃ x b, bvecAlloc p.s p.b = .ok (x, b) ∧ lb ≤ x ∧ x < ub ∧ x ∉ p.out
  /-- `bvec_free` returns exactly if the integer is handed out. -/
  free_iff : ∀ x, lb ≤ x → x < ub → ((∃ q, bvecFree p.s p.b x = .ok q) ↔ x ∈ p.out)
  /-- Otherwise it panics, and has changed neither the vector nor the memory. -/
  panic : ∀ x, lb ≤ x → x < ub → x ∉ p.out →
    ∃ e, bvecFreeInPlace p.s p.b x = (.error e, p.b, p.s)

/-- The split makes the free list exact. -/
theorem IdPool.Inv.exact (hlt : lb < ub) (hsmall : (ub - lb).toNat < 2 ^ 30) (h : p.Inv lb ub) :
    p.Exact lb ub := by
  have hmem (x : BitVec 32) : x ∈ p.b.contents p.s.mem ↔ (lb ≤ x ∧ x < ub) ∧ x ∉ p.out := by
    rw [h.splits.mem_free_iff, mem_initialIds hlt]
  have hnil : p.b.contents p.s.mem = [] ↔ ∀ x, lb ≤ x → x < ub → x ∈ p.out := by
    rw [h.splits.free_eq_nil_iff]
    simp only [mem_initialIds hlt, and_imp]
  -- while something is free, the last element is handed out
  have halloc (hne : p.b.contents p.s.mem ≠ []) :
      ∃ x b, bvecAlloc p.s p.b = .ok (x, b) ∧ x ∈ p.b.contents p.s.mem := by
    obtain ⟨l, x, hl⟩ := (List.eq_nil_or_concat (p.b.contents p.s.mem)).resolve_left hne
    rw [List.concat_eq_append] at hl
    obtain ⟨b, hok, -⟩ := h.alloc hl
    exact ⟨x, b, hok, by rw [hl]; simp⟩
  have hpanic (x : BitVec 32) (hlb : lb ≤ x) (hub : x < ub) (hout : x ∉ p.out) :
      ∃ e, bvecFree p.s p.b x = .error e :=
    bvecFree_of_mem ((hmem x).mpr ⟨⟨hlb, hub⟩, hout⟩)
  refine ⟨h.splits.nodup_free, hmem, ⟨fun hex => ?_, fun hall => ?_⟩, fun hall => ?_,
    fun hsome => ?_, fun x hlb hub => ⟨fun hex => ?_, fun hout => ?_⟩, fun x hlb hub hout => ?_⟩
  · obtain ⟨b, hok⟩ := hex
    by_contra hnot
    obtain ⟨x, b', hok', hx⟩ := halloc fun hempty => hnot (hnil.mp hempty)
    exact h.ne_exhausted hlt hx (ok_pair_unique hok' hok).1
  · exact ⟨p.b, bvecAlloc_of_empty (hnil.mpr hall)⟩
  · exact bvecAlloc_of_empty (hnil.mpr hall)
  · obtain ⟨y, hlb, hub, hout⟩ := hsome
    obtain ⟨x, b, hok, hx⟩ := halloc fun hempty => hout (hnil.mp hempty y hlb hub)
    obtain ⟨⟨hxlb, hxub⟩, hxout⟩ := (hmem x).mp hx
    exact ⟨x, b, hok, hxlb, hxub, hxout⟩
  · obtain ⟨q, hok⟩ := hex
    by_contra hout
    obtain ⟨e, herr⟩ := hpanic x hlb hub hout
    rw [herr] at hok
    cases hok
  · obtain ⟨b, s, hok, -⟩ := h.free hsmall hout
    exact ⟨_, hok⟩
  · obtain ⟨e, herr⟩ := hpanic x hlb hub hout
    exact ⟨e, by rw [bvecFreeInPlace_eq, herr]⟩

/-- Whatever the memory and the heap at the start: `bvec_mk` returns a vector for the integers
from `lb` up to, not including, `ub`, and after any sequence of calls it is an exact free list. -/
theorem bvec_exact (s : State) (hlt : lb < ub) (hsmall : (ub - lb).toNat < 2 ^ 30) :
    ∃ b s', bvecMk s lb ub = .ok (b, s') ∧
      ∀ calls p, Run (IdPool.Step lb ub) ⟨b, s', []⟩ calls p → p.Exact lb ub := by
  obtain ⟨b, s', hok, hinv⟩ := bvecMk_inv s hlt hsmall
  refine ⟨b, s', hok, fun calls p hrun => ?_⟩
  have hreached : p.Inv lb ub :=
    hrun.invariant (fun _ _ _ hi hstep => hi.step hlt hsmall hstep) hinv
  exact hreached.exact hlt hsmall

/-- The domains of the kernel, on a heap at the end of the address space. -/
theorem bvec_exact_domains :
    ∃ b s', bvecMk ⟨fun _ => 0, 0xfffffff0, 0, [], []⟩ 1 16 = .ok (b, s') ∧
      ∀ calls p, Run (IdPool.Step 1 16) ⟨b, s', []⟩ calls p → p.Exact 1 16 :=
  bvec_exact _ (by decide) (by decide)

end RpiVm
