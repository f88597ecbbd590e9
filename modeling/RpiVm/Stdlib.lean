import RpiVm.Lib.Copy

/-!
# Memory and strings

`memcpy` copies words where it can, with the result of a copy byte by byte. `strncmp` stops
at a difference or after its count, not at the end of the strings: of equal strings it
compares what lies behind them.
-/

namespace RpiVm

open CLib

/-! ## The code -/

/-- `aligned4`. -/
def aligned4 (x : BitVec 32) : Bool := x % 4 == 0

/-- `memcpy`: what it returns, and the memory. -/
def memcpy (m : Mem) (dst src nbytes : BitVec 32) : BitVec 32 × Mem :=
  if aligned4 dst && aligned4 src && aligned4 nbytes then
    let n := nbytes / 4
    (dst, m.copyWords dst src n.toNat)
  else (dst, m.copyBytes dst src nbytes.toNat)

/-- The loop of `strncmp`: what it returns, and the addresses that it reads. -/
def strncmpLoop (m : Mem) : ℕ → BitVec 32 → BitVec 32 → ℤ × List (BitVec 32 × BitVec 32)
  | 0, _, _ => (0, [])
  | n + 1, s1, s2 =>
    if m s1 ≠ m s2 then (((m s1).toNat : ℤ) - (m s2).toNat, [(s1, s2)])
    else
      let (v, reads) := strncmpLoop m n (s1 + 1) (s2 + 1)
      (v, (s1, s2) :: reads)

/-- `strncmp`. -/
def strncmp (m : Mem) (s1 s2 n : BitVec 32) : ℤ × List (BitVec 32 × BitVec 32) :=
  strncmpLoop m n.toNat s1 s2

/-! ## Copies -/

/-- `aligned4` tests for a multiple of four. -/
theorem aligned4_iff {x : BitVec 32} : aligned4 x = true ↔ x.toNat % 4 = 0 := by
  rw [aligned4, beq_iff_eq, ← BitVec.toNat_inj, BitVec.toNat_umod]
  rfl

/-- For each memory, all addresses and every length `memcpy` returns the destination and leaves
what an ascending copy byte by byte leaves, also where the regions overlap; outside the destination
it leaves every byte as it was. -/
theorem memcpy_bytewise (m : Mem) (dst src nbytes : BitVec 32)
    (hfit : dst.toNat + nbytes.toNat ≤ 2 ^ 32) :
    memcpy m dst src nbytes = (dst, m.copyBytes dst src nbytes.toNat) ∧
      ∀ x : BitVec 32, ¬ Region.Contains ⟨dst.toNat, nbytes.toNat⟩ x.toNat →
        (memcpy m dst src nbytes).2 x = m x := by
  have hcopy : memcpy m dst src nbytes = (dst, m.copyBytes dst src nbytes.toNat) := by
    rw [memcpy]
    split_ifs with haligned
    · simp only [Bool.and_eq_true, aligned4_iff] at haligned
      obtain ⟨⟨hdst, hsrc⟩, hbytes⟩ := haligned
      have hcount : 4 * (nbytes / 4).toNat = nbytes.toNat := by
        have hdiv : (nbytes / 4).toNat = nbytes.toNat / 4 := BitVec.toNat_udiv
        omega
      dsimp only
      rw [Mem.copyWords_eq (hdst.trans hsrc.symm), hcount]
    · rfl
  refine ⟨hcopy, fun x hx => ?_⟩
  rw [hcopy]
  exact Mem.copyBytes_of_not_contains hfit hx

/-- A copy of two words onto themselves, one word further. -/
theorem memcpy_bytewise_overlap :
    memcpy (fun a => a.setWidth 8) 0x104 0x100 8 =
      (0x104, Mem.copyBytes (fun a => a.setWidth 8) 0x104 0x100 8) ∧
      ∀ x : BitVec 32, ¬ Region.Contains ⟨0x104, 8⟩ x.toNat →
        (memcpy (fun a => a.setWidth 8) 0x104 0x100 8).2 x = x.setWidth 8 :=
  memcpy_bytewise _ 0x104 0x100 8 (by decide)

/-! ## Strings -/

/-- A string lies at an address, with its NUL behind it. -/
structure HoldsString (m : Mem) (p : BitVec 32) (s : List (BitVec 8)) : Prop where
  /-- The characters are no NUL. -/
  nul_not_mem : 0 ∉ s
  /-- The characters and the NUL. -/
  byte : ∀ i ≤ s.length, m (p + BitVec.ofNat 32 i) = s.getD i 0

/-- The addresses of a string and its NUL. -/
def InString (p : BitVec 32) (s : List (BitVec 8)) (x : BitVec 32) : Prop :=
  ∃ i ≤ s.length, x = p + BitVec.ofNat 32 i

/-- The first `n` pairs of addresses. -/
def addressPairs (p q : BitVec 32) (n : ℕ) : List (BitVec 32 × BitVec 32) :=
  (List.range n).map fun i => (p + BitVec.ofNat 32 i, q + BitVec.ofNat 32 i)

variable {m : Mem} {p q : BitVec 32} {s t : List (BitVec 8)}

/-- The pairs behind the first. -/
theorem addressPairs_succ (p q : BitVec 32) (n : ℕ) :
    addressPairs p q (n + 1) = (p, q) :: addressPairs (p + 1) (q + 1) n := by
  rw [addressPairs, List.range_succ_eq_map, List.map_cons, List.map_map, addressPairs,
    BitVec.add_zero, BitVec.add_zero]
  simp only [Function.comp_def, Nat.succ_eq_add_one, Mem.add_ofNat_succ]

/-- Where bytes agree, the first do. -/
theorem agree_head {n : ℕ}
    (h : ∀ i < n + 1, m (p + BitVec.ofNat 32 i) = m (q + BitVec.ofNat 32 i)) : m p = m q := by
  simpa using h 0 (Nat.succ_pos n)

/-- And so do the bytes behind them. -/
theorem agree_tail {n : ℕ}
    (h : ∀ i < n + 1, m (p + BitVec.ofNat 32 i) = m (q + BitVec.ofNat 32 i)) :
    ∀ i < n, m (p + 1 + BitVec.ofNat 32 i) = m (q + 1 + BitVec.ofNat 32 i) := by
  intro i hi
  have hnext := h (i + 1) (Nat.succ_lt_succ hi)
  rwa [Mem.add_ofNat_succ, Mem.add_ofNat_succ] at hnext

/-- Where as many bytes agree as are counted, all of them are read. -/
theorem strncmpLoop_agree {n : ℕ}
    (h : ∀ i < n, m (p + BitVec.ofNat 32 i) = m (q + BitVec.ofNat 32 i)) :
    strncmpLoop m n p q = (0, addressPairs p q n) := by
  induction n generalizing p q with
  | zero => rfl
  | succ n ih =>
    have hrest : strncmpLoop m n (p + 1) (q + 1) = (0, addressPairs (p + 1) (q + 1) n) :=
      ih (agree_tail h)
    rw [strncmpLoop, if_neg (not_not.mpr (agree_head h)), hrest, addressPairs_succ]

/-- The loop ends at the first difference. -/
theorem strncmpLoop_differ {n k : ℕ} (hk : k < n)
    (h : ∀ i < k, m (p + BitVec.ofNat 32 i) = m (q + BitVec.ofNat 32 i))
    (hne : m (p + BitVec.ofNat 32 k) ≠ m (q + BitVec.ofNat 32 k)) :
    strncmpLoop m n p q =
      (((m (p + BitVec.ofNat 32 k)).toNat : ℤ) - (m (q + BitVec.ofNat 32 k)).toNat,
        addressPairs p q (k + 1)) := by
  induction k generalizing p q n with
  | zero =>
    obtain ⟨n, rfl⟩ := Nat.exists_eq_succ_of_ne_zero hk.ne'
    rw [BitVec.add_zero, BitVec.add_zero] at hne ⊢
    rw [strncmpLoop, if_pos hne, addressPairs_succ]
    rfl
  | succ k ih =>
    obtain ⟨n, rfl⟩ := Nat.exists_eq_succ_of_ne_zero (Nat.ne_zero_of_lt hk)
    rw [Mem.add_ofNat_succ, Mem.add_ofNat_succ] at hne ⊢
    rw [strncmpLoop, if_neg (not_not.mpr (agree_head h)),
      ih (Nat.lt_of_succ_lt_succ hk) (agree_tail h) hne, addressPairs_succ p q]

/-- While all bytes agree, the byte at each place that is counted is read. -/
theorem mem_strncmpLoop {n k : ℕ} (hk : k < n)
    (h : ∀ i < k, m (p + BitVec.ofNat 32 i) = m (q + BitVec.ofNat 32 i)) :
    (p + BitVec.ofNat 32 k, q + BitVec.ofNat 32 k) ∈ (strncmpLoop m n p q).2 := by
  induction k generalizing p q n with
  | zero =>
    obtain ⟨n, rfl⟩ := Nat.exists_eq_succ_of_ne_zero hk.ne'
    rw [strncmpLoop]
    split
    · simp
    · simp
  | succ k ih =>
    obtain ⟨n, rfl⟩ := Nat.exists_eq_succ_of_ne_zero (Nat.ne_zero_of_lt hk)
    rw [strncmpLoop, if_neg (not_not.mpr (agree_head h)), Mem.add_ofNat_succ, Mem.add_ofNat_succ]
    exact List.mem_cons_of_mem _ (ih (Nat.lt_of_succ_lt_succ hk) (agree_tail h))

/-! ## Comparing -/

/-- Strings with the same beginning have the same characters there. -/
theorem getD_eq_of_take_eq {k i : ℕ} (h : s.take k = t.take k) (hi : i < k) :
    s.getD i 0 = t.getD i 0 := by
  have hget := congrArg (·[i]?) h
  simp only [List.getElem?_take, if_pos hi] at hget
  rw [List.getD_eq_getElem?_getD, List.getD_eq_getElem?_getD, hget]

/-- Different strings have a first difference, which is behind neither's NUL. -/
theorem exists_first_difference (hs : 0 ∉ s) (ht : 0 ∉ t) (hne : s ≠ t) :
    ∃ k ≤ s.length, k ≤ t.length ∧ s.take k = t.take k ∧ s.getD k 0 ≠ t.getD k 0 := by
  induction s generalizing t with
  | nil =>
    cases t with
    | nil => exact absurd rfl hne
    | cons b t =>
      refine ⟨0, le_rfl, Nat.zero_le _, rfl, fun h => ht ?_⟩
      rw [show (0 : BitVec 8) = b from h]
      exact List.mem_cons_self
  | cons a s ih =>
    cases t with
    | nil =>
      refine ⟨0, Nat.zero_le _, le_rfl, rfl, fun h => hs ?_⟩
      rw [show (0 : BitVec 8) = a from h.symm]
      exact List.mem_cons_self
    | cons b t =>
      by_cases hab : a = b
      · subst hab
        rw [List.mem_cons, not_or] at hs ht
        have hrest : s ≠ t := fun h => hne (by rw [h])
        obtain ⟨k, hks, hkt, htake, hdiff⟩ := ih hs.2 ht.2 hrest
        refine ⟨k + 1, Nat.succ_le_succ hks, Nat.succ_le_succ hkt, ?_, hdiff⟩
        rw [List.take_succ_cons, List.take_succ_cons, htake]
      · exact ⟨0, Nat.zero_le _, Nat.zero_le _, rfl, hab⟩

/-- What comparing `n` characters of two strings should do: no byte behind a NUL is read, the result
is zero exactly if the strings agree in their first `n` characters, and else its sign is that of the
first difference. -/
def ComparesStrings (m : Mem) (p q n : BitVec 32) (s t : List (BitVec 8)) : Prop :=
  (∀ x ∈ (strncmp m p q n).2, InString p s x.1 ∧ InString q t x.2) ∧
    ((strncmp m p q n).1 = 0 ↔ s.take n.toNat = t.take n.toNat) ∧
    ∀ k < n.toNat, s.take k = t.take k → s.getD k 0 ≠ t.getD k 0 →
      (strncmp m p q n).1.sign = (((s.getD k 0).toNat : ℤ) - (t.getD k 0).toNat).sign

/-- Pairs of addresses up to both NULs lie in the strings. -/
theorem inString_of_mem {n : ℕ} (hs : n ≤ s.length + 1) (ht : n ≤ t.length + 1)
    {x : BitVec 32 × BitVec 32} (hx : x ∈ addressPairs p q n) :
    InString p s x.1 ∧ InString q t x.2 := by
  obtain ⟨i, hi, rfl⟩ := List.mem_map.mp hx
  have hlt := List.mem_range.mp hi
  exact ⟨⟨i, by omega, rfl⟩, ⟨i, by omega, rfl⟩⟩

/-- Of different strings `strncmp` finds the first difference. -/
theorem comparesStrings_of_ne (hs : HoldsString m p s) (ht : HoldsString m q t) (n : BitVec 32)
    (hne : s ≠ t) : ComparesStrings m p q n s t := by
  obtain ⟨k, hks, hkt, htake, hdiff⟩ := exists_first_difference hs.nul_not_mem ht.nul_not_mem hne
  have hagree : ∀ i < k, m (p + BitVec.ofNat 32 i) = m (q + BitVec.ofNat 32 i) := by
    intro i hi
    rw [hs.byte i (by omega), ht.byte i (by omega), getD_eq_of_take_eq htake hi]
  -- no other place is the first difference
  have hfirst {j : ℕ} (hj : s.take j = t.take j) (hjdiff : s.getD j 0 ≠ t.getD j 0) : j = k := by
    rcases lt_trichotomy j k with hlt | heq | hgt
    · exact absurd (getD_eq_of_take_eq htake hlt) hjdiff
    · exact heq
    · exact absurd (getD_eq_of_take_eq hj hgt) hdiff
  rcases Nat.lt_or_ge k n.toNat with hlt | hge
  · have hbytes : m (p + BitVec.ofNat 32 k) ≠ m (q + BitVec.ofNat 32 k) := by
      rwa [hs.byte k hks, ht.byte k hkt]
    have hloop : strncmp m p q n =
        (((s.getD k 0).toNat : ℤ) - (t.getD k 0).toNat, addressPairs p q (k + 1)) := by
      rw [strncmp, strncmpLoop_differ hlt hagree hbytes, hs.byte k hks, ht.byte k hkt]
    rw [ComparesStrings, hloop]
    refine ⟨fun x hx => inString_of_mem (by omega) (by omega) hx, ?_, fun j _ hj hjdiff => ?_⟩
    · refine iff_of_false (fun hzero => hdiff (BitVec.eq_of_toNat_eq ?_)) fun heq => ?_
      · exact Int.ofNat_inj.mp (sub_eq_zero.mp hzero)
      · exact hdiff (getD_eq_of_take_eq heq hlt)
    · rw [hfirst hj hjdiff]
  · have hloop : strncmp m p q n = (0, addressPairs p q n.toNat) :=
      strncmpLoop_agree fun i hi => hagree i (by omega)
    rw [ComparesStrings, hloop]
    refine ⟨fun x hx => inString_of_mem (by omega) (by omega) hx, iff_of_true rfl ?_,
      fun j hj hjtake hjdiff => ?_⟩
    · have hshort := congrArg (List.take n.toNat) htake
      rwa [List.take_take, List.take_take, Nat.min_eq_left hge] at hshort
    · exact absurd (hfirst hjtake hjdiff) (by omega)

/-- For all strings, whatever lies behind them, and each count: `strncmp` compares as it should
exactly if the strings differ or the count does not go beyond their NUL. -/
theorem strncmp_compares_iff (hs : HoldsString m p s) (ht : HoldsString m q t) (n : BitVec 32) :
    ComparesStrings m p q n s t ↔ (s = t → n.toNat ≤ s.length + 1) := by
  by_cases hst : s = t
  · subst hst
    have hagree : ∀ i ≤ s.length, m (p + BitVec.ofNat 32 i) = m (q + BitVec.ofNat 32 i) :=
      fun i hi => (hs.byte i hi).trans (ht.byte i hi).symm
    constructor
    · intro h _
      by_contra hbeyond
      have hread := mem_strncmpLoop (m := m) (p := p) (q := q) (n := n.toNat)
        (k := s.length + 1) (by omega) fun i hi => hagree i (by omega)
      obtain ⟨⟨i, hi, heq⟩, -⟩ := h.1 _ hread
      have hn := n.isLt
      have hsame := (Mem.add_ofNat_inj (by omega) (by omega)).mp heq
      omega
    · intro h
      have hn := h rfl
      have hloop : strncmp m p q n = (0, addressPairs p q n.toNat) :=
        strncmpLoop_agree fun i hi => hagree i (by omega)
      rw [ComparesStrings, hloop]
      exact ⟨fun x hx => inString_of_mem hn hn hx, iff_of_true rfl rfl,
        fun k _ _ hdiff => absurd rfl hdiff⟩
  · exact iff_of_true (comparesStrings_of_ne hs ht n hst) fun heq => absurd heq hst

/-- A string of one character at two places, with different bytes behind. -/
def sameStrings : Mem := fun x =>
  if x = 0x100 ∨ x = 0x200 then 0x61 else if x = 0x102 then 1 else if x = 0x202 then 2 else 0

/-- Up to their NUL the two strings are compared as they should be. -/
theorem strncmp_compares_iff_up_to_nul :
    ComparesStrings sameStrings 0x100 0x200 2 [0x61] [0x61] ↔
      (([0x61] : List (BitVec 8)) = [0x61] →
        (2 : BitVec 32).toNat ≤ [(0x61 : BitVec 8)].length + 1) :=
  strncmp_compares_iff ⟨by decide, by decide⟩ ⟨by decide, by decide⟩ 2

/-- Further than that the bytes behind decide: the equal strings compare as different. -/
theorem strncmp_beyond_nul :
    HoldsString sameStrings 0x100 [0x61] ∧ HoldsString sameStrings 0x200 [0x61] ∧
      strncmp sameStrings 0x100 0x200 3 = (-1, addressPairs 0x100 0x200 3) ∧
      ¬ ComparesStrings sameStrings 0x100 0x200 3 [0x61] [0x61] := by
  have hresult : strncmp sameStrings 0x100 0x200 3 = (-1, addressPairs 0x100 0x200 3) := by decide
  refine ⟨⟨by decide, by decide⟩, ⟨by decide, by decide⟩, hresult, fun h => ?_⟩
  have hzero := h.2.1.mpr rfl
  rw [hresult] at hzero
  exact absurd hzero (by decide)

end RpiVm
