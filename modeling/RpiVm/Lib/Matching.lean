import Mathlib

/-!
# A matcher that starts over

The simplest matcher for a word counts the letters matched so far and starts over at a
mismatch, behind the letter that did not match. For a word whose first letter occurs once
it misses an occurrence exactly when the letters in front of it end in an odd number of
partial matches lined up one behind the other.
-/

namespace Matching

/-- A word whose first letter occurs nowhere else in it. -/
structure Pattern (α : Type*) where
  /-- The first letter. -/
  first : α
  /-- The other letters. -/
  rest : List α
  /-- The first letter is not among them. -/
  fresh : first ∉ rest

namespace Pattern

variable {α : Type*} (p : Pattern α)

/-- The whole word. -/
def letters : List α := p.first :: p.rest

/-- How many letters the word has. -/
def size : ℕ := p.letters.length

theorem size_pos : 0 < p.size := Nat.succ_pos _

/-- Partial matches lined up at the end of a text. -/
inductive LinedUp : ℕ → List α → Prop
  | start {u : List α} : (∀ k, 0 < k → k < p.size → ¬ p.letters.take k <:+ u) → LinedUp 0 u
  | extend {n k : ℕ} {u : List α} : 0 < k → k < p.size → LinedUp n u →
      LinedUp (n + 1) (u ++ p.letters.take k)

/-- The word occurs with an even number of partial matches lined up in front of it. -/
def OccursClear (u : List α) : Prop :=
  ∃ pre post n, u = pre ++ p.letters ++ post ∧ Even n ∧ p.LinedUp n pre

/-- Every text ends in some number of partial matches. -/
theorem exists_linedUp (u : List α) : ∃ n, p.LinedUp n u := by
  induction hlen : u.length using Nat.strong_induction_on generalizing u with
  | _ m ih =>
    by_cases hend : ∃ k, 0 < k ∧ k < p.size ∧ p.letters.take k <:+ u
    · obtain ⟨k, hk, hk', pre, rfl⟩ := hend
      have hshort : pre.length < m := by
        rw [← hlen, List.length_append, List.length_take]
        have : k < p.letters.length := hk'
        omega
      obtain ⟨n, hn⟩ := ih pre.length hshort pre rfl
      exact ⟨n + 1, .extend hk hk' hn⟩
    · push Not at hend
      exact ⟨0, .start hend⟩

/-! ## The matcher -/

variable [DecidableEq α]

/-- One letter; the whole word is kept once it is found. -/
def step (k : ℕ) (c : α) : ℕ :=
  if k = p.size then k else if p.letters[k]? = some c then k + 1 else 0

/-- The letters matched at the end of a text. -/
def scan (k : ℕ) (u : List α) : ℕ := u.foldl p.step k

@[simp] theorem scan_nil (k : ℕ) : p.scan k [] = k := rfl

@[simp] theorem scan_cons (k : ℕ) (c : α) (u : List α) : p.scan k (c :: u) = p.scan (p.step k c) u :=
  rfl

@[simp] theorem scan_append (k : ℕ) (u v : List α) : p.scan k (u ++ v) = p.scan (p.scan k u) v :=
  List.foldl_append

/-- What is found stays found. -/
@[simp] theorem scan_size (u : List α) : p.scan p.size u = p.size := by
  induction u with
  | nil => rfl
  | cons c u ih => rw [scan_cons, step, if_pos rfl, ih]

/-- A count never passes the word. -/
theorem scan_le {k : ℕ} (hk : k ≤ p.size) (u : List α) : p.scan k u ≤ p.size := by
  induction u generalizing k with
  | nil => exact hk
  | cons c u ih =>
    refine ih ?_
    rw [step]
    split_ifs with hfull hmatch
    · exact hk
    · exact (List.getElem?_eq_some_iff.mp hmatch).1
    · exact Nat.zero_le _

/-- A beginning of the word is matched from the start. -/
theorem scan_take {k : ℕ} (hk : k ≤ p.size) : p.scan 0 (p.letters.take k) = k := by
  induction k with
  | zero => rfl
  | succ k ih =>
    have hlt : k < p.letters.length := hk
    have hne : k ≠ p.size := Nat.ne_of_lt hlt
    rw [List.take_succ_eq_append_getElem hlt, scan_append, ih (Nat.le_of_succ_le hk), scan_cons,
      scan_nil, step, if_neg hne, if_pos (List.getElem?_eq_getElem hlt)]

/-- Without the first letter nothing is matched from the start. -/
theorem scan_of_not_mem {u : List α} (h : p.first ∉ u) : p.scan 0 u = 0 := by
  induction u with
  | nil => rfl
  | cons c u ih =>
    rw [List.mem_cons, not_or] at h
    have hmiss : p.letters[0]? ≠ some c := fun hc => h.1 (Option.some.inj hc)
    rw [scan_cons, step, if_neg p.size_pos.ne, if_neg hmiss]
    exact ih h.2

/-- In the middle of a match a beginning of the word is lost. -/
theorem scan_take_of_pos {j k : ℕ} (hj : 0 < j) (hj' : j < p.size) (hk : 0 < k) :
    p.scan j (p.letters.take k) = 0 := by
  obtain ⟨j, rfl⟩ := Nat.exists_eq_succ_of_ne_zero hj.ne'
  obtain ⟨k, rfl⟩ := Nat.exists_eq_succ_of_ne_zero hk.ne'
  have hmiss : p.letters[j + 1]? ≠ some p.first := fun hc => p.fresh (List.mem_of_getElem? hc)
  rw [letters, List.take_succ_cons, scan_cons, step, if_neg hj'.ne, if_neg hmiss]
  exact p.scan_of_not_mem fun h => p.fresh (List.mem_of_mem_take h)

/-- A count stands for letters that were matched from a fresh start. -/
theorem exists_of_scan_lt {u : List α} (h : p.scan 0 u < p.size) :
    ∃ pre, u = pre ++ p.letters.take (p.scan 0 u) ∧ p.scan 0 pre = 0 := by
  induction u using List.reverseRecOn with
  | nil => exact ⟨[], rfl, rfl⟩
  | append_singleton u c ih =>
    by_cases hfull : p.scan 0 u = p.size
    · rw [scan_append, hfull, scan_size] at h
      exact absurd h (lt_irrefl _)
    · by_cases hmatch : p.letters[p.scan 0 u]? = some c
      · obtain ⟨pre, hpre, hzero⟩ := ih (lt_of_le_of_ne (p.scan_le (Nat.zero_le _) u) hfull)
        have hstep : p.scan 0 (u ++ [c]) = p.scan 0 u + 1 := by
          rw [scan_append, scan_cons, scan_nil, step, if_neg hfull, if_pos hmatch]
        obtain ⟨hlt, hc⟩ := List.getElem?_eq_some_iff.mp hmatch
        refine ⟨pre, ?_, hzero⟩
        rw [hstep, List.take_succ_eq_append_getElem hlt, hc, ← List.append_assoc, ← hpre]
      · have hstep : p.scan 0 (u ++ [c]) = 0 := by
          rw [scan_append, scan_cons, scan_nil, step, if_neg hfull, if_neg hmatch]
        exact ⟨u ++ [c], by rw [hstep, List.take_zero, List.append_nil], hstep⟩

/-- What is found was matched from a fresh start. -/
theorem exists_of_scan_eq_size {u : List α} (h : p.scan 0 u = p.size) :
    ∃ pre post, u = pre ++ p.letters ++ post ∧ p.scan 0 pre = 0 := by
  induction u using List.reverseRecOn with
  | nil => exact absurd h p.size_pos.ne
  | append_singleton u c ih =>
    by_cases hfull : p.scan 0 u = p.size
    · obtain ⟨pre, post, rfl, hzero⟩ := ih hfull
      exact ⟨pre, post ++ [c], by rw [List.append_assoc], hzero⟩
    · rw [scan_append, scan_cons, scan_nil, step, if_neg hfull] at h
      split_ifs at h with hmatch
      · obtain ⟨pre, hpre, hzero⟩ :=
          p.exists_of_scan_lt (lt_of_le_of_ne (p.scan_le (Nat.zero_le _) u) hfull)
        obtain ⟨hlt, hc⟩ := List.getElem?_eq_some_iff.mp hmatch
        have hall : p.letters.take (p.scan 0 u) ++ [c] = p.letters := by
          rw [← hc, ← List.take_succ_eq_append_getElem hlt, h]
          exact List.take_length
        refine ⟨pre, [], ?_, hzero⟩
        rw [List.append_nil, ← hall, ← List.append_assoc, ← hpre]
      · exact absurd h p.size_pos.ne

/-- Every partial match that is lined up turns the matcher from waiting to missing and back. -/
theorem LinedUp.scan_eq_zero_iff {n : ℕ} {u : List α} (h : p.LinedUp n u)
    (hlt : p.scan 0 u < p.size) : p.scan 0 u = 0 ↔ Even n := by
  induction h with
  | @start u hnone =>
    obtain ⟨pre, hpre, -⟩ := p.exists_of_scan_lt hlt
    have hzero : p.scan 0 u = 0 := by
      by_contra hpos
      exact hnone _ (Nat.pos_of_ne_zero hpos) hlt ⟨pre, hpre.symm⟩
    exact iff_of_true hzero Even.zero
  | @extend n k u hk hk' _ ih =>
    rw [scan_append] at hlt ⊢
    have hlt' : p.scan 0 u < p.size := by
      refine lt_of_le_of_ne (p.scan_le (Nat.zero_le _) u) fun hfull => ?_
      rw [hfull, scan_size] at hlt
      exact lt_irrefl _ hlt
    rw [Nat.even_add_one, ← ih hlt']
    by_cases hzero : p.scan 0 u = 0
    · rw [hzero, p.scan_take hk'.le]
      exact iff_of_false hk.ne' fun hne => hne rfl
    · rw [p.scan_take_of_pos (Nat.pos_of_ne_zero hzero) hlt' hk]
      exact iff_of_true rfl hzero

/-- The matcher finds the word exactly where an even number of partial matches are lined up in
front of it. -/
theorem scan_eq_size_iff {u : List α} : p.scan 0 u = p.size ↔ p.OccursClear u := by
  constructor
  · intro h
    obtain ⟨pre, post, hu, hzero⟩ := p.exists_of_scan_eq_size h
    obtain ⟨n, hn⟩ := p.exists_linedUp pre
    have hlt : p.scan 0 pre < p.size := by
      rw [hzero]
      exact p.size_pos
    exact ⟨pre, post, n, hu, (hn.scan_eq_zero_iff p hlt).mp hzero, hn⟩
  · rintro ⟨pre, post, n, rfl, heven, hn⟩
    rcases (p.scan_le (Nat.zero_le _) pre).eq_or_lt with hfull | hlt
    · rw [scan_append, scan_append, hfull, scan_size, scan_size]
    · have hword : p.scan 0 p.letters = p.size := by
        have htake := p.scan_take le_rfl
        rwa [size, List.take_length] at htake
      rw [scan_append, scan_append, (hn.scan_eq_zero_iff p hlt).mpr heven, hword, scan_size]

end Pattern

end Matching
