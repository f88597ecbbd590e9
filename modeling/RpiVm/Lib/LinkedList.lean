import Mathlib

/-!
# Singly linked lists

Nodes that lie in a heap and hold a pointer to the next one; a pointer is an index of
the heap, or null. What is linked does not depend on other nodes of the heap, and a
node is put at the end by setting the pointer of the one that was last.
-/

namespace LinkedList

variable {ν : Type*} {next : ν → Option ℕ} {heap heap' : List ν} {p q : Option ℕ}

/-- From one pointer to another: the nodes on the way, with their places. -/
inductive Linked (next : ν → Option ℕ) (heap : List ν) : Option ℕ → List (ℕ × ν) → Option ℕ → Prop
  | nil (p : Option ℕ) : Linked next heap p [] p
  | cons {a : ℕ} {n : ν} {l : List (ℕ × ν)} {q : Option ℕ} (ha : heap[a]? = some n)
      (h : Linked next heap (next n) l q) : Linked next heap (some a) ((a, n) :: l) q

/-- Without a node on the way it ends where it starts. -/
theorem Linked.eq_of_nil (h : Linked next heap p [] q) : p = q := by
  cases h
  rfl

/-- What is linked stays linked when its nodes stay. -/
theorem Linked.congr {l : List (ℕ × ν)} (h : Linked next heap p l q)
    (hsame : ∀ x ∈ l, heap'[x.1]? = heap[x.1]?) : Linked next heap' p l q := by
  induction h with
  | nil => exact .nil _
  | cons ha h ih =>
    refine .cons ?_ (ih fun x hx => hsame x (List.mem_cons_of_mem _ hx))
    exact (hsame _ List.mem_cons_self).trans ha

/-- The places linked are in the heap. -/
theorem Linked.lt_length {l : List (ℕ × ν)} (h : Linked next heap p l q) {x : ℕ × ν}
    (hx : x ∈ l) : x.1 < heap.length := by
  induction h with
  | nil => exact absurd hx List.not_mem_nil
  | cons ha _ ih =>
    obtain rfl | hx := List.mem_cons.mp hx
    · exact (List.getElem?_eq_some_iff.mp ha).1
    · exact ih hx

/-- One way and then another. -/
theorem Linked.append {l l' : List (ℕ × ν)} {r : Option ℕ} (h : Linked next heap p l q)
    (h' : Linked next heap q l' r) : Linked next heap p (l ++ l') r := by
  induction h with
  | nil => exact h'
  | cons ha _ ih => exact .cons ha (ih h')

/-- The last node of a way leads to where the way ends. -/
theorem Linked.of_concat {l : List (ℕ × ν)} {a : ℕ} {n : ν}
    (h : Linked next heap p (l ++ [(a, n)]) q) :
    Linked next heap p l (some a) ∧ heap[a]? = some n ∧ next n = q := by
  induction l generalizing p with
  | nil =>
    cases h with
    | cons ha h => exact ⟨.nil _, ha, h.eq_of_nil⟩
  | cons x l ih =>
    cases h with
    | cons ha h =>
      obtain ⟨hl, hn⟩ := ih h
      exact ⟨.cons ha hl, hn⟩

/-- A new node at the end of a list, behind the node that was last. -/
theorem Linked.concat {l : List (ℕ × ν)} {a : ℕ} {n n' m : ν}
    (h : Linked next heap p (l ++ [(a, n)]) none)
    (hnodup : ((l ++ [(a, n)]).map Prod.fst).Nodup) (hn' : next n' = some heap.length)
    (hm : next m = none) :
    Linked next ((heap ++ [m]).set a n') p (l ++ [(a, n'), (heap.length, m)]) none := by
  obtain ⟨hl, ha, _⟩ := h.of_concat
  have hlt : a < heap.length := (List.getElem?_eq_some_iff.mp ha).1
  rw [List.map_append] at hnodup
  have hnew : Linked next ((heap ++ [m]).set a n') (some a) [(a, n'), (heap.length, m)] none := by
    refine .cons ?_ ?_
    · rw [List.getElem?_set_self (by simp; omega)]
    · rw [hn']
      refine .cons ?_ ?_
      · rw [List.getElem?_set_ne (by omega), List.getElem?_append_right le_rfl]
        simp
      · rw [hm]
        exact .nil none
  refine Linked.append (hl.congr ?_) hnew
  intro x hx
  have hne : a ≠ x.1 := by
    rintro rfl
    exact List.disjoint_of_nodup_append hnodup (List.mem_map_of_mem hx) (by simp)
  rw [List.getElem?_set_ne hne, List.getElem?_append_left (hl.lt_length hx)]

end LinkedList
