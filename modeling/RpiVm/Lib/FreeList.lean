import Mathlib

/-!
# Free lists

A pool of identifiers is split into those that are free and those that are handed out. Taking
a free identifier and giving back one that is handed out keep the split exact.
-/

namespace CLib

variable {α : Type*} {ids free out : List α} {x : α}

/-- Of a list of different identifiers each is either free or handed out, and none is twice. -/
structure Splits (ids free out : List α) : Prop where
  /-- The identifiers are different. -/
  nodup : ids.Nodup
  /-- Both parts together are the identifiers. -/
  perm : (free ++ out).Perm ids

namespace Splits

/-- At first all identifiers are free. -/
theorem initial (h : ids.Nodup) : Splits ids ids [] :=
  ⟨h, by rw [List.append_nil]⟩

/-- No identifier is in both parts, or in one of them twice. -/
theorem nodup_append (h : Splits ids free out) : (free ++ out).Nodup :=
  h.perm.nodup_iff.mpr h.nodup

/-- The free identifiers are different. -/
theorem nodup_free (h : Splits ids free out) : free.Nodup :=
  (List.nodup_append.mp h.nodup_append).1

/-- An identifier is in one of the parts. -/
theorem mem_iff (h : Splits ids free out) : x ∈ ids ↔ x ∈ free ∨ x ∈ out := by
  rw [← h.perm.mem_iff, List.mem_append]

/-- What is free is not handed out. -/
theorem not_mem_out (h : Splits ids free out) (hx : x ∈ free) : x ∉ out :=
  List.disjoint_of_nodup_append h.nodup_append hx

/-- The free identifiers are those not handed out. -/
theorem mem_free_iff (h : Splits ids free out) : x ∈ free ↔ x ∈ ids ∧ x ∉ out := by
  constructor
  · intro hx
    exact ⟨h.mem_iff.mpr (.inl hx), h.not_mem_out hx⟩
  · rintro ⟨hids, hout⟩
    exact (h.mem_iff.mp hids).resolve_right hout

/-- Nothing is free exactly if all is handed out. -/
theorem free_eq_nil_iff (h : Splits ids free out) : free = [] ↔ ∀ x ∈ ids, x ∈ out := by
  rw [List.eq_nil_iff_forall_not_mem]
  constructor
  · intro hnone x hids
    exact (h.mem_iff.mp hids).resolve_left (hnone x)
  · intro hall x hx
    exact h.not_mem_out hx (hall x (h.mem_iff.mpr (.inl hx)))

/-- As long as an identifier is handed out, there is room among the free ones. -/
theorem length_free_lt (h : Splits ids free out) (hx : x ∈ out) : free.length < ids.length := by
  have hlength := h.perm.length_eq
  have hpos := List.length_pos_of_mem hx
  rw [List.length_append] at hlength
  omega

/-- The last free identifier is taken. -/
theorem take (h : Splits ids (free ++ [x]) out) : Splits ids free (x :: out) := by
  refine ⟨h.nodup, ?_⟩
  have hperm := h.perm
  rwa [List.append_assoc, List.singleton_append] at hperm

/-- An identifier is given back. -/
theorem give [DecidableEq α] (h : Splits ids free out) (hx : x ∈ out) :
    Splits ids (free ++ [x]) (out.erase x) := by
  refine ⟨h.nodup, ?_⟩
  rw [List.append_assoc, List.singleton_append]
  exact ((List.perm_cons_erase hx).symm.append_left free).trans h.perm

end Splits

end CLib
