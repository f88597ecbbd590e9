import RpiVm.Lib.Checked

/-!
# Arrays that are filled from the start

An array is the list of its elements; a store outside it fails, and so does the read of a
local one where nothing was stored. A pointer that is stored through and advanced has filled
the array up to it: the array is a text laid over what it held before.
-/

namespace CLib

variable {α : Type}

/-- A store to an array. -/
def store (b : List α) (i : ℕ) (v : α) : Except Failure (List α) :=
  if i < b.length then .ok (b.set i v) else .error .outOfBounds

/-- A read of a local array. -/
def load (b : List (Option α)) (i : ℕ) : Except Failure α :=
  match b[i]? with
  | some (some v) => .ok v
  | some none => .error .indeterminate
  | none => .error .outOfBounds

/-- An array with a text written over its start. -/
def overlay (w b : List α) : List α := w ++ b.drop w.length

@[simp] theorem overlay_nil (b : List α) : overlay [] b = b := rfl

/-- An array keeps its size. -/
theorem length_overlay {w b : List α} (h : w.length ≤ b.length) :
    (overlay w b).length = b.length := by
  rw [overlay, List.length_append, List.length_drop]
  omega

/-- A longer text hides a shorter one. -/
theorem overlay_overlay {v w b : List α} (h : v.length ≤ w.length) :
    overlay w (overlay v b) = overlay w b := by
  have hdrop : (v ++ b.drop v.length).drop w.length = b.drop w.length := by
    rw [List.drop_append, List.drop_of_length_le h, List.nil_append, List.drop_drop,
      Nat.add_sub_cancel' h]
  rw [overlay, overlay, hdrop]
  rfl

/-- A store behind the text lengthens it. -/
theorem store_overlay {w b : List α} (h : w.length < b.length) (v : α) :
    store (overlay w b) w.length v = .ok (overlay (w ++ [v]) b) := by
  have hcons : b.drop w.length = b[w.length] :: b.drop (w.length + 1) := List.drop_eq_getElem_cons h
  rw [store, if_pos (by rw [length_overlay h.le]; exact h), overlay, hcons, overlay,
    List.set_append_right _ _ le_rfl, Nat.sub_self, List.set_cons_zero, List.append_assoc,
    List.length_append, List.length_singleton]
  rfl

/-! ## Local arrays -/

/-- A local array of some size with a text in it. -/
def filled (size : ℕ) (w : List α) : List (Option α) :=
  overlay (w.map some) (List.replicate size none)

/-- One more store. -/
theorem store_filled {size : ℕ} {w : List α} (h : w.length < size) (v : α) :
    store (filled size w) w.length (some v) = .ok (filled size (w ++ [v])) := by
  have hlt : (w.map some).length < (List.replicate size (none : Option α)).length := by
    rw [List.length_map, List.length_replicate]
    exact h
  have hstore := store_overlay hlt (some v)
  rw [List.length_map] at hstore
  rw [filled, hstore, filled, List.map_append]
  rfl

/-- A read within the text. -/
theorem load_filled {size i : ℕ} {w : List α} (h : i < w.length) :
    load (filled size w) i = .ok w[i] := by
  have hlt : i < (w.map some).length := by rwa [List.length_map]
  rw [load, filled, overlay, List.getElem?_append_left hlt, List.getElem?_map,
    List.getElem?_eq_getElem h]
  rfl

end CLib
