import RpiVm.Lib.Checked
import RpiVm.Lib.Matching

/-!
# Waiting for the Pi to shut down

The UNIX side echoes what the Pi sends, chunk by chunk, and looks for the string that
announces a clean shutdown. `done` reads each chunk as a string, so that what follows a NUL
is dropped, and starts over behind a letter that does not match, even where that letter is
the first one of the string.
-/

namespace RpiVm

open CLib Matching

/-! ## The code -/

/-- `exit_string`, without its NUL. -/
def exitString : List (BitVec 8) := [0x44, 0x4f, 0x4e, 0x45, 0x21, 0x21, 0x21, 0x0a]

/-- `done`: what it returns, and the static `pos` after it. -/
def done : List (BitVec 8) → ℕ → Except Failure (Bool × ℕ)
  | [], _ => throw .outOfBounds
  | c :: s, pos =>
    if c = 0 then pure (false, pos)
    else do
      assert (pos < exitString.length) "pos < n"
      if exitString[pos]? ≠ some c then done s 0
      else if pos + 1 = exitString.length then pure (true, pos + 1)
      else done s (pos + 1)

/-- What `done` returns for the chunks that `echo` reads, up to the first 1; each chunk is
followed by a NUL. -/
def echoDone : List (List (BitVec 8)) → ℕ → Except Failure (List Bool)
  | [], _ => pure []
  | chunk :: chunks, pos => do
    let (saw, pos) ← done (chunk ++ [0]) pos
    if saw then pure [true]
    else do
      let rest ← echoDone chunks pos
      pure (false :: rest)

/-! ## What it should return -/

/-- The verdicts for chunks behind what was seen before: 1 for the chunk that completes the
first occurrence of the string, and 0 for every earlier one. -/
def shutdownVerdicts : List (BitVec 8) → List (List (BitVec 8)) → List Bool
  | _, [] => []
  | seen, chunk :: chunks =>
    if exitString <:+: seen ++ chunk then [true]
    else false :: shutdownVerdicts (seen ++ chunk) chunks

/-- What `done` sees of a chunk. -/
def visible (chunk : List (BitVec 8)) : List (BitVec 8) := chunk.takeWhile (· ≠ 0)

/-- The string begins with its only `D`. -/
def exitPattern : Pattern (BitVec 8) :=
  ⟨0x44, [0x4f, 0x4e, 0x45, 0x21, 0x21, 0x21, 0x0a], by decide⟩

/-- `done` is a matcher for the string. -/
theorem done_eq {pos : ℕ} (hpos : pos < exitPattern.size) (chunk : List (BitVec 8)) :
    done (chunk ++ [0]) pos =
      .ok (decide (exitPattern.scan pos (visible chunk) = exitPattern.size),
        exitPattern.scan pos (visible chunk)) := by
  induction chunk generalizing pos with
  | nil =>
    rw [List.nil_append, done, if_pos rfl, visible, List.takeWhile_nil, Pattern.scan_nil,
      decide_eq_false hpos.ne]
    rfl
  | cons c chunk ih =>
    rw [List.cons_append, done]
    by_cases hc : c = 0
    · have hvisible : visible (c :: chunk) = [] := by simp [visible, hc]
      rw [if_pos hc, hvisible, Pattern.scan_nil, decide_eq_false hpos.ne]
      rfl
    · have hvisible : visible (c :: chunk) = c :: visible chunk :=
        List.takeWhile_cons_of_pos (decide_eq_true hc)
      have hassert : decide (pos < exitString.length) = true := decide_eq_true hpos
      rw [if_neg hc, lift_assert_bind hassert, hvisible, Pattern.scan_cons, Pattern.step,
        if_neg hpos.ne]
      by_cases hmatch : exitString[pos]? = some c
      · have hmatch' : exitPattern.letters[pos]? = some c := hmatch
        rw [if_neg (not_not.mpr hmatch), if_pos hmatch']
        by_cases hfull : pos + 1 = exitPattern.size
        · rw [if_pos (show pos + 1 = exitString.length from hfull), hfull, Pattern.scan_size,
            decide_eq_true rfl]
          rfl
        · rw [if_neg (show ¬ pos + 1 = exitString.length from hfull)]
          exact ih (lt_of_le_of_ne hpos hfull)
      · have hmatch' : ¬ exitPattern.letters[pos]? = some c := hmatch
        rw [if_pos hmatch, if_neg hmatch']
        exact ih exitPattern.size_pos

/-- What was seen stays seen. -/
theorem exitString_infix_append {u v : List (BitVec 8)} (h : exitString <:+: u) :
    exitString <:+: u ++ v :=
  h.trans (List.prefix_append u v).isInfix

/-- Beginnings of a longer list. -/
theorem forall_prefix_cons {α : Type} {P : List α → Prop} {x : α} {xs : List α} :
    (∀ pre, pre <+: x :: xs → P pre) ↔ P [] ∧ ∀ pre, pre <+: xs → P (x :: pre) := by
  constructor
  · intro h
    exact ⟨h [] List.nil_prefix, fun pre hpre => h (x :: pre) (List.prefix_cons_inj x |>.mpr hpre)⟩
  · rintro ⟨hnil, hcons⟩ pre hpre
    cases pre with
    | nil => exact hnil
    | cons y pre =>
      obtain ⟨rfl, hrest⟩ := List.cons_prefix_cons.mp hpre
      exact hcons pre hrest

/-- The verdicts from any point on. -/
theorem echoDone_eq_iff {pos : ℕ} (hpos : pos < exitPattern.size) {seen : List (BitVec 8)}
    (hseen : ¬ exitString <:+: seen) (chunks : List (List (BitVec 8))) :
    echoDone chunks pos = .ok (shutdownVerdicts seen chunks) ↔
      ∀ pre, pre <+: chunks → (exitString <:+: seen ++ pre.flatten ↔
        exitPattern.scan pos (pre.map visible).flatten = exitPattern.size) := by
  have hnow : exitString <:+: seen ++ [].flatten ↔
      exitPattern.scan pos ([].map visible).flatten = exitPattern.size := by
    refine iff_of_false ?_ hpos.ne
    rwa [List.flatten_nil, List.append_nil]
  induction chunks generalizing pos seen with
  | nil =>
    refine iff_of_true rfl fun pre hpre => ?_
    rw [List.prefix_nil.mp hpre]
    exact hnow
  | cons chunk chunks ih =>
    rw [forall_prefix_cons, and_iff_right hnow, echoDone, ok_bind (done_eq hpos chunk),
      shutdownVerdicts]
    simp only [List.flatten_cons, List.map_cons, Pattern.scan_append, ← List.append_assoc]
    have hle := exitPattern.scan_le hpos.le (visible chunk)
    generalize exitPattern.scan pos (visible chunk) = pos' at hle
    rcases hle.eq_or_lt with hfull | hlt
    · subst hfull
      rw [decide_eq_true rfl, if_pos rfl]
      by_cases hfound : exitString <:+: seen ++ chunk
      · rw [if_pos hfound]
        refine iff_of_true rfl fun pre _ => ?_
        exact iff_of_true (exitString_infix_append hfound) (Pattern.scan_size _ _)
      · rw [if_neg hfound]
        refine iff_of_false (fun h => ?_) fun h => hfound ?_
        · exact absurd (List.head_eq_of_cons_eq (Except.ok.inj h)) (by decide)
        · have hfirst := (h [] List.nil_prefix).mpr rfl
          rwa [List.flatten_nil, List.append_nil] at hfirst
    · rw [decide_eq_false hlt.ne, if_neg Bool.false_ne_true]
      by_cases hfound : exitString <:+: seen ++ chunk
      · rw [if_pos hfound]
        refine iff_of_false (fun h => ?_) fun h => hlt.ne ?_
        · obtain ⟨rest, -, hrest⟩ := bind_eq_ok.mp h
          exact absurd (List.head_eq_of_cons_eq (Except.ok.inj hrest)) (by decide)
        · refine (h [] List.nil_prefix).mp ?_
          rwa [List.flatten_nil, List.append_nil]
      · rw [if_neg hfound]
        have hrest : (echoDone chunks pos' >>= fun rest => pure (false :: rest)) =
            .ok (false :: shutdownVerdicts (seen ++ chunk) chunks) ↔
            echoDone chunks pos' = .ok (shutdownVerdicts (seen ++ chunk) chunks) := by
          rw [bind_eq_ok]
          constructor
          · rintro ⟨rest, hok, hrest⟩
            rw [hok, List.tail_eq_of_cons_eq (Except.ok.inj hrest)]
          · exact fun hok => ⟨_, hok, rfl⟩
        rw [hrest]
        refine ih hlt hfound (iff_of_false ?_ hlt.ne)
        rwa [List.flatten_nil, List.append_nil]

/-- Over every way of cutting every stream, the verdicts are right exactly when after each chunk
the stream contains the string if and only if what `done` saw of it contains the string behind
an even number of partial matches. -/
theorem echoDone_right_iff (chunks : List (List (BitVec 8))) :
    echoDone chunks 0 = .ok (shutdownVerdicts [] chunks) ↔
      ∀ pre, pre <+: chunks →
        (exitString <:+: pre.flatten ↔ exitPattern.OccursClear (pre.map visible).flatten) := by
  rw [echoDone_eq_iff exitPattern.size_pos (by decide)]
  simp only [List.nil_append, Pattern.scan_eq_size_iff]

/-- A doubled `D` hides the string, a NUL hides the rest of its chunk, and a NUL inside the string
is overlooked. -/
theorem shutdown_missed :
    echoDone [[0x44, 0x44, 0x4f, 0x4e, 0x45, 0x21, 0x21, 0x21, 0x0a]] 0 = .ok [false] ∧
    shutdownVerdicts [] [[0x44, 0x44, 0x4f, 0x4e, 0x45, 0x21, 0x21, 0x21, 0x0a]] = [true] ∧
    echoDone [[0x00, 0x44, 0x4f, 0x4e, 0x45, 0x21, 0x21, 0x21, 0x0a]] 0 = .ok [false] ∧
    shutdownVerdicts [] [[0x00, 0x44, 0x4f, 0x4e, 0x45, 0x21, 0x21, 0x21, 0x0a]] = [true] ∧
    echoDone [[0x44, 0x4f, 0x00], [0x4e, 0x45, 0x21, 0x21, 0x21, 0x0a]] 0 = .ok [false, true] ∧
    shutdownVerdicts [] [[0x44, 0x4f, 0x00], [0x4e, 0x45, 0x21, 0x21, 0x21, 0x0a]] =
      [false, false] := by
  decide

end RpiVm
