import RpiVm.Lib.Panic

/-!
# Calls that stay inside what C defines

Arithmetic on `int` and accesses to arrays are checked here: a result outside 32 bits
or an index outside the array ends the call with a failure, as a failing `assert` does.
Loops that need not end run for a given number of rounds.
-/

namespace CLib

/-- Why a call ends without returning. -/
inductive Failure where
  /-- A check of the program failed. -/
  | panic (p : Panic)
  /-- A result left the range of `int`. -/
  | overflow
  /-- An access outside an array. -/
  | outOfBounds
  /-- A read of what was never written. -/
  | indeterminate
  /-- A loop used up its rounds. -/
  | outOfRounds
  deriving DecidableEq, Repr

instance : MonadLift (Except Panic) (Except Failure) := ⟨Except.mapError .panic⟩

/-- A result of `int` arithmetic. -/
def int32 (v : ℤ) : Except Failure ℤ :=
  if -2 ^ 31 ≤ v ∧ v < 2 ^ 31 then .ok v else .error .overflow

/-- A result in range. -/
theorem int32_eq_ok {v : ℤ} (h : -2 ^ 31 ≤ v) (h' : v < 2 ^ 31) : int32 v = .ok v :=
  if_pos ⟨h, h'⟩

/-- A check that succeeds goes on. -/
theorem lift_assert_bind {α : Type} {b : Bool} {expr : String} (h : b = true)
    (f : Unit → Except Failure α) :
    ((liftM (assert b expr) : Except Failure Unit) >>= f) = f () := by
  rw [assert, if_pos h]
  rfl

end CLib
