import Mathlib

/-!
# Calls that may not return

The C code guards itself with `assert`, `demand` and `panic`: each prints a
message and reboots the machine, so the call never returns. A call is a value
of `Except Panic`, where the error carries what the failing check prints.
-/

namespace CLib

/-- Why a call does not return. -/
inductive Panic where
  /-- `assert(expr)` found the expression false. -/
  | assertion (expr : String)
  /-- `demand(expr, msg)` found the expression false. -/
  | demand (expr msg : String)
  /-- `panic(msg)`. -/
  | message (msg : String)
  /-- `clean_reboot()`: the text printed before it. -/
  | cleanReboot (printed : String)
  deriving DecidableEq, Repr

/-- The macro `assert`. -/
def assert (b : Bool) (expr : String) : Except Panic Unit :=
  if b then .ok () else .error (.assertion expr)

/-- The macro `demand`. -/
def demand (b : Bool) (expr msg : String) : Except Panic Unit :=
  if b then .ok () else .error (.demand expr msg)

/-- `assert` returns exactly when the expression is true. -/
@[simp] theorem assert_eq_ok {b : Bool} {expr : String} {u : Unit} :
    assert b expr = .ok u ↔ b = true := by
  cases b <;> simp [assert]

/-- `demand` returns exactly when the expression is true. -/
@[simp] theorem demand_eq_ok {b : Bool} {expr msg : String} {u : Unit} :
    demand b expr msg = .ok u ↔ b = true := by
  cases b <;> simp [demand]

/-- A statement that succeeds goes on with its value. -/
theorem ok_bind {ε α β : Type} {x : Except ε α} {a : α} (h : x = .ok a) (f : α → Except ε β) :
    (x >>= f) = f a := by
  rw [h]
  rfl

/-- A sequence of calls returns exactly when each of them does. -/
theorem bind_eq_ok {ε α β : Type} {x : Except ε α} {f : α → Except ε β} {b : β} :
    (x >>= f) = .ok b ↔ ∃ a, x = .ok a ∧ f a = .ok b := by
  cases x <;> simp [Bind.bind, Except.bind]

/-- A sequence of calls fails with the first of them that does. -/
theorem bind_eq_error {ε α β : Type} {x : Except ε α} {f : α → Except ε β} {e : ε} :
    (x >>= f) = .error e ↔ x = .error e ∨ ∃ a, x = .ok a ∧ f a = .error e := by
  cases x <;> simp [Bind.bind, Except.bind]

/-- A call that returns a pair returns one pair. -/
theorem ok_pair_unique {ε α β : Type} {x : Except ε (α × β)} {a a' : α} {b b' : β}
    (h : x = .ok (a, b)) (h' : x = .ok (a', b')) : a = a' ∧ b = b' :=
  Prod.mk.inj (Except.ok.inj (h.symm.trans h'))

/-- Returning a value. -/
@[simp] theorem pure_eq_ok {ε α : Type} {a b : α} :
    (pure a : Except ε α) = .ok b ↔ a = b := by
  simp [Pure.pure, Except.pure]

end CLib
