import IntegerProgramming.Arithmetic.Basic

/-!
# Bound changes — the cuts that branching makes

A `BoundChange` bounds one variable from above or from below.  Splitting at a value bounds it by the
integer below on one side and by the integer above on the other, so that the value itself is cut off
and no integer is.
-/

namespace IntegerProgramming

/-- Which side of a variable is bounded. -/
inductive Side where
  /-- The variable is at most the value. -/
  | upper
  /-- The variable is at least the value. -/
  | lower
  deriving DecidableEq, Repr

/-- A bound on one variable. -/
structure BoundChange (α : Type) where
  var : Nat
  side : Side
  value : α
  deriving DecidableEq, Repr

namespace BoundChange

variable {α : Type}

/-- The variable is at most the integer below `value`. -/
def down [Scalar α] (var : Nat) (value : α) : BoundChange α :=
  ⟨var, .upper, Scalar.floor value⟩

/-- The variable is at least the integer above `value`. -/
def up [Scalar α] (var : Nat) (value : α) : BoundChange α :=
  ⟨var, .lower, Scalar.ceil value⟩

/-- Whether a value of the variable is allowed. -/
def allows [Arith α] (change : BoundChange α) (v : α) : Bool :=
  match change.side with
  | .upper => decide (v ≤ change.value)
  | .lower => decide (change.value ≤ v)

/-- Whether a point is allowed; `none` if it lacks the coordinate. -/
def admits? [Arith α] (change : BoundChange α) (x : List α) : Option Bool :=
  x[change.var]?.map change.allows

end BoundChange

end IntegerProgramming
