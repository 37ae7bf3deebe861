import IntegerProgramming.BoundChange
import IntegerProgramming.Fault

/-!
# Branching — where to split a region

A `Selector` names the coordinate of a vertex to branch on, or none if it takes the vertex for
integral.  `firstFractional` names the first coordinate that is no integer within the tolerance.

* `firstFractional_eq_none_iff`: it names none just where every coordinate is an integer within the
  tolerance, as far as the comparison with the tolerance goes.
-/

namespace IntegerProgramming

/-- From a vertex and a tolerance, the coordinate to branch on. -/
abbrev Selector (α : Type) := List α → α → Option Nat

/-- A split of a region in two. -/
structure Decision (α : Type) where
  /-- The variable that is split. -/
  var : Nat
  /-- Its value at the vertex. -/
  value : α
  /-- The bound of the first part. -/
  down : BoundChange α
  /-- The bound of the second part. -/
  up : BoundChange α
  deriving DecidableEq, Repr

variable {α : Type} [Scalar α]

/-- The split of variable `var` at `value`. -/
def Decision.at (var : Nat) (value : α) : Decision α :=
  ⟨var, value, .down var value, .up var value⟩

/-- The first coordinate that is not within `tol` of an integer. -/
def firstFractional : Selector α := fun x tol =>
  x.findIdx? fun v => decide (tol < fractionality v)

/-- The split at the coordinate that a selector names; a fault if the vertex does not have it. -/
def Selector.decide? (select : Selector α) (x : List α) (tol : α) :
    Except Fault (Option (Decision α)) :=
  match select x tol with
  | none => .ok none
  | some var =>
    match x[var]? with
    | none => .error .outOfRange
    | some value => .ok (some (.at var value))

theorem firstFractional_eq_none_iff {x : List α} {tol : α} :
    firstFractional x tol = none ↔ ∀ v ∈ x, ¬ tol < fractionality v := by
  simp [firstFractional, List.findIdx?_eq_none_iff]

end IntegerProgramming
