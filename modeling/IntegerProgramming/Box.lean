import IntegerProgramming.Arithmetic.Basic

/-!
# Boxes — an interval for every variable

The lower ends and the upper ends of the variables, in order.  An upper end may be infinite; a
box is empty as soon as one of its intervals is.
-/

namespace IntegerProgramming

/-- An interval for each variable. -/
structure Box (α : Type) where
  /-- Lower ends. -/
  lower : List α
  /-- Upper ends. -/
  upper : List α
  deriving DecidableEq, Repr

namespace Box

variable {α : Type} [Scalar α]

/-- Nonnegative and otherwise unbounded. -/
def nonnegative (n : Nat) : Box α :=
  ⟨List.replicate n 0, List.replicate n infinity⟩

/-- Some lower end lies above its upper end. -/
def isEmpty (box : Box α) : Bool :=
  (List.zip box.lower box.upper).any fun ends => decide (ends.2 < ends.1)

@[simp] theorem length_lower_nonnegative (n : Nat) :
    (nonnegative n : Box α).lower.length = n := by
  simp [nonnegative]

@[simp] theorem length_upper_nonnegative (n : Nat) :
    (nonnegative n : Box α).upper.length = n := by
  simp [nonnegative]

end Box

end IntegerProgramming
