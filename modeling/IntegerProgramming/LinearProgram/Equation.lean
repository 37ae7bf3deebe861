import IntegerProgramming.Arithmetic.Basic

/-!
# Linear equations

The row operations of a tableau: an equation `Σ coeffsⱼ · vⱼ = rhs` is divided by a number, and a
multiple of one equation is added to or taken from another, coefficient by coefficient and
right-hand side alike.  No operation changes the number of coefficients of equations of one
length.
-/

namespace IntegerProgramming.LinearProgram

/-- The equation `Σ coeffsⱼ · vⱼ = rhs`. -/
structure Equation (α : Type) where
  coeffs : List α
  rhs : α
  deriving DecidableEq, Repr

namespace Equation

variable {α : Type} [Arith α]

/-- The coefficient in column `j`. -/
def coeff (e : Equation α) (j : Nat) : α :=
  e.coeffs.getD j 0

/-- Both sides divided by `p`. -/
def divide (e : Equation α) (p : α) : Equation α :=
  ⟨e.coeffs.map (· / p), e.rhs / p⟩

/-- The two equations combined coefficient by coefficient. -/
def combine (f : α → α → α) (e e' : Equation α) : Equation α :=
  ⟨List.zipWith f e.coeffs e'.coeffs, f e.rhs e'.rhs⟩

/-- The difference of two equations. -/
def minus (e e' : Equation α) : Equation α :=
  e.combine (· - ·) e'

/-- `k` times the second equation added to the first. -/
def plusMultiple (e : Equation α) (k : α) (e' : Equation α) : Equation α :=
  e.combine (fun a b => a + k * b) e'

/-- `k` times the second equation taken from the first. -/
def minusMultiple (e : Equation α) (k : α) (e' : Equation α) : Equation α :=
  e.combine (fun a b => a - k * b) e'

/-- Column `j` cleared by means of an equation whose coefficient there is one; an equation without
that column is left as it is. -/
def clear (e : Equation α) (j : Nat) (unit : Equation α) : Equation α :=
  if e.coeff j == 0 then e else e.minusMultiple (e.coeff j) unit

@[simp] theorem length_divide (e : Equation α) (p : α) :
    (e.divide p).coeffs.length = e.coeffs.length := by
  simp [divide]

omit [Arith α] in
@[simp] theorem length_combine (f : α → α → α) (e e' : Equation α) :
    (e.combine f e').coeffs.length = min e.coeffs.length e'.coeffs.length := by
  simp [combine]

end Equation

end IntegerProgramming.LinearProgram
