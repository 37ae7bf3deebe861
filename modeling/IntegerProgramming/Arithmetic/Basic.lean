/-!
# Arithmetic — the operations of a computation

The solver is written once, for every kind of number.  `Arith` lists what a simplex tableau
needs of its entries: the four operations, the two comparisons, an equality test and decimal
literals.  `Scalar` adds the two infinities, the undefined value and the three roundings to an
integer, which variable bounds and branching need.

Both classes hold operations only, no laws.  A statement over a bare `[Scalar α]` therefore
holds under rounding as well as exactly; a statement that needs laws is made at an instance that
has them (`ExtRat`).
-/

namespace IntegerProgramming

/-- The operations a tableau performs on its entries. -/
class Arith (α : Type) extends Zero α, One α, Add α, Sub α, Mul α, Div α, Neg α, LT α, LE α,
    BEq α, OfScientific α where
  /-- Strict comparison is decided. -/
  decLt : ∀ a b : α, Decidable (a < b)
  /-- Weak comparison is decided. -/
  decLe : ∀ a b : α, Decidable (a ≤ b)

attribute [reducible] Arith.decLt Arith.decLe
attribute [instance] Arith.decLt Arith.decLe

/-- `Arith` with unbounded and undefined values, and with rounding to integers. -/
class Scalar (α : Type) extends Arith α where
  /-- Greater than every number. -/
  infinity : α
  /-- The undefined value; it compares with nothing, itself included. -/
  undefined : α
  /-- The greatest integer not above a number. -/
  floor : α → α
  /-- The least integer not below a number. -/
  ceil : α → α
  /-- The nearest integer, a half going away from zero. -/
  round : α → α
  /-- The integer part as a machine word; values outside its range go to the nearer end. -/
  toWord : α → UInt64

export Scalar (infinity undefined)

section Arith

variable {α : Type} [Arith α]

/-- Distance from zero. -/
def absolute (a : α) : α :=
  if a < 0 then -a else a

/-- Sum from left to right, starting at zero. -/
def total (xs : List α) : α :=
  xs.foldl (· + ·) 0

/-- `Σ aᵢ bᵢ` from left to right, over the common length. -/
def dot (a b : List α) : α :=
  total (List.zipWith (· * ·) a b)

/-- Whether a value is undefined. -/
def isUndefined (a : α) : Bool :=
  !(a == a)

/-- The greater of two values; an undefined one gives way to the other. -/
def greater (a b : α) : α :=
  if isUndefined a then b
  else if isUndefined b then a
  else if a < b then b
  else a

/-- The lesser of two values; an undefined one gives way to the other. -/
def lesser (a b : α) : α :=
  if isUndefined a then b
  else if isUndefined b then a
  else if b < a then b
  else a

end Arith

section Scalar

variable {α : Type} [Scalar α]

/-- Whether a value is a number, neither infinite nor undefined. -/
def isFinite (a : α) : Bool :=
  decide (-infinity < a) && decide (a < infinity)

/-- Distance to the nearest integer. -/
def fractionality (a : α) : α :=
  absolute (a - Scalar.round a)

/-- Every coordinate is within `tol` of an integer. -/
def isIntegral (x : List α) (tol : α) : Bool :=
  x.all fun v => decide (fractionality v ≤ tol)

/-- Every coordinate at its nearest integer. -/
def nearestIntegers (x : List α) : List α :=
  x.map Scalar.round

end Scalar

/-! ### Sums -/

section Sums

variable {α : Type} [Arith α]

theorem total_append_singleton (xs : List α) (a : α) : total (xs ++ [a]) = total xs + a := by
  simp [total]

end Sums

/-! ### The greater and the lesser of two -/

section Selection

variable {α : Type} [Arith α]

/-- What holds of two values holds of the greater. -/
theorem greater_ind {P : α → Prop} {a b : α} (ha : P a) (hb : P b) : P (greater a b) := by
  rw [greater]
  split
  · exact hb
  · split
    · exact ha
    · split
      · exact hb
      · exact ha

/-- What holds of two values holds of the lesser. -/
theorem lesser_ind {P : α → Prop} {a b : α} (ha : P a) (hb : P b) : P (lesser a b) := by
  rw [lesser]
  split
  · exact hb
  · split
    · exact ha
    · split
      · exact hb
      · exact ha

end Selection

end IntegerProgramming
