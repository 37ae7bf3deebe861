import IntegerProgramming.Arithmetic.Basic

/-!
# Arithmetic — double precision

The instance at which the solver runs: each operation is correctly rounded to a double, and
nothing is reassociated or fused.
-/

namespace IntegerProgramming

instance : Scalar Float where
  zero := 0.0
  one := 1.0
  add := Float.add
  sub := Float.sub
  mul := Float.mul
  div := Float.div
  neg := Float.neg
  lt := (· < ·)
  le := (· ≤ ·)
  beq := Float.beq
  ofScientific := Float.ofScientific
  decLt := Float.decLt
  decLe := Float.decLe
  infinity := 1.0 / 0.0
  undefined := 0.0 / 0.0
  floor := Float.floor
  ceil := Float.ceil
  round := Float.round
  toWord := Float.toUInt64

end IntegerProgramming
