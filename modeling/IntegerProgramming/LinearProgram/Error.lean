import IntegerProgramming.Decimal.Shortest
import IntegerProgramming.LinearProgram.Basic

/-!
# Linear programs — why one is rejected, in words

An error belongs to one of three kinds, and its text begins with the kind.
-/

namespace IntegerProgramming.LinearProgram

/-- What sort of rule is broken. -/
inductive Error.Kind where
  | dimension
  | data
  | bounds
  deriving DecidableEq, Repr

/-- How a text about a broken rule of this kind begins. -/
def Error.Kind.label : Error.Kind → String
  | .dimension => "Dimension mismatch: "
  | .data => "Non-finite data: "
  | .bounds => "Invalid bounds: "

/-- The sort of rule an error is about. -/
def Error.kind {α : Type} : Error α → Error.Kind
  | .rowLength _ | .rowCount .. | .columnCount .. | .boxSize .. => .dimension
  | .objective .. | .limit .. | .entry => .data
  | .lowerEnd .. | .upperEnd _ => .bounds

/-- What is wrong, without the kind. -/
def Error.text : Error Float → String
  | .rowLength e => e.text
  | .rowCount rows expected => s!"A has {rows} rows, expected {expected}"
  | .columnCount cols expected => s!"A has {cols} cols, expected {expected}"
  | .boxSize lower upper expected =>
    s!"bounds have lengths {lower}/{upper}, expected {expected}"
  | .objective j v => s!"c[{j}] = " ++ Decimal.shortest v
  | .limit i v => s!"b[{i}] = " ++ Decimal.shortest v
  | .entry => "A has a non-finite entry"
  | .lowerEnd j v =>
    s!"lower bound of x{j} is " ++ Decimal.shortest v ++ ", must be finite and >= 0"
  | .upperEnd j => s!"upper bound of x{j} is NaN"

/-- The whole text. -/
def Error.message (e : Error Float) : String :=
  e.kind.label ++ e.text

end IntegerProgramming.LinearProgram
