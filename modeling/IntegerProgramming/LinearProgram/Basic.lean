import IntegerProgramming.Box
import IntegerProgramming.SparseMatrix.Source

/-!
# Linear programs

A `LinearProgram` asks for the greatest value of `objective · x` over the points `x` with
`matrix x ≤ limits` inside a box.  Lower ends are finite and not negative, upper ends may be
infinite, and all other data are finite numbers; `validate` says what is wrong with a program that
breaks these rules, the first violation in a fixed order: shapes, then data, then the box variable
by variable.

* `validate_eq_ok_iff`: a program is accepted if none of the three groups of rules is broken.
-/

namespace IntegerProgramming

/-- Maximise `objective · x` where `matrix x ≤ limits` and `x` lies in `box`.  The matrix is stored
by rows: every constructor sees to that, and `validate` does not test it. -/
structure LinearProgram (α : Type) where
  /-- Coefficient of each variable in the objective. -/
  objective : List α
  /-- The constraint matrix, stored by rows, one for each constraint. -/
  matrix : SparseMatrix α
  /-- The right-hand side of each constraint. -/
  limits : List α
  /-- The interval of each variable. -/
  box : Box α
  deriving DecidableEq, Repr

namespace LinearProgram

/-- Why a linear program is rejected. -/
inductive Error (α : Type) where
  /-- A dense row of the wrong length. -/
  | rowLength (e : RowLength)
  /-- The matrix has the wrong number of rows. -/
  | rowCount (rows expected : Nat)
  /-- The matrix has the wrong number of columns. -/
  | columnCount (cols expected : Nat)
  /-- The box has the wrong number of lower or upper ends. -/
  | boxSize (lower upper expected : Nat)
  /-- A coefficient of the objective is no number. -/
  | objective (j : Nat) (value : α)
  /-- A right-hand side is no number. -/
  | limit (i : Nat) (value : α)
  /-- An entry of the matrix is no number. -/
  | entry
  /-- A lower end is no number, or negative. -/
  | lowerEnd (j : Nat) (value : α)
  /-- An upper end is undefined. -/
  | upperEnd (j : Nat)
  deriving DecidableEq, Repr

variable {α : Type} [Scalar α]

/-- Number of variables. -/
def numVars (p : LinearProgram α) : Nat := p.objective.length

/-- Number of constraints. -/
def numConstraints (p : LinearProgram α) : Nat := p.limits.length

/-- The position and value of the first entry that is no number. -/
def firstNonFinite (xs : List α) : Option (Nat × α) :=
  (xs.zipIdx.find? fun entry => !isFinite entry.1).map fun entry => (entry.2, entry.1)

/-- The first violation among the sizes. -/
def shapeError? (p : LinearProgram α) : Option (Error α) :=
  if p.matrix.rows ≠ p.numConstraints then
    some (.rowCount p.matrix.rows p.numConstraints)
  else if p.matrix.cols ≠ p.numVars then
    some (.columnCount p.matrix.cols p.numVars)
  else if p.box.lower.length ≠ p.numVars ∨ p.box.upper.length ≠ p.numVars then
    some (.boxSize p.box.lower.length p.box.upper.length p.numVars)
  else none

/-- The first datum that is no number: objective, then right-hand sides, then matrix. -/
def dataError? (p : LinearProgram α) : Option (Error α) :=
  match firstNonFinite p.objective with
  | some (j, v) => some (.objective j v)
  | none =>
    match firstNonFinite p.limits with
    | some (i, v) => some (.limit i v)
    | none => if p.matrix.values.all isFinite then none else some .entry

/-- What is wrong with the interval of variable `j`; the lower end is looked at first. -/
def intervalError? (j : Nat) (lower upper : α) : Option (Error α) :=
  if !isFinite lower || decide (lower < 0) then some (.lowerEnd j lower)
  else if isUndefined upper then some (.upperEnd j)
  else none

/-- The first variable with a forbidden interval. -/
def boxError? (p : LinearProgram α) : Option (Error α) :=
  (List.zip p.box.lower p.box.upper).zipIdx.findSome? fun entry =>
    intervalError? entry.2 entry.1.1 entry.1.2

/-- The first violation. -/
def error? (p : LinearProgram α) : Option (Error α) :=
  p.shapeError? <|> p.dataError? <|> p.boxError?

/-- Accept the program, or say what is wrong with it. -/
def validate (p : LinearProgram α) : Except (Error α) Unit :=
  match p.error? with
  | some e => .error e
  | none => .ok ()

/-- The program itself, if it is accepted. -/
def checked (p : LinearProgram α) : Except (Error α) (LinearProgram α) :=
  p.validate.map fun _ => p

/-- Nonnegative variables and a stored matrix. -/
def new (objective : List α) (matrix : SparseMatrix α) (limits : List α) :
    Except (Error α) (LinearProgram α) :=
  checked ⟨objective, matrix, limits, .nonnegative objective.length⟩

/-- Nonnegative variables and a matrix in any form. -/
def ofSource (objective : List α) (source : SparseMatrix.Source α) (limits : List α) :
    Except (Error α) (LinearProgram α) :=
  match source.toMatrix objective.length with
  | .error e => .error (.rowLength e)
  | .ok matrix => new objective matrix limits

/-- The same program over another box. -/
def withBox (p : LinearProgram α) (box : Box α) : Except (Error α) (LinearProgram α) :=
  checked { p with box }

/-! ### Acceptance -/

theorem validate_eq_ok_iff (p : LinearProgram α) :
    p.validate = .ok () ↔
      p.shapeError? = none ∧ p.dataError? = none ∧ p.boxError? = none := by
  unfold validate error?
  cases p.shapeError? <;> cases p.dataError? <;> cases p.boxError? <;> simp

theorem checked_eq_ok_iff {p q : LinearProgram α} :
    p.checked = .ok q ↔ p.validate = .ok () ∧ q = p := by
  unfold checked
  cases p.validate <;> simp [Except.map, eq_comm]

theorem ofSource_eq_ok_iff {source : SparseMatrix.Source α} {objective limits : List α}
    {p : LinearProgram α} :
    ofSource objective source limits = .ok p ↔
      ∃ matrix, source.toMatrix objective.length = .ok matrix ∧
        p = ⟨objective, matrix, limits, .nonnegative objective.length⟩ ∧ p.validate = .ok () := by
  unfold ofSource
  cases source.toMatrix objective.length with
  | error e => simp
  | ok matrix =>
    simp only [new, checked_eq_ok_iff, Except.ok.injEq, exists_eq_left']
    constructor
    · rintro ⟨valid, rfl⟩
      exact ⟨rfl, valid⟩
    · rintro ⟨rfl, valid⟩
      exact ⟨valid, rfl⟩

end LinearProgram

end IntegerProgramming
