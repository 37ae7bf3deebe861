import IntegerProgramming.SparseMatrix.Source

/-!
# Integer programs

A `Program` asks for the greatest value of `objective · x` over the nonnegative integer points `x`
with `matrix x ≤ limits`.  All its data are finite numbers.

* `validate_eq_ok_iff`: the shapes agree and every number is finite.
* `satisfies_iff`: a point satisfies the constraints if it has a coordinate for every variable, none
  is below `-tol`, and no row exceeds its limit by more than `tol`.
-/

namespace IntegerProgramming

/-- Maximise `objective · x` over integer `x ≥ 0` with `matrix x ≤ limits`. -/
structure Program (α : Type) where
  /-- Coefficient of each variable in the objective. -/
  objective : List α
  /-- The constraint matrix, a row for each constraint. -/
  matrix : SparseMatrix α
  /-- The right-hand side of each constraint. -/
  limits : List α
  deriving DecidableEq, Repr

namespace Program

/-- Why an integer program is rejected. -/
inductive Error where
  /-- A dense row of the wrong length. -/
  | rowLength (e : RowLength)
  /-- The matrix has a row too many or too few. -/
  | rowCount (rows limits : Nat)
  /-- The matrix has a column too many or too few. -/
  | columnCount (cols objective : Nat)
  /-- Some datum is no number. -/
  | data
  deriving DecidableEq, Repr

/-- The reason in words. -/
def Error.message : Error → String
  | .rowLength e => "Invalid problem: Dimension mismatch: " ++ e.text
  | .rowCount rows limits =>
    s!"Invalid problem: A has {rows} rows but b has length {limits}"
  | .columnCount cols objective =>
    s!"Invalid problem: A has {cols} cols but c has length {objective}"
  | .data => "Invalid problem: problem data must be finite"

variable {α : Type}

/-- Number of variables. -/
def numVars (p : Program α) : Nat := p.objective.length

/-- Number of constraints. -/
def numConstraints (p : Program α) : Nat := p.limits.length

section Scalar

variable [Scalar α]

/-- Every number of the program is finite. -/
def hasFiniteData (p : Program α) : Bool :=
  p.objective.all isFinite && p.limits.all isFinite && p.matrix.values.all isFinite

/-- Accept the program, or say what is wrong with it. -/
def validate (p : Program α) : Except Error Unit :=
  if p.matrix.rows ≠ p.numConstraints then .error (.rowCount p.matrix.rows p.numConstraints)
  else if p.matrix.cols ≠ p.numVars then .error (.columnCount p.matrix.cols p.numVars)
  else if p.hasFiniteData then .ok ()
  else .error .data

/-- The program with a stored matrix, if it is accepted. -/
def new (matrix : SparseMatrix α) (limits objective : List α) : Except Error (Program α) :=
  let p : Program α := ⟨objective, matrix, limits⟩
  p.validate.map fun _ => p

/-- The program with a matrix in any form, if it is accepted. -/
def ofSource (source : SparseMatrix.Source α) (limits objective : List α) :
    Except Error (Program α) :=
  match source.toMatrix objective.length with
  | .error e => .error (.rowLength e)
  | .ok matrix => new matrix limits objective

end Scalar

section Arith

variable [Arith α]

/-- The same constraints under a constant objective. -/
def withZeroObjective (p : Program α) : Program α :=
  { p with objective := List.replicate p.numVars 0 }

/-- The objective at a point. -/
def value (p : Program α) (x : List α) : α :=
  dot p.objective x

/-- The left-hand sides of the constraints at a point; `none` if the point lacks a coordinate. -/
def activities? (p : Program α) (x : List α) : Option (List α) :=
  p.matrix.product? x

/-- No left-hand side exceeds its limit by more than `tol`. -/
def withinLimits (p : Program α) (activities : List α) (tol : α) : Bool :=
  (List.zip activities p.limits).all fun row => decide (row.1 ≤ row.2 + tol)

/-- The point has a coordinate for each variable, none below `-tol`, and stays within the limits. -/
def satisfies (p : Program α) (x : List α) (tol : α) : Bool :=
  if x.length ≠ p.numVars ∨ x.any fun v => decide (v < -tol) then false
  else
    match p.activities? x with
    | none => false
    | some activities => p.withinLimits activities tol

end Arith

/-! ### Acceptance -/

theorem validate_eq_ok_iff [Scalar α] (p : Program α) :
    p.validate = .ok () ↔
      p.matrix.rows = p.numConstraints ∧ p.matrix.cols = p.numVars ∧ p.hasFiniteData = true := by
  unfold validate
  by_cases hr : p.matrix.rows = p.numConstraints
  · by_cases hc : p.matrix.cols = p.numVars
    · cases hf : p.hasFiniteData <;> simp [hr, hc]
    · simp [hr, hc]
  · simp [hr]

theorem new_eq_ok_iff [Scalar α] {matrix : SparseMatrix α} {limits objective : List α}
    {p : Program α} :
    new matrix limits objective = .ok p ↔
      p = ⟨objective, matrix, limits⟩ ∧ p.validate = .ok () := by
  simp only [new]
  constructor
  · intro h
    cases hv : validate (⟨objective, matrix, limits⟩ : Program α) with
    | error e => simp [hv, Except.map] at h
    | ok u =>
      simp only [hv, Except.map, Except.ok.injEq] at h
      exact ⟨h.symm, h ▸ hv⟩
  · rintro ⟨rfl, hv⟩
    simp [hv, Except.map]

theorem ofSource_eq_ok_iff [Scalar α] {source : SparseMatrix.Source α} {limits objective : List α}
    {p : Program α} :
    ofSource source limits objective = .ok p ↔
      ∃ matrix, source.toMatrix objective.length = .ok matrix ∧ p = ⟨objective, matrix, limits⟩ ∧
        p.validate = .ok () := by
  unfold ofSource
  cases source.toMatrix objective.length <;> simp [new_eq_ok_iff]

theorem satisfies_iff [Arith α] {p : Program α} {x : List α} {tol : α} :
    p.satisfies x tol = true ↔
      x.length = p.numVars ∧ (∀ v ∈ x, ¬ v < -tol) ∧
        ∃ activities, p.activities? x = some activities ∧
          p.withinLimits activities tol = true := by
  unfold satisfies
  by_cases hl : x.length = p.numVars
  · by_cases hx : ∃ v ∈ x, v < -tol
    · obtain ⟨v, hv, hlt⟩ := hx
      have : (x.any fun v => decide (v < -tol)) = true :=
        List.any_eq_true.mpr ⟨v, hv, decide_eq_true hlt⟩
      simp only [hl, this, ne_eq, not_true_eq_false, or_true, if_true, Bool.false_eq_true,
        false_iff]
      exact fun h => h.2.1 v hv hlt
    · have hall : ∀ v ∈ x, ¬ v < -tol := fun v hv hlt => hx ⟨v, hv, hlt⟩
      have : (x.any fun v => decide (v < -tol)) = false := by
        simpa using hall
      cases ha : p.activities? x with
      | none => simp [hl, this]
      | some activities =>
        simp only [hl, this, ne_eq, not_true_eq_false, Bool.false_eq_true, or_self, if_false,
          Option.some.injEq, exists_eq_left', true_and]
        exact ⟨fun h => ⟨hall, h⟩, fun h => h.2⟩
  · simp [hl]

@[simp] theorem numVars_withZeroObjective [Arith α] (p : Program α) :
    p.withZeroObjective.numVars = p.numVars := by
  simp [withZeroObjective, numVars]

end Program

end IntegerProgramming
