import IntegerProgramming.LinearProgram.Tableau

/-!
# Linear programs — the two-phase simplex method

Phase one drives the artificial variables to zero, phase two maximises the objective from the basis
that phase one leaves.  Both follow `Tableau.move`, and both draw on one budget of pivots; the
exchanges that expel artificial variables between the phases are free.

* `optimize_pivots_le`: a phase stays within its budget.
* `solve_eq_ok`: a program that is accepted is solved, and no other.
-/

namespace IntegerProgramming.LinearProgram

/-- Limits and tolerances of the method. -/
structure Settings (α : Type) where
  /-- The greatest number of pivots in both phases together. -/
  pivotLimit : Nat
  /-- The least magnitude of a pivot, and of a coefficient that improves the objective. -/
  pivotTol : α
  /-- How much of the artificial variables may be left after phase one. -/
  feasTol : α
  deriving DecidableEq, Repr

/-- The settings in use where nothing else is asked for. -/
def Settings.standard {α : Type} [Arith α] : Settings α :=
  ⟨50000, 1e-9, 1e-9⟩

/-! ### One phase -/

/-- How a phase ends. -/
inductive Ending where
  | optimal
  | unbounded
  | pivotLimit
  deriving DecidableEq, Repr

/-- A finished phase: how it ended, after how many pivots, and at which tableau. -/
structure Phase (α : Type) where
  ending : Ending
  pivots : Nat
  tableau : Tableau α
  deriving DecidableEq, Repr

/-- One more pivot before a phase. -/
def Phase.afterPivot {α : Type} (phase : Phase α) : Phase α :=
  { phase with pivots := phase.pivots + 1 }

/-- Moves with the columns below `limit` allowed to enter, until one ends the phase or the budget is
spent. -/
def Tableau.optimize {α : Type} [Arith α] (tol : α) (limit : Nat) :
    (budget : Nat) → Tableau α → Phase α
  | 0, t =>
    match t.entering? tol limit with
    | none => ⟨.optimal, 0, t⟩
    | some _ => ⟨.pivotLimit, 0, t⟩
  | budget + 1, t =>
    match t.move tol limit with
    | .optimal => ⟨.optimal, 0, t⟩
    | .unbounded _ => ⟨.unbounded, 0, t⟩
    | .pivot r j => (optimize tol limit budget (t.pivot r j)).afterPivot

/-! ### Results -/

/-- How it was seen that a program has no point. -/
inductive Emptiness (α : Type) where
  /-- The box is empty. -/
  | box
  /-- The artificial variables cannot sum to less than `excess`. -/
  | excess (excess : α)
  deriving DecidableEq, Repr

/-- What the method finds. -/
inductive Verdict (α : Type) where
  /-- A vertex of greatest objective. -/
  | optimal (vertex : List α) (objective : α)
  /-- No point satisfies the constraints. -/
  | infeasible (why : Emptiness α)
  /-- The objective grows without limit. -/
  | unbounded
  /-- The budget of pivots is spent. -/
  | pivotLimit
  /-- Phase one found its bounded objective unbounded. -/
  | numericalError
  deriving DecidableEq, Repr

/-- The verdict and the number of pivots it took. -/
structure Result (α : Type) where
  verdict : Verdict α
  pivots : Nat
  deriving DecidableEq, Repr

section Results

variable {α : Type}

/-- The vertex of an optimal result; any other has no coordinates. -/
def Verdict.vertex : Verdict α → List α
  | .optimal x _ => x
  | _ => []

/-- The greatest objective: `-∞` where there is no point, `∞` where there is no limit, and undefined
where nothing was found out. -/
def Verdict.objective [Scalar α] : Verdict α → α
  | .optimal _ v => v
  | .infeasible _ => -infinity
  | .unbounded => infinity
  | .pivotLimit | .numericalError => undefined

/-- The name of the verdict. -/
def Verdict.name : Verdict α → String
  | .optimal .. => "Optimal"
  | .infeasible _ => "Infeasible"
  | .unbounded => "Unbounded"
  | .pivotLimit => "MaxIters"
  | .numericalError => "Numerical Error"

end Results

/-! ### Two phases -/

section Solve

variable {α : Type} [Scalar α]

/-- The tableau at the start: the constraints of the program, without objective. -/
def startTableau (p : LinearProgram α) : Tableau α :=
  .start p.numVars p.constraints

/-- Phase one: a tableau whose basic solution satisfies the constraints, and the pivots spent on it;
or the result, if there is none.  Without artificial variables the start is such a tableau. -/
def phaseOne (s : Settings α) (t : Tableau α) : Except (Result α) (Tableau α × Nat) :=
  if t.hasArtificials then
    let phase := t.withArtificialObjective.optimize s.pivotTol t.columns s.pivotLimit
    match phase.ending with
    | .pivotLimit => .error ⟨.pivotLimit, phase.pivots⟩
    | .unbounded => .error ⟨.numericalError, phase.pivots⟩
    | .optimal =>
      let excess := -phase.tableau.objective.rhs
      if s.feasTol < excess then .error ⟨.infeasible (.excess excess), phase.pivots⟩
      else .ok (phase.tableau.expelArtificials s.pivotTol, phase.pivots)
  else .ok (t, 0)

/-- Phase two, from a tableau that phase one reached after `spent` pivots: artificial variables may
not enter again. -/
def phaseTwo (s : Settings α) (c : List α) (t : Tableau α) (spent : Nat) : Phase α :=
  (t.withObjective c).optimize s.pivotTol t.firstArtificial (s.pivotLimit - spent)

/-- What phase two found out. -/
def Phase.verdict (phase : Phase α) (c : List α) : Verdict α :=
  match phase.ending with
  | .optimal => .optimal phase.tableau.vertex (dot c phase.tableau.vertex)
  | .unbounded => .unbounded
  | .pivotLimit => .pivotLimit

/-- Both phases on an accepted program. -/
def optimum (p : LinearProgram α) (s : Settings α) : Result α :=
  if p.box.isEmpty then ⟨.infeasible .box, 0⟩
  else
    match phaseOne s p.startTableau with
    | .error result => result
    | .ok (t, spent) =>
      let phase := phaseTwo s p.objective t spent
      ⟨phase.verdict p.objective, spent + phase.pivots⟩

/-- Solve a program, if it is accepted. -/
def solve (p : LinearProgram α) (s : Settings α) : Except (Error α) (Result α) :=
  p.validate.map fun _ => p.optimum s

end Solve

/-! ### Laws of a phase -/

theorem optimize_pivots_le {α : Type} [Arith α] (tol : α) (limit budget : Nat) (t : Tableau α) :
    (t.optimize tol limit budget).pivots ≤ budget := by
  induction budget generalizing t with
  | zero => unfold Tableau.optimize; split <;> exact Nat.le_refl 0
  | succ budget ih =>
    unfold Tableau.optimize
    split
    · exact Nat.zero_le _
    · exact Nat.zero_le _
    · exact Nat.succ_le_succ (ih _)

theorem solve_eq_ok {α : Type} [Scalar α] {p : LinearProgram α} {s : Settings α}
    (h : p.validate = .ok ()) : p.solve s = .ok (p.optimum s) := by
  simp [solve, h, Except.map]

end IntegerProgramming.LinearProgram
