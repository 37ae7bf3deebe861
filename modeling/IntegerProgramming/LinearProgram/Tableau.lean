import IntegerProgramming.LinearProgram.Basic
import IntegerProgramming.LinearProgram.Equation

/-!
# Linear programs — the simplex tableau

Each constraint `Σ aⱼ xⱼ ≤ b` becomes an equation with a slack variable; one whose right-hand side
is negative is negated and receives an artificial variable as well.  The columns are the structural
variables, the slacks and the artificials, in this order.  Every equation has a basic variable, and
the objective is kept as an equation `z + Σ oⱼ vⱼ = z₀`, so that a negative coefficient marks a
column that improves it.

A step of the method is a `Move`: the entering column is the first improving one, the leaving row
the one of least ratio, ratios closer than `tieWidth` counting as equal and the smaller basic
variable winning a tie.
-/

namespace IntegerProgramming.LinearProgram

/-! ### Constraints -/

/-- The constraint `Σ terms ≤ limit`. -/
structure Constraint (α : Type) where
  /-- Variables and their coefficients. -/
  terms : List (Nat × α)
  limit : α
  deriving DecidableEq, Repr

/-- The rows of the matrix, then `xⱼ ≤ upperⱼ` for the finite upper ends, then `-xⱼ ≤ -lowerⱼ` for
the positive lower ends. -/
def constraints {α : Type} [Scalar α] (p : LinearProgram α) : List (Constraint α) :=
  List.zipWith Constraint.mk p.matrix.rowEntries p.limits
    ++ p.box.upper.zipIdx.filterMap (fun (u, j) =>
        if isFinite u then some ⟨[(j, 1)], u⟩ else none)
    ++ p.box.lower.zipIdx.filterMap (fun (l, j) =>
        if 0 < l then some ⟨[(j, -1)], -l⟩ else none)

/-! ### Tableaus -/

/-- An equation with its basic variable. -/
structure Row (α : Type) where
  basic : Nat
  equation : Equation α
  deriving DecidableEq, Repr

/-- A system of equations with a basis, and an objective. -/
structure Tableau (α : Type) where
  /-- Number of structural variables. -/
  structural : Nat
  /-- The first column of an artificial variable. -/
  firstArtificial : Nat
  /-- Number of variables. -/
  columns : Nat
  rows : List (Row α)
  objective : Equation α
  deriving DecidableEq, Repr

namespace Tableau

variable {α : Type} [Arith α]

/-- `v` at position `i` among `n` zeros. -/
def unitVector (n i : Nat) (v : α) : List α :=
  (List.replicate n 0).set i v

/-- A constraint as equation `i` of `m`, with `k` artificial variables of which `a` are taken. -/
def startRow (n m k i a : Nat) (c : Constraint α) : Row α :=
  let sign : α := if c.limit < 0 then -1 else 1
  let structural := c.terms.foldl (fun row (j, v) => row.set j (sign * v)) (List.replicate n 0)
  let slack := unitVector m i sign
  if c.limit < 0 then
    ⟨n + m + a, structural ++ slack ++ unitVector k a 1, sign * c.limit⟩
  else
    ⟨n + i, structural ++ slack ++ List.replicate k 0, sign * c.limit⟩

/-- The constraints as equations from `i` on. -/
def startRows (n m k : Nat) : (i a : Nat) → List (Constraint α) → List (Row α)
  | _, _, [] => []
  | i, a, c :: rest =>
    startRow n m k i a c :: startRows n m k (i + 1) (if c.limit < 0 then a + 1 else a) rest

/-- The tableau of some constraints on `n` variables, with slacks and artificials as its basis and
no objective yet. -/
def start (n : Nat) (cs : List (Constraint α)) : Tableau α :=
  let m := cs.length
  let k := cs.countP fun c => decide (c.limit < 0)
  { structural := n
    firstArtificial := n + m
    columns := n + m + k
    rows := startRows n m k 0 0 cs
    objective := ⟨List.replicate (n + m + k) 0, 0⟩ }

/-- Whether a variable is artificial. -/
def isArtificial (t : Tableau α) (j : Nat) : Bool :=
  decide (t.firstArtificial ≤ j)

/-- Whether there are artificial variables. -/
def hasArtificials (t : Tableau α) : Bool :=
  decide (t.firstArtificial < t.columns)

/-! ### Objectives -/

/-- The objective `-Σ artificials`, expressed by the nonbasic variables. -/
def withArtificialObjective (t : Tableau α) : Tableau α :=
  let plain : Equation α :=
    ⟨List.replicate t.firstArtificial 0 ++ List.replicate (t.columns - t.firstArtificial) 1, 0⟩
  { t with
    objective := t.rows.foldl
      (fun e row => if t.isArtificial row.basic then e.minus row.equation else e) plain }

/-- The objective `Σ cⱼ xⱼ`, expressed by the nonbasic variables. -/
def withObjective (t : Tableau α) (c : List α) : Tableau α :=
  let plain : Equation α := ⟨c.map (- ·) ++ List.replicate (t.columns - c.length) 0, 0⟩
  { t with
    objective := t.rows.foldl
      (fun e row =>
        let cost := if row.basic < t.structural then c.getD row.basic 0 else 0
        if cost == 0 then e else e.plusMultiple cost row.equation) plain }

/-! ### The choice of a pivot -/

/-- The first of the columns below `limit` with a coefficient under `-tol` in the objective. -/
def entering? (t : Tableau α) (tol : α) (limit : Nat) : Option Nat :=
  (t.objective.coeffs.take limit).findIdx? fun o => decide (o < -tol)

/-- Ratios at most this far apart count as equal. -/
def tieWidth : α := 1e-12

/-- A row that may leave, its basic variable and its ratio. -/
structure Candidate (α : Type) where
  row : Nat
  basic : Nat
  ratio : α
  deriving DecidableEq, Repr

/-- Whether a later row is preferred to the best one so far. -/
def Candidate.beats (c best : Candidate α) : Bool :=
  decide (c.ratio < best.ratio - tieWidth)
    || (decide (absolute (c.ratio - best.ratio) ≤ tieWidth) && decide (c.basic < best.basic))

/-- The best row so far after looking at row `i`; rows without a coefficient above `tol` in column
`j` are passed over. -/
def contest (tol : α) (j : Nat) (best : Option (Candidate α)) (row : Row α) (i : Nat) :
    Option (Candidate α) :=
  let a := row.equation.coeff j
  if a ≤ tol then best
  else
    let c : Candidate α := ⟨i, row.basic, row.equation.rhs / a⟩
    match best with
    | none => some c
    | some b => if c.beats b then some c else some b

/-- The row that leaves when column `j` enters. -/
def leaving? (t : Tableau α) (tol : α) (j : Nat) : Option (Candidate α) :=
  t.rows.zipIdx.foldl (fun best (row, i) => contest tol j best row i) none

/-- What the method does next. -/
inductive Move where
  /-- No column improves the objective. -/
  | optimal
  /-- Column `column` improves the objective without limit. -/
  | unbounded (column : Nat)
  /-- Column `column` enters at row `row`. -/
  | pivot (row column : Nat)
  deriving DecidableEq, Repr

/-- The next move, with the columns below `limit` allowed to enter. -/
def move (t : Tableau α) (tol : α) (limit : Nat) : Move :=
  match t.entering? tol limit with
  | none => .optimal
  | some j =>
    match t.leaving? tol j with
    | none => .unbounded j
    | some c => .pivot c.row j

/-! ### Pivoting -/

/-- Column `j` becomes basic at row `r`: the row is divided by its coefficient there, and the column
is cleared from every other row and from the objective. -/
def pivot (t : Tableau α) (r j : Nat) : Tableau α :=
  match t.rows[r]? with
  | none => t
  | some row =>
    let unit := row.equation.divide (row.equation.coeff j)
    { t with
      rows := t.rows.mapIdx fun i other =>
        if i = r then ⟨j, unit⟩ else { other with equation := other.equation.clear j unit }
      objective := t.objective.clear j unit }

/-- Row `r` exchanges an artificial basic variable for the first other variable with a coefficient
beyond `tol`, if there is one. -/
def expel (tol : α) (t : Tableau α) (r : Nat) : Tableau α :=
  match t.rows[r]? with
  | none => t
  | some row =>
    if t.isArtificial row.basic then
      match (row.equation.coeffs.take t.firstArtificial).findIdx?
          fun a => decide (tol < absolute a) with
      | none => t
      | some j => t.pivot r j
    else t

/-- Artificial variables leave the basis row by row.  A row that keeps one has no other variable,
and says nothing about the program. -/
def expelArtificials (t : Tableau α) (tol : α) : Tableau α :=
  (List.range t.rows.length).foldl (expel tol) t

/-- The values of the structural variables when the nonbasic variables are zero; a negative one
counts as zero. -/
def vertex (t : Tableau α) : List α :=
  t.rows.foldl
    (fun x row =>
      if row.basic < t.structural then x.set row.basic (greater row.equation.rhs 0) else x)
    (List.replicate t.structural 0)

/-! ### Sizes -/

@[simp] theorem length_startRows (n m k i a : Nat) (cs : List (Constraint α)) :
    (startRows n m k i a cs).length = cs.length := by
  induction cs generalizing i a with
  | nil => rfl
  | cons c rest ih => simp [startRows, ih]

@[simp] theorem length_rows_pivot (t : Tableau α) (r j : Nat) :
    (t.pivot r j).rows.length = t.rows.length := by
  unfold pivot
  split <;> simp

@[simp] theorem columns_pivot (t : Tableau α) (r j : Nat) : (t.pivot r j).columns = t.columns := by
  unfold pivot
  split <;> rfl

@[simp] theorem structural_pivot (t : Tableau α) (r j : Nat) :
    (t.pivot r j).structural = t.structural := by
  unfold pivot
  split <;> rfl

@[simp] theorem firstArtificial_pivot (t : Tableau α) (r j : Nat) :
    (t.pivot r j).firstArtificial = t.firstArtificial := by
  unfold pivot
  split <;> rfl

theorem length_vertex (t : Tableau α) : t.vertex.length = t.structural := by
  suffices h : ∀ (rows : List (Row α)) (x : List α), (rows.foldl
      (fun x row => if row.basic < t.structural then x.set row.basic (greater row.equation.rhs 0)
        else x) x).length = x.length by
    simpa [vertex] using h t.rows (List.replicate t.structural 0)
  intro rows
  induction rows with
  | nil => intro x; rfl
  | cons row rest ih =>
    intro x
    rw [List.foldl_cons, ih]
    split <;> simp

end Tableau

end IntegerProgramming.LinearProgram
