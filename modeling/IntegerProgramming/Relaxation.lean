import IntegerProgramming.Fault
import IntegerProgramming.LinearProgram.Simplex
import IntegerProgramming.Subproblem

/-!
# Relaxations — what an oracle answers

The relaxation of a subproblem drops integrality.  An `Oracle` solves it, or says why it could
not; it may keep a state of its own and report on the linear programs it solved.  `simplexOracle`
is the oracle that runs the simplex method, and counts its solves and pivots.
-/

namespace IntegerProgramming

/-- The answer to a relaxation. -/
inductive Relaxation (α : Type) where
  /-- The greatest objective, and a vertex that attains it. -/
  | optimal (value : α) (vertex : List α)
  /-- The region is empty. -/
  | infeasible
  /-- The objective grows without limit. -/
  | unbounded
  /-- The oracle gave up. -/
  | iterationLimit
  /-- The oracle came to an impossible result. -/
  | numericalError
  deriving DecidableEq, Repr

namespace Relaxation

/-- The kind of an answer. -/
inductive Kind where
  | optimal
  | infeasible
  | unbounded
  | iterationLimit
  | numericalError
  deriving DecidableEq, Repr

/-- The name of the kind. -/
def Kind.name : Kind → String
  | .optimal => "Optimal"
  | .infeasible => "Infeasible"
  | .unbounded => "Unbounded"
  | .iterationLimit => "IterationLimit"
  | .numericalError => "NumericalError"

variable {α : Type}

/-- The kind of the answer. -/
def kind : Relaxation α → Kind
  | optimal .. => .optimal
  | infeasible => .infeasible
  | unbounded => .unbounded
  | iterationLimit => .iterationLimit
  | numericalError => .numericalError

/-- The greatest objective: `-∞` over an empty region, `∞` where there is no limit, and undefined
where nothing was found out. -/
def value [Scalar α] : Relaxation α → α
  | optimal v _ => v
  | infeasible => -infinity
  | unbounded => infinity
  | iterationLimit | numericalError => undefined

/-- The vertex of an optimal answer; any other has no coordinates. -/
def vertex : Relaxation α → List α
  | optimal _ x => x
  | _ => []

/-- The answer of the simplex method. -/
def ofVerdict : LinearProgram.Verdict α → Relaxation α
  | .optimal x v => .optimal v x
  | .infeasible _ => .infeasible
  | .unbounded => .unbounded
  | .pivotLimit => .iterationLimit
  | .numericalError => .numericalError

end Relaxation

/-- An answer or a failure, the state of the oracle afterwards, and the results of the linear
programs it solved on the way. -/
structure Reply (α β ε : Type) where
  answer : Except (Failure ε) (Relaxation α)
  state : β
  solved : List (LinearProgram.Result α)

/-- A solver of relaxations, with a state it may change. -/
structure Oracle (α β ε : Type) where
  ask : Subproblem α → β → Reply α β ε

/-- What the simplex oracle has done so far. -/
structure Effort where
  /-- Linear programs solved. -/
  solves : Nat
  /-- Pivots in all of them. -/
  pivots : Nat
  deriving DecidableEq, Repr

/-- One more linear program, solved in so many pivots. -/
def Effort.add (e : Effort) (pivots : Nat) : Effort :=
  ⟨e.solves + 1, e.pivots + pivots⟩

section SimplexOracle

variable {α : Type} [Scalar α]

/-- The linear program of a subproblem over its box. -/
def Subproblem.linearProgram (sub : Subproblem α) (box : Box α) :
    Except (LinearProgram.Error α) (LinearProgram α) :=
  (LinearProgram.new sub.program.objective sub.program.matrix sub.program.limits).bind
    fun p => p.withBox box

/-- The relaxation of a subproblem by the simplex method.  Over an empty box there is nothing to
solve. -/
def askSimplex (s : LinearProgram.Settings α) (sub : Subproblem α) (e : Effort) :
    Reply α Effort (LinearProgram.Error α) :=
  match sub.box? with
  | none => ⟨.error (.fault .outOfRange), e, []⟩
  | some box =>
    if box.isEmpty then ⟨.ok .infeasible, e, []⟩
    else
      match (sub.linearProgram box).bind fun p => p.solve s with
      | .error err => ⟨.error (.error err), e, []⟩
      | .ok result => ⟨.ok (.ofVerdict result.verdict), e.add result.pivots, [result]⟩

/-- The oracle that runs the simplex method. -/
def simplexOracle (s : LinearProgram.Settings α) :
    Oracle α Effort (LinearProgram.Error α) where
  ask := askSimplex s

/-- What the simplex oracle answers does not depend on what it has done before. -/
theorem answer_askSimplex (s : LinearProgram.Settings α) (sub : Subproblem α) (e e' : Effort) :
    (askSimplex s sub e).answer = (askSimplex s sub e').answer := by
  unfold askSimplex
  split
  · rfl
  · split
    · rfl
    · split <;> rfl

end SimplexOracle

end IntegerProgramming
