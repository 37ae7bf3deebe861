import IntegerProgramming.Arithmetic.Basic

/-!
# Records — what a search reports

A record has a status, the best integer point that was found with its objective, and statistics:
iterations, the final gap, the history of the two bounds, and counts of nodes and improvements.
-/

namespace IntegerProgramming

/-- How a search ended. -/
inductive Status where
  /-- The point is optimal within the tolerances. -/
  | optimal
  /-- There is no integer point. -/
  | infeasible
  /-- There are integer points, and the objective grows without limit. -/
  | unbounded
  /-- The limit on iterations was reached; the point is the best one found. -/
  | iterationLimit
  deriving DecidableEq, Repr

namespace Status

/-- The status in words. -/
def text : Status → String
  | optimal => "Optimal"
  | infeasible => "Infeasible"
  | unbounded => "Unbounded"
  | iterationLimit => "Maximum number of iterations reached"

/-- Whether a point is reported with this status. -/
def hasSolution : Status → Bool
  | optimal | iterationLimit => true
  | infeasible | unbounded => false

/-- Whether the point is proved optimal. -/
def isOptimal : Status → Bool
  | optimal => true
  | _ => false

/-- Every status. -/
def all : List Status := [optimal, infeasible, unbounded, iterationLimit]

end Status

/-- An integer point and its objective. -/
structure Solution (α : Type) where
  point : List α
  value : α
  deriving DecidableEq, Repr

/-- What is known of a search besides its solution. -/
structure Stats (α : Type) where
  /-- Two for each node that was branched. -/
  iterations : Nat := 0
  /-- The final relative gap. -/
  gap : Option α := none
  /-- The lower and the upper bound at the start and after each node. -/
  history : List (α × α) := []
  /-- Nodes that were branched. -/
  explored : Nat := 0
  /-- Children that were discarded. -/
  pruned : Nat := 0
  /-- How often the best point was replaced by a better one, the first time included. -/
  improvements : Nat := 0
  deriving DecidableEq, Repr

/-- The report of a search. -/
structure Record (α : Type) where
  status : Status
  best : Option (Solution α)
  stats : Stats α
  deriving DecidableEq, Repr

namespace Record

variable {α : Type}

/-- No integer point, known after so many iterations. -/
def infeasible (iterations : Nat) : Record α :=
  ⟨.infeasible, none, { iterations }⟩

/-- No greatest objective, known after so many iterations. -/
def unbounded (iterations : Nat) : Record α :=
  ⟨.unbounded, none, { iterations }⟩

/-- A solution found at the root, where both bounds meet. -/
def atRoot [Arith α] (s : Solution α) : Record α :=
  ⟨.optimal, some s, { gap := some 0, history := [(s.value, s.value)], improvements := 1 }⟩

/-- The lower bounds over time. -/
def lowerBounds (r : Record α) : List α := r.stats.history.map Prod.fst

/-- The upper bounds over time. -/
def upperBounds (r : Record α) : List α := r.stats.history.map Prod.snd

end Record

/-- The gap `|upper - lower| / |lower|`; there is none at a zero or non-finite lower bound, nor at a
non-finite upper bound. -/
def relativeGap {α : Type} [Scalar α] (lower upper : α) : Option α :=
  if lower == 0 || !isFinite lower || !isFinite upper then none
  else some (absolute (upper - lower) / absolute lower)

end IntegerProgramming
