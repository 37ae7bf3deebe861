import IntegerProgramming.Record

/-!
# The bracket — bounds on the optimum

The lower bound is the objective of the best integer point found, the upper bound the greatest
objective that an open region may still have.  The search stops when the two are close enough,
when it has used its iterations, or when nothing is open; the first of these reasons that holds is
given.
-/

namespace IntegerProgramming

/-- Why a search stops. -/
inductive Termination where
  /-- The relative gap is within its tolerance. -/
  | relativeGap
  /-- The absolute gap is within its tolerance. -/
  | absoluteGap
  /-- The iterations exceed their limit. -/
  | iterationLimit
  /-- No node is open. -/
  | frontierExhausted
  deriving DecidableEq, Repr

namespace Termination

/-- The name of the reason. -/
def name : Termination → String
  | relativeGap => "RelativeGap"
  | absoluteGap => "AbsoluteGap"
  | iterationLimit => "IterationLimit"
  | frontierExhausted => "FrontierExhausted"

/-- The status of a search that stops for this reason with a point: only the limit on iterations
leaves it unproved. -/
def status : Termination → Status
  | iterationLimit => .iterationLimit
  | _ => .optimal

/-- Every reason, in the order in which they are considered. -/
def all : List Termination := [relativeGap, absoluteGap, iterationLimit, frontierExhausted]

end Termination

/-- When a search may stop. -/
structure StopRule (α : Type) where
  /-- It stops when the iterations exceed this number. -/
  maxIterations : Nat
  /-- The relative gap at which it stops. -/
  relativeGap : α
  /-- The absolute gap at which it stops. -/
  absoluteGap : α
  deriving DecidableEq, Repr

/-- After this many nodes the iterations, two for each, exceed their limit. -/
def StopRule.nodeLimit {α : Type} (rule : StopRule α) : Nat :=
  rule.maxIterations / 2 + 1

theorem StopRule.lt_two_mul_nodeLimit {α : Type} (rule : StopRule α) :
    rule.maxIterations < 2 * rule.nodeLimit := by
  unfold StopRule.nodeLimit
  omega

/-- The two bounds, the iterations so far and the bounds recorded on the way. -/
structure Bracket (α : Type) where
  lower : α
  upper : α
  iterations : Nat
  history : List (α × α)
  rule : StopRule α
  deriving DecidableEq, Repr

namespace Bracket

variable {α : Type} [Scalar α]

/-- No integer point yet, and the bound of the root relaxation. -/
def start (rootBound : α) (rule : StopRule α) : Bracket α :=
  ⟨-infinity, rootBound, 0, [], rule⟩

/-- Whether an integer point was found. -/
def hasLower (b : Bracket α) : Bool := decide (-infinity < b.lower)

/-- The lower bound raised to an objective that was attained. -/
def raise (b : Bracket α) (value : α) : Bracket α :=
  { b with lower := greater b.lower value }

/-- The upper bound from the greatest bound of an open node; it never falls below the lower bound.
-/
def refresh (b : Bracket α) (best : Option α) : Bracket α :=
  { b with
    upper := match best with
      | some v => greater v b.lower
      | none => b.lower }

/-- The two bounds added to the history. -/
def record (b : Bracket α) : Bracket α :=
  { b with history := b.history ++ [(b.lower, b.upper)] }

/-- One more node branched. -/
def count (b : Bracket α) : Bracket α :=
  { b with iterations := b.iterations + 2 }

/-- The relative gap. -/
def gap (b : Bracket α) : Option α := relativeGap b.lower b.upper

/-- The relative gap is within its tolerance. -/
def relativeGapClosed (b : Bracket α) : Bool :=
  b.hasLower && !(b.lower == 0)
    && decide (absolute ((b.upper - b.lower) / b.lower) ≤ b.rule.relativeGap)

/-- The absolute gap is within its tolerance. -/
def absoluteGapClosed (b : Bracket α) : Bool :=
  b.hasLower && decide (absolute (b.upper - b.lower) ≤ b.rule.absoluteGap)

/-- The first reason to stop, if there is one. -/
def termination? (b : Bracket α) (nothingOpen : Bool) : Option Termination :=
  if b.relativeGapClosed then some .relativeGap
  else if b.absoluteGapClosed then some .absoluteGap
  else if b.rule.maxIterations < b.iterations then some .iterationLimit
  else if nothingOpen then some .frontierExhausted
  else none

/-- A search over its limit stops. -/
theorem termination?_ne_none_of_lt {b : Bracket α} {nothingOpen : Bool}
    (h : b.rule.maxIterations < b.iterations) : b.termination? nothingOpen ≠ none := by
  unfold termination?
  rw [if_pos h]
  split
  · exact Option.some_ne_none _
  · split
    · exact Option.some_ne_none _
    · exact Option.some_ne_none _

end Bracket

end IntegerProgramming
