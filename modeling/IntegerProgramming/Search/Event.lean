import IntegerProgramming.Arithmetic.Binary64
import IntegerProgramming.Bracket
import IntegerProgramming.Decimal.Rounded
import IntegerProgramming.Frontier
import IntegerProgramming.Incumbent
import IntegerProgramming.Relaxation
import IntegerProgramming.Rounding

/-!
# Search — events

A search keeps a journal of what happens, in order: what the oracle was asked and answered, which
nodes were selected and created, what became of each (`Fate`), and the milestones of the search.
The journal is data; the log of a run is the text of those events that have one, down to a level
of detail.

* `Journal.calls_push`: the calls of the oracle are read off the journal, event by event.
-/

namespace IntegerProgramming.Search

/-- How important a line of the log is. -/
inductive Level where
  | error
  | warn
  | info
  | debug
  | trace
  deriving DecidableEq, Repr

namespace Level

/-- The number of more important levels. -/
def rank : Level → Nat
  | error => 0
  | warn => 1
  | info => 2
  | debug => 3
  | trace => 4

/-- The name of the level. -/
def name : Level → String
  | error => "ERROR"
  | warn => "WARN"
  | info => "INFO"
  | debug => "DEBUG"
  | trace => "TRACE"

end Level

/-- What becomes of a child when its relaxation is known. -/
inductive Fate (α : Type) where
  /-- Its vertex is integral and competes for the incumbent. -/
  | candidate (s : Solution α)
  /-- It stays open. -/
  | kept (bound : α) (vertex : List α)
  /-- It is discarded: its region is empty, or its bound does not exceed the incumbent. -/
  | pruned (kind : Relaxation.Kind)
  /-- It is discarded: its relaxation is said to be unbounded, which that of the root is not. -/
  | discarded
  deriving DecidableEq, Repr

/-- Whether the search is done with the child. -/
def Fate.closes {α : Type} : Fate α → Bool
  | .kept .. => false
  | _ => true

/-- Something that happens during a search. -/
inductive Event (α ε : Type) where
  /-- The search of a program of this size begins. -/
  | started (numVars numConstraints : Nat) (selection : NodeSelection)
  /-- A linear program was solved. -/
  | solved (result : LinearProgram.Result α)
  /-- The oracle answered. -/
  | asked (sub : Subproblem α) (answer : Except (Failure ε) (Relaxation α))
  /-- The root has no point. -/
  | rootInfeasible
  /-- The root has no greatest objective; whether it has integer points is looked at next. -/
  | rootUnbounded
  /-- The vertex of the root is integral. -/
  | rootIntegral (value : α)
  /-- A rounding of the root vertex satisfies the constraints. -/
  | rounded (how : Rounding)
  /-- The heuristic found a point. -/
  | seeded (s : Solution α)
  /-- A node is branched. -/
  | selected (node : Node α)
  /-- A child was created. -/
  | created (node : Node α)
  /-- A child met its fate. -/
  | filed (node : Node α) (fate : Fate α)
  /-- The integral vertex of a child is the new incumbent. -/
  | improved (node : Node α) (value : α)
  /-- How far the search has come. -/
  | progress (bracket : Bracket α) (openNodes : Nat)
  /-- The search stops. -/
  | finished (reason : Termination) (iterations explored pruned : Nat)
  /-- The search is over and has a record. -/
  | summary (status : Status) (effort : Effort)

/-- The events of a search in order. -/
abbrev Journal (α ε : Type) := Array (Event α ε)

/-! ### The log -/

/-- A number with six places. -/
def number (x : Float) : String :=
  Decimal.fixed 6 x

/-- A gap in percent. -/
def percent : Option Float → String
  | none => "-"
  | some gap => Decimal.fixed 2 (gap * 100.0) ++ "%"

/-- What is said about a solved linear program. -/
def resultLine (result : LinearProgram.Result Float) : Option String :=
  match result.verdict with
  | .optimal _ v => some (s!"simplex optimal after {result.pivots} pivots, obj=" ++ number v)
  | .infeasible (.excess v) =>
    some ("phase one ended with infeasibility " ++ Decimal.scientific 3 v)
  | _ => none

/-- The line of an event in the log, if it has one. -/
def Event.line? {ε : Type} : Event Float ε → Option (Level × String)
  | .started n m selection =>
    some (.info, s!"solver-ilp: {n} variables, {m} constraints, " ++ selection.name
      ++ " node selection")
  | .solved result => (resultLine result).map fun line => (.trace, line)
  | .asked .. | .selected _ | .created _ => none
  | .filed _ (.candidate _) | .filed _ (.kept ..) => none
  | .filed node (.pruned kind) =>
    some (.debug, s!"Pruned node {node.id} (" ++ kind.name ++ ")")
  | .filed node .discarded =>
    some (.warn, s!"Node {node.id} relaxation unbounded below a bounded root; discarded")
  | .rootInfeasible => some (.info, "Root relaxation infeasible")
  | .rootUnbounded =>
    some (.info, "Root relaxation unbounded, probing feasibility with zero objective")
  | .rootIntegral v => some (.info, "Root relaxation integral: obj=" ++ number v)
  | .rounded how => some (.debug, "rounding heuristic: " ++ how.name ++ " point is feasible")
  | .seeded c => some (.info, "Heuristic incumbent: obj=" ++ number c.value)
  | .improved node v =>
    some (.info, "New incumbent: obj=" ++ number v ++ s!" at node {node.id} (depth {node.depth})")
  | .progress b openNodes =>
    some (.info, s!"Iter: {b.iterations} ({openNodes} open) | Lower: " ++ number b.lower
      ++ " | Upper: " ++ number b.upper ++ " | Gap: " ++ percent b.gap)
  | .finished reason iterations nodes children =>
    some (.info, "Search finished: " ++ reason.name
      ++ s!" after {iterations} iterations ({nodes} nodes explored, {children} pruned)")
  | .summary status effort =>
    some (.info, "Status: " ++ status.text
      ++ s!" | {effort.solves} relaxations, {effort.pivots} simplex pivots")

/-- The lines of a journal that are at least as important as `level`. -/
def Journal.log {ε : Type} (journal : Journal Float ε) (level : Level) : List (Level × String) :=
  (journal.toList.filterMap Event.line?).filter fun line => decide (line.1.rank ≤ level.rank)

/-! ### The calls of the oracle -/

/-- The subproblem of a call and the answer to it. -/
def Event.call? {α ε : Type} :
    Event α ε → Option (Subproblem α × Except (Failure ε) (Relaxation α))
  | .asked sub answer => some (sub, answer)
  | _ => none

/-- The calls of the oracle with their answers, in order. -/
def Journal.calls {α ε : Type} (journal : Journal α ε) :
    List (Subproblem α × Except (Failure ε) (Relaxation α)) :=
  journal.toList.filterMap Event.call?

theorem Journal.calls_push {α ε : Type} (journal : Journal α ε) (e : Event α ε) :
    Journal.calls (journal.push e) = journal.calls ++ e.call?.toList := by
  cases h : e.call? <;> simp [calls, h]

end IntegerProgramming.Search
