import IntegerProgramming.Bracket
import IntegerProgramming.Frontier
import IntegerProgramming.LinearProgram.Simplex

/-!
# Search — settings

When the search stops, what counts as an integer, which node comes next, the seed of the rounding
heuristic, the settings of the simplex method, and how much is reported on the way.
-/

namespace IntegerProgramming.Search

/-- The settings of a search. -/
structure Settings (α : Type) where
  /-- When it stops. -/
  rule : StopRule α
  /-- How far from an integer a coordinate may be and still count as one. -/
  integrality : α
  /-- Which open node is branched next. -/
  selection : NodeSelection
  /-- The seed of the rounding heuristic. -/
  seed : UInt64
  /-- The settings of the simplex method. -/
  relaxation : LinearProgram.Settings α
  /-- Whether progress is reported. -/
  verbose : Bool
  /-- After how many iterations progress is reported again. -/
  logEvery : Nat
  deriving DecidableEq, Repr

variable {α : Type} [Arith α]

/-- The settings in use where nothing else is asked for. -/
def Settings.standard : Settings α where
  rule := ⟨10000, 1e-4, 0.01⟩
  integrality := 1e-6
  selection := .bestFirst
  seed := 0
  relaxation := .standard
  verbose := false
  logEvery := 100

/-- The standard settings with progress reported after every node. -/
def Settings.talkative : Settings α :=
  { Settings.standard with verbose := true, logEvery := 2 }

end IntegerProgramming.Search
