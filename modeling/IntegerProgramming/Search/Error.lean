import IntegerProgramming.Relaxation

/-!
# Search — errors

A search cannot go on if its oracle fails, if the oracle gives up on a relaxation, if a constant
objective is said to grow without limit, or if the selector takes a vertex for integral that the
search does not.
-/

namespace IntegerProgramming.Search

/-- Why a search fails; `ε` is what the oracle reports. -/
inductive Error (ε : Type) where
  /-- The oracle failed. -/
  | oracle (e : ε)
  /-- No use can be made of the answer at the root. -/
  | rootAnswer (kind : Relaxation.Kind)
  /-- No use can be made of the answer at a node. -/
  | nodeAnswer (node : Nat) (kind : Relaxation.Kind)
  /-- A constant objective was said to grow without limit. -/
  | unboundedProbe
  /-- The policy named no open node. -/
  | nothingSelected
  /-- The selector named no coordinate of an open node. -/
  | integralVertex (node : Nat)
  deriving DecidableEq, Repr

/-- The reason in words, given the words of the oracle. -/
def Error.message {ε : Type} (oracleMessage : ε → String) : Error ε → String
  | .oracle e => "LP relaxation failed: " ++ oracleMessage e
  | .rootAnswer kind =>
    "Unknown oracle state: root relaxation returned " ++ kind.name
      ++ "; reconsider the problem formulation"
  | .nodeAnswer node kind =>
    s!"Unknown oracle state: relaxation of node {node} returned " ++ kind.name
  | .unboundedProbe =>
    "Internal error: relaxation with constant objective reported unbounded"
  | .nothingSelected => "Internal error: selected from an empty frontier"
  | .integralVertex node => s!"Internal error: node {node} has an integral vertex"

end IntegerProgramming.Search
