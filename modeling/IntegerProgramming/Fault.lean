/-!
# Faults and failures

Most things that can go wrong are errors to report.  A fault is different: a caller broke the
agreement — asked for a coordinate that a point does not have, or for a coin of no probability —
and there is nothing to report to.  A computation that ends without an answer ends with one or the
other.
-/

namespace IntegerProgramming

/-- A broken agreement. -/
inductive Fault where
  /-- A coordinate beyond the end of a vector. -/
  | outOfRange
  /-- A probability outside the unit interval. -/
  | noProbability
  deriving DecidableEq, Repr

/-- Why there is no answer. -/
inductive Failure (ε : Type) where
  /-- An error to report. -/
  | error (e : ε)
  /-- A fault of the caller. -/
  | fault (f : Fault)
  deriving DecidableEq, Repr

end IntegerProgramming
