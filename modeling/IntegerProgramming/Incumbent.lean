import IntegerProgramming.Record

/-!
# The incumbent — the best integer point so far

A candidate replaces the incumbent if its objective is strictly greater, so the earliest of several
equally good candidates stays.
-/

namespace IntegerProgramming

/-- The best candidate so far, and how often it was replaced. -/
structure Incumbent (α : Type) where
  best : Option (Solution α)
  improvements : Nat
  deriving DecidableEq, Repr

namespace Incumbent

variable {α : Type}

/-- No candidate yet. -/
def none : Incumbent α := ⟨.none, 0⟩

variable [Scalar α]

/-- The objective to exceed: that of the best candidate, and `-∞` before there is one. -/
def value (inc : Incumbent α) : α :=
  match inc.best with
  | .none => -infinity
  | some s => s.value

/-- Whether a candidate is better. -/
def improvedBy (inc : Incumbent α) (candidate : Solution α) : Bool :=
  decide (inc.value < candidate.value)

/-- The incumbent after a candidate was offered. -/
def offer (inc : Incumbent α) (candidate : Solution α) : Incumbent α :=
  if inc.improvedBy candidate then ⟨some candidate, inc.improvements + 1⟩ else inc

theorem offer_of_improvedBy {inc : Incumbent α} {candidate : Solution α}
    (h : inc.improvedBy candidate = true) :
    inc.offer candidate = ⟨some candidate, inc.improvements + 1⟩ := by
  simp [offer, h]

theorem offer_of_not_improvedBy {inc : Incumbent α} {candidate : Solution α}
    (h : inc.improvedBy candidate = false) : inc.offer candidate = inc := by
  simp [offer, h]

end Incumbent

end IntegerProgramming
