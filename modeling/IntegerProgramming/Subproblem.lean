import IntegerProgramming.BoundChange
import IntegerProgramming.Box
import IntegerProgramming.Program

/-!
# Subproblems — a program under bound changes

A node of the search looks at one region of a program: its constraints together with the bound
changes made on the way to the node.  The changes fold into a box, the tightest bound on each side
of each variable winning.
-/

namespace IntegerProgramming

/-- A program with additional bounds. -/
structure Subproblem (α : Type) where
  program : Program α
  changes : List (BoundChange α)
  deriving DecidableEq, Repr

/-- The box cut down by one change; `none` if it has no such variable. -/
def Box.tighten? {α : Type} [Arith α] (box : Box α) (change : BoundChange α) : Option (Box α) :=
  match change.side with
  | .upper =>
    if change.var < box.upper.length then
      some { box with upper := box.upper.modify change.var (lesser · change.value) }
    else none
  | .lower =>
    if change.var < box.lower.length then
      some { box with lower := box.lower.modify change.var (greater · change.value) }
    else none

/-- The interval of each variable under the changes; `none` if a change is about no variable. -/
def Subproblem.box? {α : Type} [Scalar α] (sub : Subproblem α) : Option (Box α) :=
  sub.changes.foldlM Box.tighten? (.nonnegative sub.program.numVars)

namespace Box

variable {α : Type} [Arith α]

/-- Tightening keeps the number of intervals. -/
theorem length_of_tighten? {box box' : Box α} {change : BoundChange α}
    (h : box.tighten? change = some box') :
    box'.lower.length = box.lower.length ∧ box'.upper.length = box.upper.length := by
  unfold tighten? at h
  split at h <;> split at h <;> simp at h <;> subst h <;> simp

theorem length_of_foldlM_tighten? {changes : List (BoundChange α)} {box box' : Box α}
    (h : changes.foldlM tighten? box = some box') :
    box'.lower.length = box.lower.length ∧ box'.upper.length = box.upper.length := by
  induction changes generalizing box with
  | nil =>
    simp only [List.foldlM_nil, Option.pure_def, Option.some.injEq] at h
    subst h
    exact ⟨rfl, rfl⟩
  | cons change rest ih =>
    simp only [List.foldlM_cons, Option.bind_eq_bind, Option.bind_eq_some_iff] at h
    obtain ⟨mid, hmid, hrest⟩ := h
    have hm := length_of_tighten? hmid
    have hr := ih hrest
    exact ⟨hr.1.trans hm.1, hr.2.trans hm.2⟩

end Box

/-- A subproblem has an interval for each variable of its program. -/
theorem Subproblem.length_of_box? {α : Type} [Scalar α] {sub : Subproblem α} {box : Box α}
    (h : sub.box? = some box) :
    box.lower.length = sub.program.numVars ∧ box.upper.length = sub.program.numVars := by
  have := Box.length_of_foldlM_tighten? h
  simpa using this

end IntegerProgramming
