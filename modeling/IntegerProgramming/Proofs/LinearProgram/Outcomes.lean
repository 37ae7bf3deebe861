import Mathlib
import IntegerProgramming.LinearProgram.Run

/-!
# Simplex — what the two phases can come to

The cases in which phase one gives a result of its own, or a tableau to go on with, and from them
the cases in which a program is given its optimum.

* `LinearProgram.phaseOne_eq_error`, `LinearProgram.phaseOne_eq_ok`: the outcomes of phase one.
* `LinearProgram.optimum_cases`: the outcomes of both phases.
-/

namespace IntegerProgramming.LinearProgram

variable {α : Type} [Scalar α] {s : Settings α} {t u : Tableau α} {spent : ℕ} {result : Result α}

/-- The pivots of phase one. -/
def phaseOneRun (s : Settings α) (t : Tableau α) : Phase α :=
  t.withArtificialObjective.optimize s.pivotTol t.columns s.pivotLimit

/-- What a phase leaves of the artificial variables. -/
def Phase.excess (phase : Phase α) : α := -phase.tableau.objective.rhs

/-- Phase one ends without a tableau to go on with. -/
theorem phaseOne_eq_error (h : phaseOne s t = .error result) : t.hasArtificials = true ∧
    (((phaseOneRun s t).ending = .pivotLimit ∧ result.verdict = .pivotLimit)
      ∨ ((phaseOneRun s t).ending = .unbounded ∧ result.verdict = .numericalError)
      ∨ ((phaseOneRun s t).ending = .optimal ∧ s.feasTol < (phaseOneRun s t).excess
        ∧ result.verdict = .infeasible (.excess (phaseOneRun s t).excess))) := by
  simp only [phaseOne] at h
  split at h
  · rename_i hart
    refine ⟨hart, ?_⟩
    split at h
    · rename_i hending
      cases h
      exact .inl ⟨hending, rfl⟩
    · rename_i hending
      cases h
      exact .inr (.inl ⟨hending, rfl⟩)
    · rename_i hending
      split at h
      · rename_i hexcess
        cases h
        exact .inr (.inr ⟨hending, hexcess, rfl⟩)
      · cases h
  · cases h

/-- Phase one ends at the start, or at a tableau without the artificial variables it could expel. -/
theorem phaseOne_eq_ok (h : phaseOne s t = .ok (u, spent)) :
    (t.hasArtificials = false ∧ u = t ∧ spent = 0)
      ∨ (t.hasArtificials = true ∧ (phaseOneRun s t).ending = .optimal
        ∧ ¬ s.feasTol < (phaseOneRun s t).excess ∧ spent = (phaseOneRun s t).pivots
        ∧ u = (phaseOneRun s t).tableau.expelArtificials s.pivotTol) := by
  simp only [phaseOne] at h
  split at h
  · rename_i hart
    split at h
    · cases h
    · cases h
    · rename_i hending
      split at h
      · cases h
      · rename_i hexcess
        cases h
        exact .inr ⟨hart, hending, hexcess, rfl, rfl⟩
  · rename_i hart
    cases h
    exact .inl ⟨Bool.not_eq_true _ ▸ hart, rfl, rfl⟩

/-- Over an empty box there is nothing to solve. -/
theorem optimum_of_isEmpty {p : LinearProgram α} (h : p.box.isEmpty = true) (s : Settings α) :
    p.optimum s = ⟨.infeasible .box, 0⟩ := if_pos h

/-- The ways in which a program is given its optimum. -/
theorem optimum_cases (p : LinearProgram α) (s : Settings α) :
    (p.box.isEmpty = true ∧ p.optimum s = ⟨.infeasible .box, 0⟩)
      ∨ (p.box.isEmpty = false ∧ phaseOne s p.startTableau = .error (p.optimum s))
      ∨ (p.box.isEmpty = false ∧ ∃ t spent, phaseOne s p.startTableau = .ok (t, spent)
        ∧ (p.optimum s).verdict = (phaseTwo s p.objective t spent).verdict p.objective) := by
  rw [optimum]
  split
  · rename_i empty
    exact .inl ⟨empty, rfl⟩
  · rename_i hbox
    have nonempty : p.box.isEmpty = false := Bool.not_eq_true _ ▸ hbox
    cases hone : phaseOne s p.startTableau with
    | error result => exact .inr (.inl ⟨nonempty, rfl⟩)
    | ok entered => exact .inr (.inr ⟨nonempty, entered.1, entered.2, rfl, rfl⟩)

variable {p : LinearProgram α} {v : List α} {objective : α}

/-- An optimum is the vertex at the end of phase two. -/
theorem optimum_eq_optimal (h : (p.optimum s).verdict = .optimal v objective) :
    p.box.isEmpty = false ∧ ∃ t spent, phaseOne s p.startTableau = .ok (t, spent)
      ∧ v = (phaseTwo s p.objective t spent).tableau.vertex := by
  rcases p.optimum_cases s with ⟨-, heq⟩ | ⟨-, hone⟩ | ⟨nonempty, t, spent, hone, hverdict⟩
  · rw [heq] at h
    cases h
  · rcases phaseOne_eq_error hone with ⟨-, ⟨-, hv⟩ | ⟨-, hv⟩ | ⟨-, -, hv⟩⟩ <;>
      exact absurd (hv.symm.trans h) (by simp)
  · rw [hverdict, Phase.verdict] at h
    refine ⟨nonempty, t, spent, hone, ?_⟩
    split at h
    · cases h
      rfl
    · cases h
    · cases h

end IntegerProgramming.LinearProgram
