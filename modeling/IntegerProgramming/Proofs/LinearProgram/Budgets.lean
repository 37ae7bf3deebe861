import Mathlib
import IntegerProgramming.Proofs.LinearProgram.Outcomes
import IntegerProgramming.Proofs.LinearProgram.Verdicts

/-!
# Simplex — the budget of pivots

A budget cuts a phase off and does nothing else: the two phases draw on it, and no choice that they
make depends on what is left of it.  Nothing is used of the arithmetic, so all of this holds under
rounding as well.

* `optimize_of_le`: **a phase that ends by itself ends in the same way with a greater budget.**
* `phaseOne_raised`: so does phase one as a whole, and phase two begins with the same pivots spent.
* `solve_truncates`: **the method stays within its budget, spends it if it stops there, and
  otherwise gives the same result with any greater one.**
-/

namespace IntegerProgramming.LinearProgram

/-! ### One phase -/

section Phase

variable {α : Type} [Arith α] {tol : α} {limit budget budget' : ℕ} {t : Tableau α}

/-- A tableau without an entering column is where a phase ends, whatever the budget. -/
theorem optimize_of_entering?_eq_none (h : t.entering? tol limit = none) (budget : ℕ) :
    t.optimize tol limit budget = ⟨.optimal, 0, t⟩ := by
  cases budget with
  | zero => rw [Tableau.optimize, h]
  | succ budget => rw [Tableau.optimize, Tableau.move_eq_optimal_iff.mpr h]

/-- **A phase that ends by itself ends in the same way with a greater budget.** -/
theorem optimize_of_le (h : (t.optimize tol limit budget).ending ≠ .pivotLimit)
    (le : budget ≤ budget') : t.optimize tol limit budget' = t.optimize tol limit budget := by
  induction budget generalizing t budget' with
  | zero =>
      -- without a pivot to spend, a phase ends by itself only where no column enters
      cases entering : t.entering? tol limit with
      | none => rw [optimize_of_entering?_eq_none entering, optimize_of_entering?_eq_none entering]
      | some j =>
          rw [Tableau.optimize, entering] at h
          exact absurd rfl h
  | succ budget ih =>
      obtain ⟨budget', rfl⟩ := Nat.exists_eq_add_one_of_ne_zero (Nat.ne_zero_of_lt le)
      rw [Tableau.optimize] at h
      rw [Tableau.optimize, Tableau.optimize]
      cases hmove : t.move tol limit with
      | optimal => rfl
      | unbounded j => rfl
      | pivot r j =>
          simp only [hmove] at h
          exact congrArg Phase.afterPivot (ih h (Nat.le_of_succ_le_succ le))

end Phase

/-! ### Phase one -/

section Solve

variable {α : Type} [Scalar α] {p : LinearProgram α} {s : Settings α} {limit spent : ℕ}
  {t u : Tableau α} {result : Result α}

omit [Scalar α] in
/-- The settings with another budget. -/
def Settings.withPivotLimit (s : Settings α) (limit : ℕ) : Settings α :=
  { s with pivotLimit := limit }

/-- Phase one stops at its limit. -/
def StopsInPhaseOne (s : Settings α) (t : Tableau α) : Prop :=
  t.hasArtificials = true ∧ (phaseOneRun s t).ending = .pivotLimit

/-- The pivots of phase one, if there is anything to do. -/
def spentInPhaseOne (s : Settings α) (t : Tableau α) : ℕ :=
  if t.hasArtificials then (phaseOneRun s t).pivots else 0

theorem spentInPhaseOne_le (s : Settings α) (t : Tableau α) :
    spentInPhaseOne s t ≤ s.pivotLimit := by
  rw [spentInPhaseOne]
  split
  · exact optimize_pivots_le _ _ _ _
  · exact Nat.zero_le _

/-- Phase one reports the pivots it made. -/
theorem pivots_of_phaseOne_eq_error (h : phaseOne s t = .error result) :
    result.pivots = spentInPhaseOne s t := by
  obtain ⟨artificials, -⟩ := phaseOne_eq_error h
  rw [spentInPhaseOne, if_pos artificials]
  simp only [phaseOne, artificials, if_true] at h
  split at h
  · cases h
    rfl
  · cases h
    rfl
  · split at h
    · cases h
      rfl
    · cases h

theorem spent_of_phaseOne_eq_ok (h : phaseOne s t = .ok (u, spent)) :
    spent = spentInPhaseOne s t := by
  rw [spentInPhaseOne]
  rcases phaseOne_eq_ok h with ⟨artificials, -, rfl⟩ | ⟨artificials, -, -, rfl, -⟩
  · rw [if_neg (Bool.not_eq_true _ ▸ artificials)]
  · rw [if_pos artificials]

/-- Phase one stops at its limit just when it says so, and then the budget is spent. -/
theorem verdict_phaseOne_eq_pivotLimit_iff (h : phaseOne s t = .error result) :
    result.verdict = .pivotLimit ↔ StopsInPhaseOne s t := by
  obtain ⟨artificials, ⟨ending, verdict⟩ | ⟨ending, verdict⟩ | ⟨ending, -, verdict⟩⟩ :=
    phaseOne_eq_error h
  all_goals simp [StopsInPhaseOne, artificials, ending, verdict]

theorem StopsInPhaseOne.spends (h : StopsInPhaseOne s t) : spentInPhaseOne s t = s.pivotLimit := by
  rw [spentInPhaseOne, if_pos h.1]
  exact pivots_of_ending_pivotLimit h.2

/-- **Phase one with a greater budget** comes to the same, unless it stopped at its limit. -/
theorem phaseOne_raised (h : ¬ StopsInPhaseOne s t) (le : s.pivotLimit ≤ limit) :
    phaseOne (s.withPivotLimit limit) t = phaseOne s t := by
  cases artificials : t.hasArtificials with
  | false => simp only [phaseOne, artificials, Bool.false_eq_true, if_false]
  | true =>
      have ending : (t.withArtificialObjective.optimize s.pivotTol t.columns
          s.pivotLimit).ending ≠ .pivotLimit := fun stops => h ⟨artificials, stops⟩
      have same := optimize_of_le ending le
      simp only [phaseOne, Settings.withPivotLimit, same]

/-! ### Both phases -/

theorem optimum_of_error (nonempty : p.box.isEmpty = false)
    (h : phaseOne s p.startTableau = .error result) : p.optimum s = result := by
  rw [optimum, nonempty, if_neg Bool.false_ne_true, h]

theorem optimum_of_ok (nonempty : p.box.isEmpty = false)
    (h : phaseOne s p.startTableau = .ok (u, spent)) :
    p.optimum s = ⟨(phaseTwo s p.objective u spent).verdict p.objective,
      spent + (phaseTwo s p.objective u spent).pivots⟩ := by
  rw [optimum, nonempty, if_neg Bool.false_ne_true, h]

theorem verdict_eq_pivotLimit_iff {phase : Phase α} {c : List α} :
    phase.verdict c = .pivotLimit ↔ phase.ending = .pivotLimit := by
  rw [Phase.verdict]
  cases phase.ending <;> simp

/-- **The budget is not exceeded.** -/
theorem pivots_optimum_le (p : LinearProgram α) (s : Settings α) :
    (p.optimum s).pivots ≤ s.pivotLimit := by
  have first := spentInPhaseOne_le s p.startTableau
  cases nonempty : p.box.isEmpty with
  | true =>
      rw [optimum_of_isEmpty nonempty]
      exact Nat.zero_le _
  | false =>
      cases h : phaseOne s p.startTableau with
      | error result => rwa [optimum_of_error nonempty h, pivots_of_phaseOne_eq_error h]
      | ok entered =>
          rw [← spent_of_phaseOne_eq_ok h] at first
          rw [optimum_of_ok nonempty h]
          have second : (phaseTwo s p.objective entered.1 entered.2).pivots
              ≤ s.pivotLimit - entered.2 := optimize_pivots_le _ _ _ _
          exact Nat.add_le_of_le_sub' first second

/-- **A method that stops at its limit has spent its budget.** -/
theorem pivots_of_verdict_eq_pivotLimit (h : (p.optimum s).verdict = .pivotLimit) :
    (p.optimum s).pivots = s.pivotLimit := by
  cases nonempty : p.box.isEmpty with
  | true =>
      rw [optimum_of_isEmpty nonempty] at h
      cases h
  | false =>
      cases hone : phaseOne s p.startTableau with
      | error result =>
          rw [optimum_of_error nonempty hone] at h ⊢
          rw [pivots_of_phaseOne_eq_error hone]
          exact ((verdict_phaseOne_eq_pivotLimit_iff hone).mp h).spends
      | ok entered =>
          have first := spentInPhaseOne_le s p.startTableau
          rw [← spent_of_phaseOne_eq_ok hone] at first
          rw [optimum_of_ok nonempty hone] at h ⊢
          have second : (phaseTwo s p.objective entered.1 entered.2).pivots
              = s.pivotLimit - entered.2 :=
            pivots_of_ending_pivotLimit (verdict_eq_pivotLimit_iff.mp h)
          rw [second]
          exact Nat.add_sub_of_le first

/-- **A method that ends by itself ends in the same way with a greater budget.** -/
theorem optimum_raised (h : (p.optimum s).verdict ≠ .pivotLimit) (le : s.pivotLimit ≤ limit) :
    p.optimum (s.withPivotLimit limit) = p.optimum s := by
  cases nonempty : p.box.isEmpty with
  | true => rw [optimum_of_isEmpty nonempty, optimum_of_isEmpty nonempty]
  | false =>
      cases hone : phaseOne s p.startTableau with
      | error result =>
          rw [optimum_of_error nonempty hone] at h ⊢
          have goes := mt (verdict_phaseOne_eq_pivotLimit_iff hone).mpr h
          exact optimum_of_error nonempty ((phaseOne_raised goes le).trans hone)
      | ok entered =>
          have goes : ¬ StopsInPhaseOne s p.startTableau := fun stops => by
            rcases phaseOne_eq_ok hone with ⟨none, -⟩ | ⟨-, ending, -⟩
            · rw [stops.1] at none
              cases none
            · rw [stops.2] at ending
              cases ending
          rw [optimum_of_ok nonempty hone] at h ⊢
          rw [optimum_of_ok nonempty ((phaseOne_raised goes le).trans hone)]
          have same : phaseTwo (s.withPivotLimit limit) p.objective entered.1 entered.2
              = phaseTwo s p.objective entered.1 entered.2 :=
            optimize_of_le (mt verdict_eq_pivotLimit_iff.mpr h) (Nat.sub_le_sub_right le _)
          rw [same]

/-- **The budget only truncates.**  An accepted program is given a result that stays within the
budget.  It spends the budget if it says that it stopped there; otherwise it is the result with any
greater budget as well. -/
theorem solve_truncates (valid : p.validate = .ok ()) (s : Settings α) :
    ∃ result, p.solve s = .ok result
      ∧ result.pivots ≤ s.pivotLimit
      ∧ (result.verdict = .pivotLimit → result.pivots = s.pivotLimit)
      ∧ (result.verdict ≠ .pivotLimit → ∀ limit, s.pivotLimit ≤ limit →
        p.solve { s with pivotLimit := limit } = .ok result) := by
  refine ⟨_, solve_eq_ok valid, pivots_optimum_le p s, pivots_of_verdict_eq_pivotLimit,
    fun ends limit le => ?_⟩
  rw [solve_eq_ok valid, ← optimum_raised ends le]
  rfl

end Solve

/-- The segment takes more than one pivot, and no more than nine. -/
theorem solve_truncates_segment :
    segment.validate = .ok ()
      ∧ (∃ result, segment.solve ⟨1, 0, 0⟩ = .ok result ∧ result.verdict = .pivotLimit
        ∧ result.pivots = 1)
      ∧ ∃ result, segment.solve ⟨9, 0, 0⟩ = .ok result ∧ result.verdict ≠ .pivotLimit
        ∧ segment.solve ⟨50000, 0, 0⟩ = .ok result := by
  have valid : segment.validate = .ok () := by decide +kernel
  obtain ⟨short, hshort, -, spends, -⟩ := solve_truncates valid ⟨1, 0, 0⟩
  obtain ⟨whole, hwhole, -, -, same⟩ := solve_truncates valid ⟨9, 0, 0⟩
  cases hshort.symm.trans (solve_eq_ok valid)
  cases hwhole.symm.trans (solve_eq_ok valid)
  have stops : (segment.optimum ⟨1, 0, 0⟩).verdict = .pivotLimit := by decide +kernel
  have ends : (segment.optimum ⟨9, 0, 0⟩).verdict ≠ .pivotLimit := by decide +kernel
  exact ⟨valid, ⟨_, hshort, stops, spends stops⟩, _, hwhole, ends, same ends 50000 (by decide)⟩

end IntegerProgramming.LinearProgram
