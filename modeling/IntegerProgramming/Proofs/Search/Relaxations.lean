import Mathlib
import IntegerProgramming.Proofs.Intervals
import IntegerProgramming.Proofs.LinearProgram.Verdicts
import IntegerProgramming.Proofs.Search.Table

/-!
# Search — what the simplex oracle answers

The oracle folds the changes of a subproblem into a box and solves the linear program over it
(`Subproblem.over`), unless it sees that the box is empty.  Over accepted data neither the program
nor the box is ever turned down, whatever the changes are, and not looking at an empty box any
further makes no difference to the answer.

* `Subproblem.linearProgram_eq_over`: **the linear program is accepted**.
* `answer_simplexOracle`: **the answer is the verdict on the linear program**, with or without the
  shortcut, over any numbers and at any settings.
* `Subproblem.feasible_over_iff`: its feasible points are the points of the subproblem's region.
* `simplexOracle_exact`: **exactly and without tolerances, the answer is there and meets the
  contract of a relaxation** (`Subproblem.AnsweredBy`), unless a ratio test takes two different
  ratios for equal.
-/

namespace IntegerProgramming

open ExtRat (num)
open LinearProgram (mix)

section Assembly

variable {α : Type} [Scalar α]

/-- The relaxation of a subproblem over a box. -/
def Subproblem.over (sub : Subproblem α) (box : Box α) : LinearProgram α :=
  ⟨sub.program.objective, sub.program.matrix, sub.program.limits, box⟩

/-- The ends that a linear program accepts. -/
abbrev Box.Acceptable (box : Box α) : Prop :=
  box.Ends (fun l => isFinite l = true ∧ 0 ≤ l) (isUndefined · = false)

variable [LawfulScalar α]

open LawfulScalar

theorem Box.acceptable_nonnegative (n : ℕ) : (nonnegative n : Box α).Acceptable :=
  ends_nonnegative ⟨finite_zero, le_refl defined_zero⟩ defined_infinity n

variable {sub : Subproblem α} {box : Box α}

/-- Whatever numbers the changes bound the variables by, the box is acceptable: a lower end never
goes below zero. -/
theorem Subproblem.acceptable_box?
    (finite : ∀ change ∈ sub.changes, isFinite change.value = true) (h : sub.box? = some box) :
    box.Acceptable :=
  (Box.acceptable_nonnegative _).foldlM_tighten?
    (fun change hchange _ hl =>
      ⟨greater_ind (P := (isFinite · = true)) hl.1 (finite change hchange),
        le_trans hl.2 (le_greater_left (defined_of_isFinite hl.1) change.value)⟩)
    (fun change hchange _ hu =>
      lesser_ind (P := (isUndefined · = false)) hu (defined_of_isFinite (finite change hchange))) h

/-- An accepted program is accepted over every acceptable box. -/
theorem Subproblem.validate_over (valid : sub.program.validate = .ok ())
    (lower : box.lower.length = sub.program.numVars)
    (upper : box.upper.length = sub.program.numVars) (acceptable : box.Acceptable) :
    (sub.over box).validate = .ok () := by
  refine LinearProgram.validate_eq_ok_iff_program.mpr ⟨valid, ⟨lower, upper⟩, fun ends hends => ?_⟩
  obtain ⟨hl, hu⟩ := List.of_mem_zip hends
  obtain ⟨finite, nonneg⟩ := acceptable.lower _ hl
  exact ⟨⟨finite, not_lt_of_le nonneg⟩, acceptable.upper _ hu⟩

/-- **The linear program of a subproblem is accepted.** -/
theorem Subproblem.linearProgram_eq_over (valid : sub.program.validate = .ok ())
    (finite : ∀ change ∈ sub.changes, isFinite change.value = true) (h : sub.box? = some box) :
    (sub.over box).validate = .ok () ∧ sub.linearProgram box = .ok (sub.over box) := by
  have first : LinearProgram.new sub.program.objective sub.program.matrix sub.program.limits
      = .ok (sub.over (.nonnegative sub.program.numVars)) :=
    LinearProgram.checked_eq_ok_iff.mpr ⟨LinearProgram.validate_nonnegative_iff.mpr valid, rfl⟩
  obtain ⟨lower, upper⟩ := sub.length_of_box? h
  have accepted := validate_over valid lower upper (acceptable_box? finite h)
  refine ⟨accepted, ?_⟩
  rw [linearProgram, first]
  exact LinearProgram.checked_eq_ok_iff.mpr ⟨accepted, rfl⟩

omit [LawfulScalar α] in
/-- The shortcut: over an empty box nothing is solved. -/
theorem askSimplex_of_isEmpty (s : LinearProgram.Settings α) (h : sub.box? = some box)
    (empty : box.isEmpty = true) (e : Effort) : askSimplex s sub e = ⟨.ok .infeasible, e, []⟩ := by
  simp only [askSimplex, h, empty, if_true]

/-- **The answer is the verdict on the linear program**, whether the oracle solves it or sees that
its box is empty. -/
theorem answer_simplexOracle (s : LinearProgram.Settings α)
    (valid : sub.program.validate = .ok ())
    (finite : ∀ change ∈ sub.changes, isFinite change.value = true) (h : sub.box? = some box)
    (e : Effort) :
    ((simplexOracle s).ask sub e).answer = .ok (.ofVerdict ((sub.over box).optimum s).verdict) := by
  obtain ⟨accepted, assembled⟩ := Subproblem.linearProgram_eq_over valid finite h
  change (askSimplex s sub e).answer = _
  cases empty : box.isEmpty with
  | true =>
      rw [askSimplex_of_isEmpty s h empty, LinearProgram.optimum_of_isEmpty empty]
      rfl
  | false =>
      simp only [askSimplex, h, empty, Bool.false_eq_true, if_false, assembled, Except.bind,
        LinearProgram.solve_eq_ok accepted]

end Assembly

/-! ### The region -/

/-- **The feasible points of the linear program are the points of the region.** -/
theorem Subproblem.feasible_over_iff {sub : Subproblem ExtRat} {box : Box ExtRat}
    (valid : sub.program.validate = .ok ()) (wf : sub.program.matrix.WellFormed)
    (proper : ∀ change ∈ sub.changes, change.Proper sub.program.numVars)
    (h : sub.box? = some box) {x : List ℚ} : (sub.over box).Feasible x ↔ sub.Contains x := by
  have encloses := sub.encloses_box?_iff (x := nums x)
    (fun change hchange => LawfulScalar.defined_of_isFinite (proper change hchange).value) h
  have satisfies := (Program.regular_of_validate valid wf).satisfies_zero_iff (x := nums x)
  have nonneg : (∀ v ∈ nums x, ¬ v < 0) ↔ ∀ v ∈ nums x, 0 ≤ v := by
    simp [nums, ExtRat.zero_eq, ExtRat.num_lt, ExtRat.num_le]
  rw [nonneg] at satisfies
  constructor
  · intro hx
    obtain ⟨⟨hlength, hnonneg⟩, admits⟩ := encloses.mp hx.encloses
    exact ⟨satisfies.mpr ⟨hlength, hnonneg, hx.limits⟩, admits⟩
  · intro hx
    obtain ⟨hlength, hnonneg, limits⟩ := satisfies.mp hx.satisfies
    obtain ⟨lower, upper⟩ := encloses.mpr ⟨⟨hlength, hnonneg⟩, hx.admits⟩
    exact ⟨limits, lower.flip, upper⟩

/-! ### The contract -/

/-- What a relaxation promises: the answer is true of the region, it is never an impossible result,
and an optimal point lies between no two others of the region. -/
structure Subproblem.AnsweredBy (sub : Subproblem ExtRat) (relaxation : Relaxation ExtRat) :
    Prop where
  solved : sub.SolvedBy relaxation
  possible : relaxation ≠ .numericalError
  extreme : ∀ value x, relaxation = .optimal value (nums x) → ∀ y z, sub.Contains y →
    sub.Contains z → ∀ θ, 0 < θ → θ < 1 → x = mix θ y z → y = x ∧ z = x

/-- A correct verdict on a linear program with the points of the region is an answer that keeps the
promise. -/
theorem Subproblem.answeredBy_of_correct {sub : Subproblem ExtRat} {box : Box ExtRat}
    {verdict : LinearProgram.Verdict ExtRat} (correct : verdict.Correct (sub.over box))
    (feasible : ∀ x, (sub.over box).Feasible x ↔ sub.Contains x) :
    sub.AnsweredBy (.ofVerdict verdict) := by
  cases verdict with
  | optimal vertex objective =>
      obtain ⟨x, rfl, hx, rfl, greatest⟩ := correct
      refine ⟨⟨⟨x, rfl, (feasible x).mp hx.feasible⟩, rfl, fun y hy =>
        greatest y ((feasible y).mpr hy)⟩, nofun, fun value x' h y z hy hz => ?_⟩
      obtain rfl := nums_injective (Relaxation.optimal.inj h).2
      exact hx.between y z ((feasible y).mpr hy) ((feasible z).mpr hz)
  | infeasible why => exact ⟨fun x hx => correct x ((feasible x).mpr hx), nofun, nofun⟩
  | unbounded =>
      refine ⟨fun m => ?_, nofun, nofun⟩
      obtain ⟨x, hx, hvalue⟩ := correct m
      exact ⟨x, (feasible x).mp hx, hvalue⟩
  | pivotLimit => exact ⟨trivial, nofun, nofun⟩
  | numericalError => exact correct.elim

/-- No ratio test on the linear program of the subproblem meets two different ratios that count as
equal. -/
def Subproblem.NoNearTies (sub : Subproblem ExtRat) (s : LinearProgram.Settings ExtRat) : Prop :=
  ∀ box ∈ sub.box?, (sub.over box).NoNearTies s

instance (sub : Subproblem ExtRat) (s : LinearProgram.Settings ExtRat) :
    Decidable (sub.NoNearTies s) :=
  inferInstanceAs (Decidable (∀ box ∈ sub.box?, (sub.over box).NoNearTies s))

/-- **The simplex oracle is exact.**  For every accepted program and all changes of its variables by
numbers there is an answer, and it meets the contract; and where the box is empty, which the oracle
sees without solving anything, the region is empty and the linear program would have been found
infeasible. -/
theorem simplexOracle_exact {sub : Subproblem ExtRat} {s : LinearProgram.Settings ExtRat}
    (valid : sub.program.validate = .ok ()) (wf : sub.program.matrix.WellFormed)
    (proper : ∀ change ∈ sub.changes, change.Proper sub.program.numVars)
    (pivotTol : s.pivotTol = 0) (feasTol : s.feasTol = 0) (sep : sub.NoNearTies s) (e : Effort) :
    ∃ box relaxation, sub.box? = some box
      ∧ ((simplexOracle s).ask sub e).answer = .ok relaxation ∧ sub.AnsweredBy relaxation
      ∧ (box.isEmpty = true → (simplexOracle s).ask sub e = ⟨.ok .infeasible, e, []⟩
        ∧ (∀ x, ¬ sub.Contains x)
        ∧ ∃ q result why, sub.linearProgram box = .ok q ∧ q.solve s = .ok result
          ∧ result.verdict = .infeasible why) := by
  obtain ⟨box, hbox⟩ := sub.exists_box? fun change hchange => (proper change hchange).var
  have finite : ∀ change ∈ sub.changes, isFinite change.value = true := fun change hchange =>
    (proper change hchange).value
  obtain ⟨accepted, assembled⟩ := Subproblem.linearProgram_eq_over valid finite hbox
  have feasible (x : List ℚ) : (sub.over box).Feasible x ↔ sub.Contains x :=
    Subproblem.feasible_over_iff valid wf proper hbox
  have correct := LinearProgram.correct_optimum accepted wf pivotTol feasTol (sep box hbox)
  refine ⟨box, _, hbox, answer_simplexOracle s valid finite hbox e,
    Subproblem.answeredBy_of_correct correct feasible, fun empty => ⟨?_, fun x hx => ?_, ?_⟩⟩
  · exact askSimplex_of_isEmpty s hbox empty e
  · exact LinearProgram.not_feasible_of_isEmpty empty ((feasible x).mpr hx)
  · refine ⟨_, _, .box, assembled, LinearProgram.solve_eq_ok accepted, ?_⟩
    rw [LinearProgram.optimum_of_isEmpty empty]

/-- The square cut down from both sides, once more than is needed. -/
def squareCut : Subproblem ExtRat :=
  ⟨square.embed, [⟨0, .upper, num 1⟩, ⟨1, .lower, num (1 / 2)⟩, ⟨0, .upper, num 2⟩]⟩

/-- At a part of the square. -/
theorem simplexOracle_exact_squareCut :
    squareCut.program.validate = .ok () ∧ squareCut.program.matrix.WellFormed
      ∧ (∀ change ∈ squareCut.changes, change.Proper squareCut.program.numVars)
      ∧ squareCut.NoNearTies ⟨9, 0, 0⟩
      ∧ ∃ box relaxation, squareCut.box? = some box
        ∧ ((simplexOracle ⟨9, 0, 0⟩).ask squareCut ⟨0, 0⟩).answer = .ok relaxation
        ∧ squareCut.AnsweredBy relaxation
        ∧ (box.isEmpty = true
          → (simplexOracle ⟨9, 0, 0⟩).ask squareCut ⟨0, 0⟩ = ⟨.ok .infeasible, ⟨0, 0⟩, []⟩
          ∧ (∀ x, ¬ squareCut.Contains x)
          ∧ ∃ q result why, squareCut.linearProgram box = .ok q ∧ q.solve ⟨9, 0, 0⟩ = .ok result
            ∧ result.verdict = .infeasible why) := by
  have valid : squareCut.program.validate = .ok () := by decide +kernel
  have wf : squareCut.program.matrix.WellFormed := by decide +kernel
  have proper : ∀ change ∈ squareCut.changes, change.Proper squareCut.program.numVars := by
    intro change hchange
    simp only [squareCut, List.mem_cons, List.not_mem_nil, or_false] at hchange
    rcases hchange with rfl | rfl | rfl <;> exact ⟨by decide, rfl⟩
  have sep : squareCut.NoNearTies ⟨9, 0, 0⟩ := by decide +kernel
  exact ⟨valid, wf, proper, sep, simplexOracle_exact valid wf proper rfl rfl sep ⟨0, 0⟩⟩

example : ((simplexOracle ⟨9, 0, 0⟩).ask squareCut ⟨0, 0⟩).answer
    = .ok (.optimal (num (5 / 2)) [num 1, num (3 / 2)]) := by decide +kernel

end IntegerProgramming
