import Mathlib
import IntegerProgramming.Proofs.LinearProgram.Certificates

/-!
# Simplex — programs that have an optimum

A program with a feasible point whose objective is bounded over the feasible points has an optimum,
and a method without tolerances either finds it or spends its budget.  With tolerances the same
program can be reported infeasible, unbounded or in error: a phase that ends may have passed over
a row, a column or an artificial variable for being within the tolerance (`LinearProgram.Misled`).

* `Tableau.Canonical.exists_limits`: **an improving column of phase one is limited by a row**, so
  that its objective is never unbounded.
* `Tableau.Canonical.exists_improves`: where artificial variables are left at a feasible program, a
  column improves the objective of phase one.
* `Tableau.Canonical.exists_limits_or_revives`: where the objective is bounded, an improving column
  of phase two is limited by a row, or lets an artificial variable grow.
* `LinearProgram.solve_solvable`: **a program with an optimum is misreported just when the method is
  misled**, and without a tolerance for pivots it never is.
-/

namespace IntegerProgramming

namespace ExtRat

theorem pos_of_lt {a : ExtRat} {q : ℚ} (ha : 0 ≤ a) (h : a < num q) : 0 < q := by
  rcases nonneg_cases ha with rfl | ⟨p, rfl, hp⟩
  · exact absurd h (not_posInf_lt _)
  · exact hp.trans_lt (num_lt.mp h)

theorem not_pos_of_le_zero {a : ExtRat} (h : a ≤ 0) : ¬ 0 < a := by
  cases a with
  | num q => exact fun hpos => not_lt.mpr (num_le.mp h) (num_lt.mp hpos)
  | posInf => nomatch h
  | negInf | undef => exact fun hpos => nomatch hpos

end ExtRat

namespace LinearProgram

open ExtRat (num)
open Tableau (Meets worth Restates Canonical)

/-! ### Misled phases -/

section Scalar

variable {α : Type} [Scalar α]

/-- The verdicts for a program with an optimum: the optimum, or a spent budget. -/
def Verdict.Admissible : Verdict α → Prop
  | .optimal _ _ | .pivotLimit => True
  | .infeasible _ | .unbounded | .numericalError => False

/-- The phase ended because no row limits column `j`. -/
structure Phase.Escapes (phase : Phase α) (tol : α) (limit j : ℕ) : Prop where
  ending : phase.ending = .unbounded
  move : phase.tableau.move tol limit = .unbounded j

/-- A phase ended that had not come to its end. -/
inductive Misled (p : LinearProgram α) (s : Settings α) : Prop where
  /-- Phase one passed over a row that limits the column. -/
  | overlooked {j : ℕ} {row : Row α} (artificials : p.startTableau.hasArtificials = true)
      (escapes : (phaseOneRun s p.startTableau).Escapes s.pivotTol p.startTableau.columns j)
      (hrow : row ∈ (phaseOneRun s p.startTableau).tableau.rows)
      (limits : 0 < row.equation.coeff j)
  /-- Phase one passed over a column that improves its objective, and too much is left of the
  artificial variables. -/
  | stopped {o : α} (artificials : p.startTableau.hasArtificials = true)
      (ending : (phaseOneRun s p.startTableau).ending = .optimal)
      (excess : s.feasTol < (phaseOneRun s p.startTableau).excess)
      (hcoeff : o ∈ (phaseOneRun s p.startTableau).tableau.objective.coeffs) (improves : o < 0)
  /-- Phase two passed over a row that limits the column. -/
  | unlimited {t : Tableau α} {spent j : ℕ} {row : Row α}
      (entered : phaseOne s p.startTableau = .ok (t, spent))
      (escapes : (phaseTwo s p.objective t spent).Escapes s.pivotTol t.firstArtificial j)
      (hrow : row ∈ (phaseTwo s p.objective t spent).tableau.rows)
      (limits : 0 < row.equation.coeff j)
  /-- Phase two followed the column to where an artificial variable grows. -/
  | revived {t : Tableau α} {spent j : ℕ} {row : Row α}
      (entered : phaseOne s p.startTableau = .ok (t, spent))
      (escapes : (phaseTwo s p.objective t spent).Escapes s.pivotTol t.firstArtificial j)
      (hrow : row ∈ (phaseTwo s p.objective t spent).tableau.rows)
      (artificial : (phaseTwo s p.objective t spent).tableau.isArtificial row.basic = true)
      (grows : row.equation.coeff j < 0)

variable {p : LinearProgram α} {s : Settings α} {t : Tableau α} {spent : ℕ}

theorem phaseOne_of_unbounded (artificials : t.hasArtificials = true)
    (ending : (phaseOneRun s t).ending = .unbounded) :
    phaseOne s t = .error ⟨.numericalError, (phaseOneRun s t).pivots⟩ := by
  rw [phaseOneRun] at ending
  simp only [phaseOne, artificials, if_true, ending]
  rfl

theorem phaseOne_of_excess (artificials : t.hasArtificials = true)
    (ending : (phaseOneRun s t).ending = .optimal) (excess : s.feasTol < (phaseOneRun s t).excess) :
    phaseOne s t
      = .error ⟨.infeasible (.excess (phaseOneRun s t).excess), (phaseOneRun s t).pivots⟩ := by
  rw [phaseOneRun] at ending
  simp only [phaseOne, artificials, if_true, ending]
  exact if_pos excess

theorem not_admissible_of_error {result : Result α}
    (h : phaseOne s p.startTableau = .error result) (hne : ¬ result.verdict.Admissible) :
    ¬ (p.optimum s).verdict.Admissible := by
  rw [optimum]
  split
  · exact not_false
  · rw [h]
    exact hne

theorem not_admissible_of_unbounded (h : phaseOne s p.startTableau = .ok (t, spent))
    (ending : (phaseTwo s p.objective t spent).ending = .unbounded) :
    ¬ (p.optimum s).verdict.Admissible := by
  rw [optimum]
  split
  · exact not_false
  · simp only [h, Phase.verdict, ending]
    exact not_false

/-- **A method that is misled misreports the program.** -/
theorem Misled.not_admissible (h : p.Misled s) : ¬ (p.optimum s).verdict.Admissible := by
  cases h with
  | overlooked artificials escapes _ _ =>
      exact not_admissible_of_error (phaseOne_of_unbounded artificials escapes.ending) not_false
  | stopped artificials ending excess _ _ =>
      exact not_admissible_of_error (phaseOne_of_excess artificials ending excess) not_false
  | unlimited entered escapes _ _ => exact not_admissible_of_unbounded entered escapes.ending
  | revived entered escapes _ _ _ => exact not_admissible_of_unbounded entered escapes.ending

end Scalar

/-! ### Improving columns -/

namespace Tableau

variable {s t : Tableau ℚ} {value : (ℕ → ℚ) → ℚ} {v : ℕ → ℚ} {limit j n N : ℕ}
  {cs : List (Constraint ℚ)} {c : List ℚ} {tol : ExtRat}

/-- A column that enters improves the objective, whatever the tolerance. -/
theorem improves_of_entering (htol : 0 ≤ tol) (h : t.embed.entering? tol limit = some j) :
    j < limit ∧ t.objective.coeff j < 0 := by
  obtain ⟨hlimit, o, ho, hlt⟩ := entering?_eq_some h
  have hcoeff : o = num (t.objective.coeff j) := by
    rw [← Equation.coeff_embed, Equation.coeff, List.getD_eq_getElem?_getD]
    exact (congrArg (Option.getD · 0) ho).symm
  refine ⟨hlimit, ?_⟩
  rw [hcoeff] at hlt
  rcases ExtRat.nonneg_cases htol with rfl | ⟨τ, rfl, hτ⟩
  · exact absurd hlt (ExtRat.not_lt_negInf _)
  · rw [ExtRat.num_neg, ExtRat.num_lt] at hlt
    linarith

/-- Where no column improves the objective, no solution that is not negative exceeds its value. -/
theorem Canonical.value_le_of_nonneg (d : Canonical s value t)
    (hcoeff : ∀ k < t.columns, 0 ≤ t.objective.coeff k) (hv : t.Solves v) (nonneg : ∀ k, 0 ≤ v k) :
    value v ≤ t.objective.rhs := by
  have hlhs : 0 ≤ t.objective.lhs t.columns v :=
    Finset.sum_nonneg fun k hk => mul_nonneg (hcoeff k (Finset.mem_range.mp hk)) (nonneg k)
  have := d.means v hv
  linarith

theorem artificialSum_direction (s t : Tableau ℚ) (j : ℕ) :
    s.artificialSum (t.direction j)
      = s.artificialSum (t.ray j 1) - s.artificialSum (t.ray j 0) := by
  rw [artificialSum, artificialSum, artificialSum, ← Finset.sum_sub_distrib]
  refine Finset.sum_congr rfl fun k _ => ?_
  split
  · rfl
  · exact (sub_zero 0).symm

/-- **An improving column of phase one is limited by a row.** -/
theorem Canonical.exists_limits (d : Canonical s (fun v => -s.artificialSum v) t)
    (improves : t.objective.coeff j < 0) : ∃ row ∈ t.rows, 0 < row.equation.coeff j := by
  by_contra hnone
  push Not at hnone
  -- along its direction the artificial variables would decrease and stay nonnegative
  have hgrows := d.value_ray_sub (d.nonbasic_of_neg improves)
  have hsum := artificialSum_nonneg (t := s) (d.basis.direction_nonneg hnone)
  rw [artificialSum_direction] at hsum
  linarith

/-- **Where artificial variables are left at a feasible program, a column improves the objective of
phase one.** -/
theorem Canonical.exists_improves (hcs : ∀ c ∈ cs, c.Proper n)
    (d : Canonical (start n cs) (fun v => -(start n cs).artificialSum v) t) {x : ℕ → ℚ}
    (hx : Meets n cs x) (excess : 0 < -t.objective.rhs) :
    ∃ k < t.columns, t.objective.coeff k < 0 := by
  by_contra hnone
  push Not at hnone
  have hle := d.value_le_of_nonneg hnone ((d.solves _).mpr (solves_withSlacks hcs x))
    hx.withSlacks_nonneg
  rw [artificialSum_withSlacks] at hle
  linarith

theorem lhs_add_mul (c : Constraint ℚ) (x y : ℕ → ℚ) (θ : ℚ) :
    c.lhs (fun j => x j + θ * y j) = c.lhs x + θ * c.lhs y := by
  rw [Constraint.lhs, Constraint.lhs, Constraint.lhs, ← List.sum_map_mul_left, ← List.sum_map_add]
  exact congrArg List.sum (List.map_congr_left fun term _ => by ring)

theorem worth_add_mul (c : List ℚ) (N : ℕ) (x y : ℕ → ℚ) (θ : ℚ) :
    worth c N (fun j => x j + θ * y j) = worth c N x + θ * worth c N y := by
  rw [worth, worth, worth, Finset.mul_sum, ← Finset.sum_add_distrib]
  exact Finset.sum_congr rfl fun k _ => by ring

/-- From a point on, every value is exceeded in a direction in which the objective grows. -/
theorem Meets.exists_worth_gt {x y : ℕ → ℚ} (hx : Meets n cs x) (nonneg : ∀ k, 0 ≤ y k)
    (limits : ∀ c ∈ cs, c.lhs y ≤ 0) (improves : 0 < worth c N y) (m : ℚ) :
    ∃ z, Meets n cs z ∧ m < worth c N z := by
  have hθ : 0 ≤ (|m - worth c N x| + 1) / worth c N y := by positivity
  refine ⟨fun j => x j + (|m - worth c N x| + 1) / worth c N y * y j,
    ⟨fun j hj => ?_, fun c hc => ?_⟩, ?_⟩
  · exact add_nonneg (hx.nonneg j hj) (mul_nonneg hθ (nonneg j))
  · have := hx.limits c hc
    have := mul_nonpos_of_nonneg_of_nonpos hθ (limits c hc)
    rw [lhs_add_mul]
    linarith
  · rw [worth_add_mul, div_mul_cancel₀ _ improves.ne']
    have := le_abs_self (m - worth c N x)
    linarith

/-- **Where the objective is bounded, an improving column of phase two is limited by a row, or lets
an artificial variable grow.** -/
theorem Canonical.exists_limits_or_revives (hcs : ∀ c ∈ cs, c.Proper n)
    (d : Canonical (start n cs) (worth c N) t) {x : ℕ → ℚ} (hx : Meets n cs x) {m : ℚ}
    (bounded : ∀ z, Meets n cs z → worth c N z ≤ m) (hj : j < t.firstArtificial)
    (improves : t.objective.coeff j < 0) :
    ∃ row ∈ t.rows, 0 < row.equation.coeff j
      ∨ (t.firstArtificial ≤ row.basic ∧ row.equation.coeff j < 0) := by
  by_contra hnone
  push Not at hnone
  obtain ⟨y, nonneg, limits, grows⟩ := exists_direction_of_falls hcs d hj improves
    (fun row hrow => (hnone row hrow).1)
    fun row hrow hart => le_antisymm (hnone row hrow).1 ((hnone row hrow).2 hart)
  obtain ⟨z, hz, hgt⟩ := hx.exists_worth_gt nonneg limits grows m
  exact absurd (bounded z hz) (not_le.mpr hgt)

end Tableau

/-! ### The two phases -/

variable {p : LinearProgram ExtRat} {s : Settings ExtRat} {x : List ℚ} {u : Tableau ExtRat}
  {spent : ℕ}

/-- The last tableau of phase one, over the rationals. -/
theorem exists_firstPhase {cs : List (Constraint ℚ)}
    (hconstraints : p.constraints = cs.map Constraint.embed) (htol : ¬ s.pivotTol < 0) :
    ∃ (t : Tableau ℚ) (phase : Phase ℚ), phaseOneRun s p.startTableau = phase.embed
      ∧ p.startTableau.columns = phase.tableau.columns
      ∧ Tableau.PhaseFrom s.pivotTol p.startTableau.columns t phase
      ∧ Canonical (.start p.numVars cs)
        (fun v => -(Tableau.start p.numVars cs).artificialSum v) phase.tableau := by
  obtain ⟨phase, hphase, run⟩ := exists_embed_phaseOneRun htol (Tableau.start p.numVars cs)
  have d := ((Tableau.basis_start p.numVars cs).restates.withArtificialObjective
    (Tableau.firstArtificial_le_columns_start p.numVars cs)).exchanges run.exchanges
  refine ⟨(Tableau.start p.numVars cs).withArtificialObjective, phase, ?_⟩
  rw [startTableau_embed hconstraints]
  exact ⟨hphase, d.columns.symm, run, d⟩

/-- Where phase one misreports a feasible program, it is misled. -/
theorem misled_of_phaseOne (valid : p.validate = .ok ()) (wf : p.matrix.WellFormed)
    (pivotTol : 0 ≤ s.pivotTol) (feasTol : 0 ≤ s.feasTol) (nonempty : p.box.isEmpty = false)
    (hx : p.Feasible x) {result : Result ExtRat} (h : phaseOne s p.startTableau = .error result)
    (hne : ¬ result.verdict.Admissible) : p.Misled s := by
  obtain ⟨cs, c, hconstraints, m⟩ := exists_models valid wf nonempty
  obtain ⟨t, phase, hphase, -, run, d⟩ :=
    exists_firstPhase hconstraints (ExtRat.not_neg_of_nonneg pivotTol)
  obtain ⟨artificials, ⟨-, hv⟩ | ⟨ending, -⟩ | ⟨ending, hexcess, -⟩⟩ := phaseOne_eq_error h
  · rw [hv] at hne
    exact absurd trivial hne
  · have ending' := ending
    rw [hphase] at ending'
    obtain ⟨j, hj⟩ := run.unbounded ending'
    obtain ⟨-, improves⟩ :=
      Tableau.improves_of_entering pivotTol (Tableau.move_eq_unbounded hj).1
    obtain ⟨row, hrow, limits⟩ := d.exists_limits improves
    have hrow' : row.embed ∈ (phaseOneRun s p.startTableau).tableau.rows := by
      rw [hphase]
      exact List.mem_map_of_mem hrow
    have hcoeff : row.embed.equation.coeff j = num (row.equation.coeff j) :=
      Equation.coeff_embed row.equation j
    exact .overlooked artificials ⟨ending, hphase ▸ hj⟩ hrow' (hcoeff ▸ ExtRat.num_lt.mpr limits)
  · have hexcess' := hexcess
    rw [hphase] at hexcess'
    have positive : 0 < -phase.tableau.objective.rhs := ExtRat.pos_of_lt feasTol hexcess'
    obtain ⟨k, hk, improves⟩ := d.exists_improves m.proper ((m.feasible x).mp hx).2 positive
    refine .stopped (o := num (phase.tableau.objective.coeff k)) artificials ending hexcess ?_
      (ExtRat.num_lt.mpr improves)
    rw [hphase]
    exact List.mem_map_of_mem (List.mem_of_getElem? (d.basis.getElem?_objective hk))

/-- Where phase two misreports a program with an optimum, it is misled. -/
theorem misled_of_phaseTwo (valid : p.validate = .ok ()) (wf : p.matrix.WellFormed)
    (pivotTol : 0 ≤ s.pivotTol) (nonempty : p.box.isEmpty = false) (hx : p.Feasible x) {b : ℚ}
    (bounded : ∀ y, p.Feasible y → dot p.objective (nums y) ≤ num b)
    (h : phaseOne s p.startTableau = .ok (u, spent))
    (hne : ¬ ((phaseTwo s p.objective u spent).verdict p.objective).Admissible) : p.Misled s := by
  obtain ⟨cs, c, hconstraints, m⟩ := exists_models valid wf nonempty
  obtain ⟨N, t, phase, hN, hphase, run, hartificial, d, -⟩ :=
    m.exists_lastPhase hconstraints (ExtRat.not_neg_of_nonneg pivotTol) h
  have ending : (phaseTwo s p.objective u spent).ending = .unbounded := by
    rw [Phase.verdict] at hne
    split at hne
    · exact absurd trivial hne
    · assumption
    · exact absurd trivial hne
  have ending' := ending
  rw [hphase] at ending'
  obtain ⟨j, hj⟩ := run.unbounded ending'
  obtain ⟨hlimit, improves⟩ :=
    Tableau.improves_of_entering pivotTol (Tableau.move_eq_unbounded hj).1
  have worthBounded : ∀ z, Meets p.numVars cs z → worth c N z ≤ b := fun z hz => by
    have hle := bounded _ (m.feasible_firstCoordinates hz)
    rwa [m.value_firstCoordinates z hN, ExtRat.num_le] at hle
  obtain ⟨row, hrow, hcases⟩ := d.exists_limits_or_revives m.proper ((m.feasible x).mp hx).2
    worthBounded (hartificial ▸ hlimit) improves
  have hrow' : row.embed ∈ (phaseTwo s p.objective u spent).tableau.rows := by
    rw [hphase]
    exact List.mem_map_of_mem hrow
  have escapes : (phaseTwo s p.objective u spent).Escapes s.pivotTol u.firstArtificial j :=
    ⟨ending, hphase ▸ hj⟩
  have hcoeff : row.embed.equation.coeff j = num (row.equation.coeff j) :=
    Equation.coeff_embed row.equation j
  rcases hcases with limits | ⟨artificial, grows⟩
  · exact .unlimited h escapes hrow' (hcoeff ▸ ExtRat.num_lt.mpr limits)
  · refine .revived h escapes hrow' ?_ (hcoeff ▸ ExtRat.num_lt.mpr grows)
    rw [hphase]
    exact decide_eq_true artificial

/-- **Without a tolerance for pivots the method is not misled.** -/
theorem not_misled (valid : p.validate = .ok ()) (wf : p.matrix.WellFormed)
    (pivotTol : s.pivotTol = 0) (nonempty : p.box.isEmpty = false) : ¬ p.Misled s := by
  have htol : 0 ≤ s.pivotTol := pivotTol.symm ▸ ExtRat.num_le.mpr le_rfl
  -- a row that limits the column is not passed over
  have overlooks {phase : Phase ExtRat} {limit j : ℕ} {row : Row ExtRat}
      (escapes : phase.Escapes s.pivotTol limit j) (hrow : row ∈ phase.tableau.rows) :
      ¬ 0 < row.equation.coeff j := by
    have hle := Tableau.leaving?_eq_none (Tableau.move_eq_unbounded escapes.move).2 row hrow
    rw [pivotTol] at hle
    exact ExtRat.not_pos_of_le_zero hle
  obtain ⟨cs, c, hconstraints, m⟩ := exists_models valid wf nonempty
  intro h
  cases h with
  | overlooked _ escapes hrow limits => exact overlooks escapes hrow limits
  | stopped _ ending _ hcoeff improves =>
      obtain ⟨t, phase, hphase, hcolumns, run, d⟩ :=
        exists_firstPhase hconstraints (ExtRat.not_neg_of_nonneg htol)
      rw [hphase] at ending hcoeff
      obtain ⟨k, hk⟩ := List.mem_iff_getElem?.mp hcoeff
      have hlt : k < p.startTableau.columns := by
        have := (List.getElem?_eq_some_iff.mp hk).1
        rwa [Phase.embed, Tableau.embed, Equation.embed, length_nums, d.basis.objective,
          ← hcolumns] at this
      have hnot := Tableau.entering?_eq_none (run.optimal ending) hlt hk
      rw [pivotTol, show (-0 : ExtRat) = 0 from rfl] at hnot
      exact hnot improves
  | unlimited _ escapes hrow limits => exact overlooks escapes hrow limits
  | @revived u spent j row entered escapes hrow artificial grows =>
      obtain ⟨N, t, phase, -, hphase, -, hartificial, d, below⟩ :=
        m.exists_lastPhase hconstraints (ExtRat.not_neg_of_nonneg htol) entered
      have hmove := escapes.move
      rw [hphase] at hrow artificial hmove
      obtain ⟨hlimit, -⟩ := Tableau.improves_of_entering htol (Tableau.move_eq_unbounded hmove).1
      obtain ⟨source, hsource, rfl⟩ := List.mem_map.mp hrow
      have hzero := (below pivotTol).coeff_eq_zero hsource (of_decide_eq_true artificial)
        (hartificial.symm ▸ hlimit)
      rw [Row.embed, Equation.coeff_embed, hzero] at grows
      exact absurd (ExtRat.num_lt.mp grows) (lt_irrefl 0)

/-- **A program with an optimum is misreported just when the method is misled**, whatever the budget
and the tolerances that are not negative; and without a tolerance for pivots it never is. -/
theorem solve_solvable (valid : p.validate = .ok ()) (wf : p.matrix.WellFormed)
    (pivotTol : 0 ≤ s.pivotTol) (feasTol : 0 ≤ s.feasTol) (feasible : ∃ x, p.Feasible x)
    (bounded : ∃ b : ℚ, ∀ x, p.Feasible x → dot p.objective (nums x) ≤ num b) :
    ∃ result, p.solve s = .ok result ∧ (result.verdict.Admissible ↔ ¬ p.Misled s)
      ∧ (s.pivotTol = 0 → result.verdict.Admissible) := by
  obtain ⟨x, hx⟩ := feasible
  obtain ⟨b, hb⟩ := bounded
  have nonempty : p.box.isEmpty = false := Bool.not_eq_true _ ▸ fun empty =>
    not_feasible_of_isEmpty empty hx
  have misled : ¬ (p.optimum s).verdict.Admissible → p.Misled s := by
    intro hne
    rcases p.optimum_cases s with ⟨empty, -⟩ | ⟨-, hone⟩ | ⟨-, u, spent, hone, hverdict⟩
    · exact absurd (nonempty.symm.trans empty) Bool.false_ne_true
    · exact misled_of_phaseOne valid wf pivotTol feasTol nonempty hx hone hne
    · exact misled_of_phaseTwo valid wf pivotTol nonempty hx hb hone (hverdict ▸ hne)
  have admissible : (p.optimum s).verdict.Admissible ↔ ¬ p.Misled s :=
    ⟨fun h hmisled => hmisled.not_admissible h, fun h => not_not.mp fun hne => h (misled hne)⟩
  exact ⟨_, solve_eq_ok valid, admissible, fun hzero =>
    admissible.mpr (not_misled valid wf hzero nonempty)⟩

/-- Minimise `x` where `x / 2³⁰ ≥ 1`, said twice.  The coefficients are within the usual
tolerance, and their sum is not. -/
def remote : LinearProgram ExtRat where
  objective := [num (-1)]
  matrix := .ofEntries 1 [[(0, num (-1 / 2 ^ 30))], [(0, num (-1 / 2 ^ 30))]]
  limits := [num (-1), num (-1)]
  box := .nonnegative 1

theorem feasible_remote : remote.Feasible [2 ^ 30] where
  limits := ⟨[num (-1), num (-1)], by decide +kernel, by decide +kernel⟩
  lower := by decide +kernel
  upper := by decide +kernel

theorem dot_le_of_remote {x : List ℚ} (hx : remote.Feasible x) :
    dot remote.objective (nums x) ≤ num 0 := by
  obtain ⟨a, rfl⟩ : ∃ a, x = [a] :=
    List.length_eq_one_iff.mp ((length_nums x).symm.trans hx.lower.length_eq.symm)
  have nonneg : num 0 ≤ num a := (List.forall₂_cons.mp hx.lower).1
  have value : dot (nums [-1]) (nums [a]) = num (-a) := by
    rw [nums, nums, ExtRat.dot_map_num]
    simp [ExtRat.innerProd]
  exact value ▸ ExtRat.num_le.mpr (neg_nonpos.mpr (ExtRat.num_le.mp nonneg))

/-- At the remote program, with the usual tolerances. -/
theorem solve_solvable_remote :
    remote.validate = .ok () ∧ remote.matrix.WellFormed ∧ (0 : ExtRat) ≤ 1e-9
      ∧ (∃ x, remote.Feasible x)
      ∧ (∃ b : ℚ, ∀ x, remote.Feasible x → dot remote.objective (nums x) ≤ num b)
      ∧ ∃ result, remote.solve .standard = .ok result
        ∧ (result.verdict.Admissible ↔ ¬ remote.Misled .standard)
        ∧ ((Settings.standard : Settings ExtRat).pivotTol = 0 → result.verdict.Admissible) := by
  have valid : remote.validate = .ok () := by decide +kernel
  have wf : remote.matrix.WellFormed := by decide +kernel
  have tol : (0 : ExtRat) ≤ 1e-9 := by decide +kernel
  have feasible : ∃ x, remote.Feasible x := ⟨_, feasible_remote⟩
  have bounded : ∃ b : ℚ, ∀ x, remote.Feasible x → dot remote.objective (nums x) ≤ num b :=
    ⟨0, fun _ => dot_le_of_remote⟩
  exact ⟨valid, wf, tol, feasible, bounded, solve_solvable valid wf tol tol feasible bounded⟩

/-- **A program with an optimum that is reported in error**: phase one prices the sum of the two
rows, and passes over both. -/
theorem misreported_remote :
    remote.validate = .ok () ∧ remote.matrix.WellFormed ∧ (∃ x, remote.Feasible x)
      ∧ (∃ b : ℚ, ∀ x, remote.Feasible x → dot remote.objective (nums x) ≤ num b)
      ∧ remote.solve .standard = .ok ⟨.numericalError, 0⟩ :=
  ⟨by decide +kernel, by decide +kernel, ⟨_, feasible_remote⟩, ⟨0, fun _ => dot_le_of_remote⟩,
    by decide +kernel⟩

end LinearProgram

end IntegerProgramming
