import Mathlib
import IntegerProgramming.Proofs.LinearProgram.Verdicts
import IntegerProgramming.Proofs.LinearProgram.Vertices

/-!
# Simplex — certificates

What a verdict says of the feasible points when nothing is known of the ratio tests, and the
tolerances are any that are not negative.  The basic solution may have become infeasible, but every
pivot was an exchange, so the objective row of the last tableau still says what its value is at
every solution.

* `Tableau.Canonical.value_le`: **a tableau without an entering column bounds its value** at every
  solution that is not negative.
* `Tableau.exists_direction_of_falls`: **a column that no row limits gives a direction** in which no
  left-hand side grows and the objective does.
* `Verdict.Certified`, `LinearProgram.solve_certified`: the two for phase one, which bounds the
  artificial variables, and for phase two, as statements about the feasible points.
-/

namespace IntegerProgramming.LinearProgram

open ExtRat (num slack)
open Tableau (Meets worth Exchanges Restates Canonical withSlacks)

namespace Tableau

variable {s t u : Tableau ℚ} {v : ℕ → ℚ} {value : (ℕ → ℚ) → ℚ} {limit j k n p : ℕ} {row : Row ℚ}
  {cs : List (Constraint ℚ)} {c : List ℚ} {tol : ExtRat}

/-! ### The bound of an objective row -/

/-- A column that does not enter has a coefficient that is hardly negative. -/
theorem Canonical.neg_tol_le (d : Canonical s value t) {τ : ℚ}
    (h : t.embed.entering? (num τ) limit = none) (hk : k < limit) (hcol : k < t.columns) :
    -τ ≤ t.objective.coeff k := by
  have hentry : t.embed.objective.coeffs[k]? = some (num (t.objective.coeff k)) := by
    rw [embed, Equation.embed, nums, List.getElem?_map, d.basis.getElem?_objective hcol,
      Option.map_some]
  have hnot := entering?_eq_none h hk hentry
  rwa [ExtRat.num_neg, ExtRat.num_lt, not_lt] at hnot

/-- **The bound of an objective row.**  Where no column enters, no solution that is not negative and
uses only the columns that may enter has a value beyond the right-hand side by more than the
tolerance times its weight. -/
theorem Canonical.value_le (d : Canonical s value t) (htol : 0 ≤ tol)
    (h : t.embed.entering? tol limit = none) (hv : t.Solves v) (nonneg : ∀ k, 0 ≤ v k)
    (zero : ∀ k, limit ≤ k → k < t.columns → v k = 0) :
    num (value v - t.objective.rhs) ≤ slack tol (num (∑ k ∈ Finset.range t.columns, v k)) := by
  have hmeans := d.means v hv
  have weight := Finset.sum_nonneg fun k (_ : k ∈ Finset.range t.columns) => nonneg k
  rcases ExtRat.nonneg_cases htol with rfl | ⟨τ, rfl, hτ⟩
  · rcases weight.eq_or_lt with hzero | hpos
    · -- a solution without weight is zero, and so is what the objective row adds
      have each := (Finset.sum_eq_zero_iff_of_nonneg fun k _ => nonneg k).mp hzero.symm
      have hlhs : t.objective.lhs t.columns v = 0 :=
        Finset.sum_eq_zero fun k hk => by rw [each k hk, mul_zero]
      have hle : value v - t.objective.rhs ≤ 0 := by linarith
      exact ExtRat.num_le_greater_iff.mpr (.inl (ExtRat.num_le.mpr hle))
    · rw [slack, ExtRat.posInf_mul_num hpos]
      exact ExtRat.num_le_greater_iff.mpr (.inr (ExtRat.num_le_posInf _))
  · rw [ExtRat.slack_num (mul_nonneg hτ weight), ExtRat.num_le]
    have terms : ∀ k ∈ Finset.range t.columns, -τ * v k ≤ t.objective.coeff k * v k := by
      intro k hk
      rw [Finset.mem_range] at hk
      rcases lt_or_ge k limit with hlimit | hlimit
      · exact mul_le_mul_of_nonneg_right (d.neg_tol_le h hlimit hk) (nonneg k)
      · rw [zero k hlimit hk, mul_zero, mul_zero]
    have hsum := Finset.sum_le_sum terms
    rw [← Finset.mul_sum, ← Equation.lhs] at hsum
    linarith

/-- The weight of a point with its slacks. -/
theorem sum_withSlacks (n : ℕ) (cs : List (Constraint ℚ)) (x : ℕ → ℚ) (k : ℕ) :
    ∑ j ∈ Finset.range (n + cs.length + k), withSlacks n cs x j
      = ∑ j ∈ Finset.range n, x j + (cs.map fun c => c.limit - c.lhs x).sum := by
  have points : ∀ j ∈ Finset.range n, withSlacks n cs x j = x j :=
    fun j hj => withSlacks_of_lt (Finset.mem_range.mp hj)
  have slacks : ∑ i ∈ Finset.range cs.length, withSlacks n cs x (n + i)
      = (cs.map fun c => c.limit - c.lhs x).sum := by
    rw [Finset.sum_range, ← Fin.sum_univ_fun_getElem]
    exact Finset.sum_congr rfl fun i _ => withSlacks_slack (List.getElem?_eq_getElem i.isLt)
  have artificials : ∀ j ∈ Finset.range k, withSlacks n cs x (n + cs.length + j) = 0 :=
    fun j _ => withSlacks_artificial (by omega)
  rw [Finset.sum_range_add, Finset.sum_range_add, Finset.sum_congr rfl points,
    Finset.sum_congr rfl artificials, Finset.sum_const_zero, add_zero, slacks]

/-! ### Directions -/

/-- The direction of the ray along column `j`. -/
def direction (t : Tableau ℚ) (j k : ℕ) : ℚ := t.ray j 1 k - t.ray j 0 k

theorem Basis.direction_basic (b : t.Basis) (h : row ∈ t.rows) (j : ℕ) :
    t.direction j row.basic = -row.equation.coeff j := by
  rw [direction, b.ray_basic h, b.ray_basic h]
  ring

theorem direction_nonbasic (h : ∀ row ∈ t.rows, row.basic ≠ k) (j : ℕ) :
    t.direction j k = if k = j then 1 else 0 := by
  rw [direction, ray_nonbasic h, ray_nonbasic h, ite_self, sub_zero]

theorem lhs_direction (n : ℕ) (e : Equation ℚ) (t : Tableau ℚ) (j : ℕ) :
    e.lhs n (t.direction j) = e.lhs n (t.ray j 1) - e.lhs n (t.ray j 0) := by
  have := e.lhs_combination n (t.ray j 1) (t.ray j 0) 1 (-1)
  simp only [one_mul, neg_one_mul, ← sub_eq_add_neg] at this
  exact this

/-- A direction changes no left-hand side of the system. -/
theorem Restates.lhs_direction (w : Restates s t) (hj : ∀ row ∈ t.rows, row.basic ≠ j)
    (hrow : row ∈ s.rows) : row.equation.lhs s.columns (t.direction j) = 0 := by
  have first := (w.solves _).mp (w.basis.solves_ray hj 1) row hrow
  have second := (w.solves _).mp (w.basis.solves_ray hj 0) row hrow
  rw [Tableau.lhs_direction, first, second, sub_self]

/-- Along a ray the value grows by what the objective row says. -/
theorem Canonical.value_ray_sub (d : Canonical s value t) (hj : ∀ row ∈ t.rows, row.basic ≠ j) :
    value (t.ray j 1) - value (t.ray j 0) = -t.objective.coeff j := by
  have first := d.means _ (d.basis.solves_ray hj 1)
  have second := d.means _ (d.basis.solves_ray hj 0)
  rw [d.priced.lhs_ray d.basis hj] at first second
  linarith

theorem worth_direction (d : Canonical s (worth c n) t) (hj : ∀ row ∈ t.rows, row.basic ≠ j) :
    worth c n (t.direction j) = -t.objective.coeff j := by
  rw [← d.value_ray_sub hj]
  simp only [worth, direction, mul_sub, Finset.sum_sub_distrib]

/-- Where no row limits the column, its direction leads nowhere below zero. -/
theorem Basis.direction_nonneg (b : t.Basis) (falls : ∀ row ∈ t.rows, row.equation.coeff j ≤ 0)
    (k : ℕ) : 0 ≤ t.direction j k := by
  rcases t.basic_or_nonbasic k with ⟨row, hrow, rfl⟩ | hnon
  · rw [b.direction_basic hrow]
    exact neg_nonneg.mpr (falls row hrow)
  · rw [direction_nonbasic hnon]
    split <;> norm_num

/-- Where no row of an artificial variable has the column, its direction keeps them where they
are. -/
theorem Basis.direction_eq_zero (b : t.Basis)
    (fixed : ∀ row ∈ t.rows, t.firstArtificial ≤ row.basic → row.equation.coeff j = 0)
    (hj : j < t.firstArtificial) (hk : t.firstArtificial ≤ k) : t.direction j k = 0 := by
  rcases t.basic_or_nonbasic k with ⟨row, hrow, rfl⟩ | hnon
  · rw [b.direction_basic hrow, fixed row hrow hk, neg_zero]
  · rw [direction_nonbasic hnon, if_neg (by omega)]

theorem IdleBelow.coeff_eq_zero (below : t.IdleBelow t.rows.length) (hrow : row ∈ t.rows)
    (hart : t.firstArtificial ≤ row.basic) (hj : j < t.firstArtificial) :
    row.equation.coeff j = 0 := by
  obtain ⟨i, hi⟩ := List.mem_iff_getElem?.mp hrow
  obtain ⟨hlt, -⟩ := List.getElem?_eq_some_iff.mp hi
  exact below i row hlt hi hart j hj

theorem IdleBelow.exchanges (below : t.IdleBelow p) (w : Restates s t)
    (run : Exchanges t.firstArtificial t u) : u.IdleBelow p := by
  refine (run.invariant (P := fun u => Restates s u ∧ u.IdleBelow p) ⟨w, below⟩ ?_).2
  rintro u r j row ⟨hu, hbelow⟩ hrow hcoeff hj
  rw [w.firstArtificial, ← hu.firstArtificial] at hj
  exact ⟨hu.pivot hrow hcoeff, hbelow.pivot hu.basis hrow hj⟩

/-- **The direction of a column that no row limits.**  It leads to no negative coordinate and to no
greater left-hand side, and the objective grows along it. -/
theorem exists_direction_of_falls (hcs : ∀ c ∈ cs, c.Proper n) {N : ℕ}
    (d : Canonical (start n cs) (worth c N) t) (hj : j < t.firstArtificial)
    (improves : t.objective.coeff j < 0) (falls : ∀ row ∈ t.rows, row.equation.coeff j ≤ 0)
    (fixed : ∀ row ∈ t.rows, t.firstArtificial ≤ row.basic → row.equation.coeff j = 0) :
    ∃ x : ℕ → ℚ, (∀ k, 0 ≤ x k) ∧ (∀ c ∈ cs, c.lhs x ≤ 0) ∧ 0 < worth c N x := by
  have hnon := d.nonbasic_of_neg improves
  have hartificial : t.firstArtificial = n + cs.length := d.firstArtificial
  have nonneg := d.basis.direction_nonneg falls
  refine ⟨t.direction j, nonneg, fun c hc => ?_, ?_⟩
  · obtain ⟨i, hi⟩ := List.mem_iff_getElem?.mp hc
    have zero : ∀ k, n + cs.length ≤ k → t.direction j k = 0 := fun k hk =>
      d.basis.direction_eq_zero fixed hj (hartificial ▸ hk)
    -- what the slack of the constraint gains its left-hand side loses
    have hlhs := d.lhs_direction hnon (startRow_mem_start hi)
    rw [lhs_row_start hcs zero hi] at hlhs
    have hsum := (mul_eq_zero.mp hlhs).resolve_left (signOf_ne_zero c)
    have := nonneg (n + i)
    linarith
  · rw [worth_direction d hnon]
    linarith

/-- Without a tolerance, and where rows with an artificial basic variable have no other, a phase
that is unbounded has found such a direction. -/
theorem exists_direction (hcs : ∀ c ∈ cs, c.Proper n) {N : ℕ}
    (d : Canonical (start n cs) (worth c N) t) (below : t.IdleBelow t.rows.length)
    (h : t.move 0 (n + cs.length) = .unbounded j) :
    ∃ x : ℕ → ℚ, (∀ k, 0 ≤ x k) ∧ (∀ c ∈ cs, c.lhs x ≤ 0) ∧ 0 < worth c N x := by
  obtain ⟨hj, hnone⟩ := move_eq_unbounded h
  obtain ⟨hlimit, -, hneg, -⟩ := d.entering hj
  rw [← show t.firstArtificial = n + cs.length from d.firstArtificial] at hlimit
  exact exists_direction_of_falls hcs d hlimit hneg (leaving?_eq_none hnone) fun row hrow hart =>
    below.coeff_eq_zero hrow hart hlimit

/-! ### The two phases -/

variable {x : ℕ → ℚ} {phase : Phase ℚ}

/-- The weight of a point with its slacks, over the columns of the start. -/
def weight (n : ℕ) (cs : List (Constraint ℚ)) (x : ℕ → ℚ) : ℚ :=
  ∑ j ∈ Finset.range (start n cs).columns, withSlacks n cs x j

/-- **The certificate of phase one.**  What it leaves of the artificial variables is within the
tolerance times the weight of any point that meets the constraints. -/
theorem PhaseFrom.excess_le (hcs : ∀ c ∈ cs, c.Proper n) (htol : 0 ≤ tol)
    (h : PhaseFrom tol (start n cs).columns (start n cs).withArtificialObjective phase)
    (hending : phase.ending = .optimal) (hx : Meets n cs x) :
    num (-phase.tableau.objective.rhs) ≤ slack tol (num (weight n cs x)) := by
  have d := ((basis_start n cs).restates.withArtificialObjective
    (firstArtificial_le_columns_start n cs)).exchanges h.exchanges
  have hle := d.value_le htol (h.optimal hending) ((d.solves _).mpr (solves_withSlacks hcs x))
    hx.withSlacks_nonneg fun k hk hk' => absurd (d.columns ▸ hk') (not_lt.mpr hk)
  rwa [artificialSum_withSlacks, neg_zero, zero_sub, d.columns] at hle

/-- **The certificate of phase two.**  No point that meets the constraints has an objective beyond
that of the last tableau by more than the tolerance times its weight. -/
theorem Canonical.worth_le (hcs : ∀ c ∈ cs, c.Proper n) (hc : c.length = n) {N : ℕ} (htol : 0 ≤ tol)
    (d : Canonical (start n cs) (worth c N) t)
    (h : t.embed.entering? tol (n + cs.length) = none) (hx : Meets n cs x) :
    num (worth c N x) ≤ num t.objective.rhs + slack tol (num (weight n cs x)) := by
  have hle := d.value_le htol h ((d.solves _).mpr (solves_withSlacks hcs x)) hx.withSlacks_nonneg
    fun k hk _ => withSlacks_artificial hk
  rw [worth_congr fun j hj => withSlacks_of_lt (hc ▸ hj), d.columns] at hle
  exact ExtRat.num_le_add hle

end Tableau

variable {n : ℕ} {cs : List (Constraint ℚ)} {c : List ℚ} {s : Settings ExtRat}
  {p : LinearProgram ExtRat} {spent : ℕ}

/-- Phase one leaves a tableau of the system; without a tolerance, rows that keep an artificial
basic variable have no other. -/
theorem exists_restates_of_phaseOne (htol : ¬ s.pivotTol < 0) {u : Tableau ExtRat}
    (h : phaseOne s (Tableau.start n cs).embed = .ok (u, spent)) :
    ∃ t : Tableau ℚ, u = t.embed ∧ Restates (Tableau.start n cs) t
      ∧ (s.pivotTol = 0 → t.IdleBelow t.rows.length) := by
  have start := (Tableau.basis_start n cs).restates
  have hcols := Tableau.firstArtificial_le_columns_start n cs
  rcases phaseOne_eq_ok h with ⟨hart, rfl, -⟩ | ⟨-, -, -, -, rfl⟩
  · exact ⟨_, rfl, start, fun _ => (Tableau.ready_start hart).idle.below⟩
  · obtain ⟨phase, hphase, run⟩ := exists_embed_phaseOneRun htol (Tableau.start n cs)
    have w := (start.withArtificialObjective hcols).toRestates.exchanges run.exchanges
    rw [hphase]
    by_cases hzero : s.pivotTol = 0
    · obtain ⟨w', below⟩ := w.expelArtificials hcols
      refine ⟨_, ?_, w', fun _ => below⟩
      rw [hzero]
      exact Tableau.expelArtificials_embed phase.tableau
    · obtain ⟨u, hu, run'⟩ := Tableau.exists_embed_expelArtificials htol phase.tableau
      exact ⟨u, hu, w.exchanges run', fun h => absurd h hzero⟩

/-- Phase two goes on from there. -/
theorem Models.exists_phaseTwo (m : p.Models n cs c) (htol : ¬ s.pivotTol < 0) {t : Tableau ℚ}
    (w : Restates (Tableau.start n cs) t) (spent : ℕ) :
    ∃ phase : Phase ℚ, phaseTwo s p.objective t.embed spent = phase.embed
      ∧ Tableau.PhaseFrom s.pivotTol (n + cs.length) (t.withObjective c) phase
      ∧ Canonical (Tableau.start n cs) (worth c t.columns) phase.tableau
      ∧ (t.IdleBelow t.rows.length → phase.tableau.IdleBelow phase.tableau.rows.length) := by
  have hartificial : t.firstArtificial = n + cs.length := w.firstArtificial
  have hcolumns : n ≤ t.columns := by
    rw [w.columns, Tableau.columns_start]
    omega
  obtain ⟨phase, hphase, run⟩ := Tableau.exists_phaseFrom htol t.firstArtificial
    (s.pivotLimit - spent) (t.withObjective c)
  have d := w.withObjective (m.cost.trans w.structural.symm) (w.structural.le.trans hcolumns)
  refine ⟨phase, ?_, hartificial ▸ run, d.exchanges run.exchanges, fun below => ?_⟩
  · rw [phaseTwo, m.objective, Tableau.withObjective_embed]
    exact hphase
  · have kept : phase.tableau.IdleBelow t.rows.length :=
      Tableau.IdleBelow.exchanges (t := t.withObjective c) below d.toRestates run.exchanges
    rwa [w.length, ← (d.exchanges run.exchanges).length] at kept

/-- **The last tableau of a program.**  Phase two ends at a rational tableau that restates the
start, and its objective row says what the objective is. -/
theorem Models.exists_lastPhase (m : p.Models p.numVars cs c)
    (hconstraints : p.constraints = cs.map Constraint.embed) (htol : ¬ s.pivotTol < 0)
    {u : Tableau ExtRat} (h : phaseOne s p.startTableau = .ok (u, spent)) :
    ∃ (N : ℕ) (t : Tableau ℚ) (phase : Phase ℚ), p.numVars ≤ N
      ∧ phaseTwo s p.objective u spent = phase.embed
      ∧ Tableau.PhaseFrom s.pivotTol u.firstArtificial t phase
      ∧ phase.tableau.firstArtificial = u.firstArtificial
      ∧ Canonical (.start p.numVars cs) (worth c N) phase.tableau
      ∧ (s.pivotTol = 0 → phase.tableau.IdleBelow phase.tableau.rows.length) := by
  rw [startTableau_embed hconstraints] at h
  obtain ⟨t, rfl, w, below⟩ := exists_restates_of_phaseOne htol h
  obtain ⟨phase, hphase, run, d, keeps⟩ := m.exists_phaseTwo htol w spent
  have hcolumns : p.numVars ≤ t.columns := by
    rw [w.columns, Tableau.columns_start]
    omega
  have hartificial : t.embed.firstArtificial = p.numVars + cs.length := w.firstArtificial
  rw [← hartificial] at run
  exact ⟨t.columns, _, phase, hcolumns, hphase, run,
    d.firstArtificial.trans w.firstArtificial.symm, d, fun hzero => keeps (below hzero)⟩

/-! ### What a verdict certifies -/

/-- How far the left-hand side of a constraint is from its limit. -/
def Constraint.room (c : Constraint ExtRat) (x : List ℚ) : ExtRat :=
  c.limit - SparseMatrix.rowProduct (nums x) c.terms

/-- The sum of the coordinates of a point and of its distances from the limits of all constraints:
the rows, the finite upper ends and the positive lower ends. -/
def extent (p : LinearProgram ExtRat) (x : List ℚ) : ExtRat :=
  total (nums x) + total (p.constraints.map (·.room x))

/-- The tableau at which phase two ends, if it is entered. -/
def finalTableau? (p : LinearProgram ExtRat) (s : Settings ExtRat) : Option (Tableau ExtRat) :=
  match phaseOne s p.startTableau with
  | .error _ => none
  | .ok (t, spent) => some (phaseTwo s p.objective t spent).tableau

/-- A direction in which no constraint is ever violated, and the objective grows. -/
structure Recession (p : LinearProgram ExtRat) (d : List ℚ) : Prop where
  length : d.length = p.numVars
  nonneg : ∀ q ∈ d, 0 ≤ q
  rows : ∃ activities, p.matrix.product? (nums d) = some activities ∧ ∀ a ∈ activities, a ≤ 0
  upper : ∀ (j : ℕ) (q : ℚ), p.box.upper[j]? = some (num q) → d.getD j 0 = 0
  improves : 0 < dot p.objective (nums d)

/-- What a verdict says about the feasible points, as far as the tolerances let it.  A spent budget
and an error of the method say nothing. -/
def Verdict.Certified (p : LinearProgram ExtRat) (s : Settings ExtRat) : Verdict ExtRat → Prop
  | .optimal _ _ =>
    ∃ t, p.finalTableau? s = some t ∧ ∀ y, p.Feasible y →
      dot p.objective (nums y) ≤ t.objective.rhs + slack s.pivotTol (p.extent y)
  | .infeasible _ =>
    (∀ y, p.Feasible y → s.feasTol < slack s.pivotTol (p.extent y))
      ∧ (s.pivotTol = 0 → ∀ y, ¬ p.Feasible y)
  | .unbounded => s.pivotTol = 0 → ∃ d, p.Recession d
  | .pivotLimit | .numericalError => True

/-! ### Programs -/

theorem Constraint.room_embed (c : Constraint ℚ) (x : List ℚ) :
    c.embed.room x = num (c.limit - c.lhs (x.getD · 0)) := by
  have hlhs : SparseMatrix.rowProduct (nums x) c.embed.terms = num (c.lhs (x.getD · 0)) :=
    rowProduct_nums x c.terms
  rw [room, hlhs]
  exact ExtRat.num_sub _ _

theorem extent_eq (hconstraints : p.constraints = cs.map Constraint.embed) {y : List ℚ}
    (hy : y.length = n) : p.extent y = num (Tableau.weight n cs (y.getD · 0)) := by
  have rooms : p.constraints.map (·.room y)
      = nums (cs.map fun c => c.limit - c.lhs (y.getD · 0)) := by
    rw [hconstraints, nums, List.map_map, List.map_map]
    exact List.map_congr_left fun c _ => c.room_embed y
  have coordinates : y.sum = ∑ j ∈ Finset.range n, y.getD j 0 := by
    rw [← hy, Finset.sum_range, ← Fin.sum_univ_getElem]
    exact Finset.sum_congr rfl fun j _ => (List.getD_eq_getElem _ _ j.isLt).symm
  rw [extent, rooms, total_nums, total_nums, ExtRat.num_add, Tableau.weight,
    Tableau.columns_start, Tableau.sum_withSlacks, coordinates]

/-- Each row of the matrix has its constraint. -/
theorem exists_mem_rowConstraints {P : Program ℚ} (h : P.Regular) {row : List (ℕ × ℚ)}
    (hrow : row ∈ P.matrix.rowEntries) : ∃ limit, ⟨row, limit⟩ ∈ rowConstraints P := by
  obtain ⟨i, hi⟩ := List.mem_iff_getElem?.mp hrow
  obtain ⟨hlt, -⟩ := List.getElem?_eq_some_iff.mp hi
  have hlt' : i < P.limits.length := h.rows ▸ hlt
  have hzip : (P.matrix.rowEntries.zip P.limits)[i]? = some (row, P.limits[i]) :=
    List.getElem?_zip_eq_some.mpr ⟨hi, List.getElem?_eq_getElem hlt'⟩
  rw [rowConstraints, ← List.map_uncurry_zip_eq_zipWith]
  exact ⟨_, List.mem_map.mpr ⟨_, List.mem_of_getElem? hzip, rfl⟩⟩

/-- A direction that leads to no negative coordinate and to no greater left-hand side. -/
theorem Models.recession {P : Program ℚ} (m : p.Models p.numVars (allConstraints P p.box) c)
    (h : p.Accepted) (regular : P.Regular) (hP : p.program = P.embed) {x : ℕ → ℚ}
    (nonneg : ∀ k, 0 ≤ x k) (limits : ∀ c ∈ allConstraints P p.box, c.lhs x ≤ 0) {N : ℕ}
    (hN : p.numVars ≤ N) (improves : 0 < worth c N x) :
    p.Recession (firstCoordinates p.numVars x) where
  length := length_firstCoordinates _ x
  nonneg := by
    rw [firstCoordinates, List.forall_mem_map]
    exact fun k _ => nonneg k
  rows := by
    have matrix : p.matrix = P.embed.matrix := congrArg Program.matrix hP
    have numVars : P.numVars = p.numVars := (Program.numVars_embed P).symm.trans (hP ▸ rfl)
    have product : P.embed.matrix.product? (nums (firstCoordinates p.numVars x))
        = some (nums (P.matrix.rowEntries.map (rowValue (firstCoordinates p.numVars x)))) :=
      Program.activities?_embed regular ((length_firstCoordinates _ x).trans numVars.symm)
    refine ⟨_, matrix ▸ product, ?_⟩
    rw [nums, List.forall_mem_map, List.forall_mem_map]
    intro row hrow
    obtain ⟨limit, hmem⟩ := exists_mem_rowConstraints regular hrow
    have hmem' : ⟨row, limit⟩ ∈ allConstraints P p.box :=
      List.mem_append_left _ (List.mem_append_left _ hmem)
    have hvalue : rowValue (firstCoordinates p.numVars x) row
        = Constraint.lhs ⟨row, limit⟩ x :=
      Constraint.lhs_congr (m.proper _ hmem') fun j hj => getD_firstCoordinates hj
    rw [hvalue]
    exact ExtRat.num_le.mpr (limits _ hmem')
  upper j q hj := by
    have hlt : j < p.numVars := h.upperLength ▸ (List.getElem?_eq_some_iff.mp hj).1
    have ends : ∀ c ∈ endConstraints upperEnd? p.box.upper, c.lhs x ≤ 0 := fun c hc =>
      limits c (List.mem_append_left _ (List.mem_append_right _ hc))
    have hle := forall_mem_endConstraints.mp ends j _ hj ⟨[(j, 1)], q⟩ rfl
    simp only [Constraint.lhs, List.map_cons, List.map_nil, List.sum_singleton, one_mul] at hle
    rw [getD_firstCoordinates hlt]
    exact le_antisymm hle (nonneg j)
  improves := by
    rw [m.value_firstCoordinates x hN]
    exact ExtRat.num_lt.mpr improves

/-- What phase one says when it finds no tableau to go on with. -/
theorem certified_of_phaseOne (valid : p.validate = .ok ()) (wf : p.matrix.WellFormed)
    (pivotTol : 0 ≤ s.pivotTol) (feasTol : 0 ≤ s.feasTol) (nonempty : p.box.isEmpty = false)
    {result : Result ExtRat} (h : phaseOne s p.startTableau = .error result) :
    result.verdict.Certified p s := by
  obtain ⟨P, c, -, -, hconstraints, m⟩ := exists_regular_models valid wf nonempty
  rcases phaseOne_eq_error h with ⟨-, ⟨-, hv⟩ | ⟨-, hv⟩ | ⟨hending, hexcess, hv⟩⟩
  · rw [hv]
    trivial
  · rw [hv]
    trivial
  · obtain ⟨phase, hphase, run⟩ := exists_embed_phaseOneRun
      (ExtRat.not_neg_of_nonneg pivotTol) (Tableau.start p.numVars (allConstraints P p.box))
    rw [startTableau_embed hconstraints, hphase] at hending hexcess
    have bound : ∀ y, p.Feasible y → s.feasTol < slack s.pivotTol (p.extent y) := by
      intro y hy
      obtain ⟨hlength, hmeets⟩ := (m.feasible y).mp hy
      rw [extent_eq hconstraints hlength]
      exact ExtRat.lt_of_lt_of_num_le hexcess (run.excess_le m.proper pivotTol hending hmeets)
    rw [hv]
    refine ⟨bound, fun hzero y hy => ?_⟩
    have hlt := bound y hy
    rw [extent_eq hconstraints ((m.feasible y).mp hy).1, hzero, ExtRat.zero_eq,
      ExtRat.slack_num (by rw [zero_mul]), zero_mul] at hlt
    exact ExtRat.not_neg_of_nonneg feasTol hlt

/-- What phase two says. -/
theorem certified_of_phaseTwo (valid : p.validate = .ok ()) (wf : p.matrix.WellFormed)
    (pivotTol : 0 ≤ s.pivotTol) (nonempty : p.box.isEmpty = false) {u : Tableau ExtRat}
    (h : phaseOne s p.startTableau = .ok (u, spent)) :
    ((phaseTwo s p.objective u spent).verdict p.objective).Certified p s := by
  obtain ⟨P, c, regular, hP, hconstraints, m⟩ := exists_regular_models valid wf nonempty
  have hfinal : p.finalTableau? s = some (phaseTwo s p.objective u spent).tableau := by
    rw [finalTableau?, h]
  obtain ⟨N, t, phase, hN, hphase, run, hartificial, d, below⟩ :=
    m.exists_lastPhase hconstraints (ExtRat.not_neg_of_nonneg pivotTol) h
  rw [← hartificial, show phase.tableau.firstArtificial = _ from d.firstArtificial] at run
  have hending : phase.embed.ending = phase.ending := rfl
  rw [hphase] at hfinal ⊢
  rw [Phase.verdict, hending]
  cases hend : phase.ending with
  | pivotLimit => trivial
  | optimal =>
      refine ⟨_, hfinal, fun y hy => ?_⟩
      obtain ⟨hlength, hmeets⟩ := (m.feasible y).mp hy
      rw [extent_eq hconstraints hlength, m.value hlength hN]
      exact d.worth_le m.proper m.cost pivotTol (run.optimal hend) hmeets
  | unbounded =>
      intro hzero
      obtain ⟨j, hj⟩ := run.unbounded hend
      rw [hzero] at hj
      obtain ⟨x, nonneg, limits, improves⟩ := Tableau.exists_direction m.proper d (below hzero)
        ((Tableau.move_embed phase.tableau _).symm.trans hj)
      exact ⟨_, m.recession (accepted_of_validate valid) regular hP nonneg limits hN improves⟩

/-- **Every accepted program is given a verdict, and it is certified**: whatever the budget, the
tolerances that are not negative, and the ratio tests. -/
theorem solve_certified (valid : p.validate = .ok ()) (wf : p.matrix.WellFormed)
    (pivotTol : 0 ≤ s.pivotTol) (feasTol : 0 ≤ s.feasTol) :
    ∃ result, p.solve s = .ok result ∧ result.verdict.Certified p s := by
  refine ⟨_, solve_eq_ok valid, ?_⟩
  rcases p.optimum_cases s with ⟨empty, heq⟩ | ⟨nonempty, hone⟩ |
    ⟨nonempty, u, spent, hone, hverdict⟩
  · have none : ∀ y, ¬ p.Feasible y := fun y => not_feasible_of_isEmpty empty
    rw [heq]
    exact ⟨fun y hy => absurd hy (none y), fun _ => none⟩
  · exact certified_of_phaseOne valid wf pivotTol feasTol nonempty hone
  · rw [hverdict]
    exact certified_of_phaseTwo valid wf pivotTol nonempty hone

/-- At the segment, with the usual tolerances. -/
theorem solve_certified_segment :
    segment.validate = .ok () ∧ segment.matrix.WellFormed
      ∧ (0 : ExtRat) ≤ 1e-9
      ∧ ∃ result, segment.solve ⟨9, 1e-9, 1e-9⟩ = .ok result
        ∧ result.verdict.Certified segment ⟨9, 1e-9, 1e-9⟩ := by
  have valid : segment.validate = .ok () := by decide +kernel
  have wf : segment.matrix.WellFormed := by decide +kernel
  have tol : (0 : ExtRat) ≤ 1e-9 := by decide +kernel
  exact ⟨valid, wf, tol, solve_certified valid wf tol tol⟩

example : (segment.finalTableau? ⟨9, 1e-9, 1e-9⟩).map (·.objective.rhs) = some (num 3) := by
  decide +kernel

end IntegerProgramming.LinearProgram
