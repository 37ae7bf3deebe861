import Mathlib
import IntegerProgramming.Proofs.LinearProgram.Start

/-!
# Simplex — the two phases over the rationals

What the two phases find out about the points `x ≥ 0` that satisfy some constraints (`Meets`).

Phase one maximises the negated sum of the artificial variables.  The sum is not negative, so the
phase is not unbounded (`ending_phaseOne_ne_unbounded`); if its least value is positive no point
satisfies the constraints (`not_meets_of_excess`), and otherwise every artificial variable is zero
at the basic solution (`drained_of_no_excess`).

Phase two ends at a vertex or a ray.

* `meets_basicSolution`, `worth_le_of_optimal`, `eq_of_convex_combination`: **the basic solution
  satisfies the constraints, no other point has a greater objective, and it lies between no two
  others.**
* `exists_worth_gt_of_unbounded`: **along the ray the objective exceeds every number.**
-/

namespace IntegerProgramming.LinearProgram.Tableau

variable {n : ℕ} {cs : List (Constraint ℚ)} {c : List ℚ} {t : Tableau ℚ} {x : ℕ → ℚ} {budget : ℕ}

/-- The first `n` coordinates are not negative, and the constraints are satisfied. -/
structure Meets (n : ℕ) (cs : List (Constraint ℚ)) (x : ℕ → ℚ) : Prop where
  nonneg : ∀ j < n, 0 ≤ x j
  limits : ∀ c ∈ cs, c.lhs x ≤ c.limit

theorem Meets.withSlacks_nonneg (h : Meets n cs x) (j : ℕ) : 0 ≤ withSlacks n cs x j :=
  Tableau.withSlacks_nonneg h.nonneg h.limits j

/-! ### Phase one -/

theorem firstArtificial_le_columns_start (n : ℕ) (cs : List (Constraint ℚ)) :
    (start n cs).firstArtificial ≤ (start n cs).columns :=
  Nat.le_add_right _ _

/-- The end of phase one. -/
def endOfPhaseOne (n : ℕ) (cs : List (Constraint ℚ)) (budget : ℕ) : Phase ℚ :=
  (start n cs).withArtificialObjective.optimize 0 (start n cs).columns budget

/-- No ratio test of phase one meets a near tie. -/
abbrev PhaseOneSeparated (n : ℕ) (cs : List (Constraint ℚ)) (budget : ℕ) : Prop :=
  NoNearTies 0 (start n cs).columns budget (start n cs).withArtificialObjective

theorem dictionary_endOfPhaseOne (sep : PhaseOneSeparated n cs budget) :
    Dictionary (start n cs) (fun v => -(start n cs).artificialSum v)
      (endOfPhaseOne n cs budget).tableau :=
  ((rewrites_start n cs).withArtificialObjective
    (firstArtificial_le_columns_start n cs)).optimize sep

theorem artificialSum_nonneg {v : ℕ → ℚ} (hv : ∀ k, 0 ≤ v k) : 0 ≤ t.artificialSum v :=
  Finset.sum_nonneg fun k _ => by split <;> [exact hv k; exact le_rfl]

theorem artificialSum_withSlacks : (start n cs).artificialSum (withSlacks n cs x) = 0 :=
  Finset.sum_eq_zero fun k _ => by
    split
    · rename_i hk
      exact withSlacks_artificial hk
    · rfl

/-- The objective of phase one is bounded. -/
theorem ending_phaseOne_ne_unbounded (sep : PhaseOneSeparated n cs budget) :
    (endOfPhaseOne n cs budget).ending ≠ .unbounded := by
  intro h
  obtain ⟨j, hj⟩ := move_of_ending_unbounded h
  have d := dictionary_endOfPhaseOne sep
  obtain ⟨θ, hθ, hvalue⟩ := d.exists_value_gt hj 0
  obtain ⟨-, -, -, hray⟩ := d.value_ray_of_unbounded hj
  have := artificialSum_nonneg (t := start n cs) (hray θ hθ).2.1
  linarith

/-- If the artificial variables cannot all be zero, no point satisfies the constraints. -/
theorem not_meets_of_excess (hcs : ∀ c ∈ cs, c.Proper n) (sep : PhaseOneSeparated n cs budget)
    (h : (endOfPhaseOne n cs budget).ending = .optimal)
    (excess : 0 < -(endOfPhaseOne n cs budget).tableau.objective.rhs) : ¬ Meets n cs x := by
  intro hx
  have d := dictionary_endOfPhaseOne sep
  have hsolves := (d.solves _).mpr (solves_withSlacks hcs x)
  have hle := d.value_le_of_optimal (move_of_ending_optimal h) hsolves hx.withSlacks_nonneg
    fun k hk hk' => absurd (d.columns ▸ hk') (not_lt.mpr hk)
  rw [artificialSum_withSlacks] at hle
  linarith

/-- If they can, they are zero at the basic solution. -/
theorem drained_of_no_excess (sep : PhaseOneSeparated n cs budget)
    (excess : ¬ 0 < -(endOfPhaseOne n cs budget).tableau.objective.rhs) :
    (endOfPhaseOne n cs budget).tableau.Drained := by
  have d := dictionary_endOfPhaseOne sep
  set u := (endOfPhaseOne n cs budget).tableau
  have hvalue := d.value_basicSolution
  have nonneg := d.basis.basicSolution_nonneg d.nonnegative
  have hsum : (start n cs).artificialSum u.basicSolution = 0 :=
    le_antisymm (by linarith) (artificialSum_nonneg nonneg)
  intro row hrow hart
  have hterms := (Finset.sum_eq_zero_iff_of_nonneg fun k _ => by
    split <;> [exact nonneg k; exact le_rfl]).mp hsum row.basic
      (Finset.mem_range.mpr (d.columns ▸ d.basis.basic row hrow))
  rwa [if_pos (d.firstArtificial ▸ hart), d.basis.basicSolution_basic hrow] at hterms

/-- **A tableau to begin phase two with.**  It rewrites the start, and rows with an artificial basic
variable are idle. -/
structure Ready (n : ℕ) (cs : List (Constraint ℚ)) (t : Tableau ℚ) : Prop where
  rewrites : Rewrites (start n cs) t
  idle : t.Idle

theorem ready_of_no_excess (sep : PhaseOneSeparated n cs budget)
    (excess : ¬ 0 < -(endOfPhaseOne n cs budget).tableau.objective.rhs) :
    Ready n cs ((endOfPhaseOne n cs budget).tableau.expelArtificials 0) := by
  have d := dictionary_endOfPhaseOne sep
  obtain ⟨hw, hidle⟩ := d.toRewrites.expelArtificials (firstArtificial_le_columns_start n cs)
    (drained_of_no_excess sep excess)
  exact ⟨hw, hidle⟩

/-- Without artificial variables the start itself will do. -/
theorem ready_start (h : (start n cs).hasArtificials = false) : Ready n cs (start n cs) where
  rewrites := rewrites_start n cs
  idle row hrow hart := by
    have := (basis_start n cs).basic row hrow
    rw [hasArtificials, decide_eq_false_iff_not] at h
    omega

/-! ### Phase two -/

/-- The end of phase two from a tableau. -/
def endOfPhaseTwo (c : List ℚ) (t : Tableau ℚ) (budget : ℕ) : Phase ℚ :=
  (t.withObjective c).optimize 0 t.firstArtificial budget

/-- No ratio test of phase two meets a near tie. -/
abbrev PhaseTwoSeparated (c : List ℚ) (t : Tableau ℚ) (budget : ℕ) : Prop :=
  NoNearTies 0 t.firstArtificial budget (t.withObjective c)

theorem Ready.sizes (r : Ready n cs t) :
    t.structural = n ∧ t.firstArtificial = n + cs.length ∧ n + cs.length ≤ t.columns := by
  refine ⟨r.rewrites.structural, r.rewrites.firstArtificial, ?_⟩
  rw [r.rewrites.columns]
  exact firstArtificial_le_columns_start n cs

/-- **Phase two keeps idle rows idle.** -/
theorem Ready.endOfPhaseTwo (r : Ready n cs t) (hc : c.length = n)
    (sep : PhaseTwoSeparated c t budget) :
    Dictionary (start n cs) (worth c t.columns) (endOfPhaseTwo c t budget).tableau
      ∧ (endOfPhaseTwo c t budget).tableau.Idle := by
  obtain ⟨hstructural, hartificial, hcolumns⟩ := r.sizes
  have d := r.rewrites.withObjective (hc.trans hstructural.symm) (by omega)
  refine optimize_invariant
    (I := fun u => Dictionary (start n cs) (worth c t.columns) u ∧ u.Idle) ?_ sep ⟨d, r.idle⟩
  rintro u j candidate ⟨du, idle⟩ hj hcandidate hsep
  obtain ⟨row, hrow, -, -⟩ := leaving?_eq_some hcandidate
  refine ⟨du.step hcandidate hsep, idle.pivot du.basis hrow ?_⟩
  rw [du.firstArtificial, ← r.rewrites.firstArtificial]
  exact (du.entering hj).1

/-- The objective of a point with its slacks is that of the point. -/
theorem worth_congr {N : ℕ} {v w : ℕ → ℚ} (h : ∀ j < c.length, v j = w j) :
    worth c N v = worth c N w := by
  refine Finset.sum_congr rfl fun k _ => ?_
  rcases lt_or_ge k c.length with hk | hk
  · rw [h k hk]
  · rw [List.getD_eq_default _ _ hk, zero_mul, zero_mul]

section Solution

variable {u : Tableau ℚ} {value : (ℕ → ℚ) → ℚ}

/-- A solution of the start without artificial variables meets the constraints. -/
theorem meets_of_solves (hcs : ∀ c ∈ cs, c.Proper n) (zero : ∀ j, n + cs.length ≤ j → x j = 0)
    (nonneg : ∀ j, 0 ≤ x j) (h : (start n cs).Solves x) : Meets n cs x :=
  ⟨fun j _ => nonneg j, lhs_le_of_solves hcs zero nonneg h⟩

/-- **The basic solution satisfies the constraints.** -/
theorem meets_basicSolution (hcs : ∀ c ∈ cs, c.Proper n) (w : Rewrites (start n cs) u)
    (idle : u.Idle) : Meets n cs u.basicSolution :=
  meets_of_solves hcs
    (fun _ hj => idle.basicSolution_eq_zero w.basis (w.firstArtificial.symm ▸ hj))
    (w.basis.basicSolution_nonneg w.nonnegative) ((w.solves _).mp w.basis.solves_basicSolution)

/-- **The basic solution has the greatest objective** where no column improves it. -/
theorem worth_le_of_optimal (hcs : ∀ c ∈ cs, c.Proper n) (hc : c.length = n) {N : ℕ}
    (d : Dictionary (start n cs) (worth c N) u)
    (h : u.move 0 (n + cs.length) = .optimal) (hx : Meets n cs x) :
    worth c N x ≤ worth c N u.basicSolution := by
  have hsolves := (d.solves _).mpr (solves_withSlacks hcs x)
  have hle := d.value_le_of_optimal h hsolves hx.withSlacks_nonneg
    fun k hk _ => withSlacks_artificial hk
  rw [worth_congr fun j hj => withSlacks_of_lt (hc ▸ hj)] at hle
  rwa [d.value_basicSolution]

/-- **The basic solution lies between no two other points.** -/
theorem eq_of_convex_combination (hcs : ∀ c ∈ cs, c.Proper n) (w : Rewrites (start n cs) u)
    (idle : u.Idle) {y z : ℕ → ℚ} (hy : Meets n cs y) (hz : Meets n cs z) {θ : ℚ} (hθ : 0 < θ)
    (hθ' : θ < 1) (h : ∀ j < n, u.basicSolution j = θ * y j + (1 - θ) * z j) :
    ∀ j < n, y j = u.basicSolution j := by
  set Y := withSlacks n cs y
  set Z := withSlacks n cs z
  set W : ℕ → ℚ := fun j => θ * Y j + (1 - θ) * Z j
  have hβ := (w.solves _).mp w.basis.solves_basicSolution
  have hYsolves := solves_withSlacks hcs y
  have hZsolves := solves_withSlacks hcs z
  have zeroβ : ∀ j, n + cs.length ≤ j → u.basicSolution j = 0 := fun j hj =>
    idle.basicSolution_eq_zero w.basis (w.firstArtificial.symm ▸ hj)
  have zeroW : ∀ j, n + cs.length ≤ j → W j = 0 := fun j hj => by
    simp only [W, Y, Z, withSlacks_artificial hj, mul_zero, add_zero]
  have hWsolves : (start n cs).Solves W := fun row hrow => by
    rw [Equation.Holds, Equation.lhs_combination, hYsolves row hrow, hZsolves row hrow]
    ring
  -- the combination of the two solutions is the basic solution, slacks included
  have hW := eq_of_solves_start hcs hWsolves hβ zeroW zeroβ fun j hj => by
    simp only [W, Y, Z, withSlacks_of_lt hj, h j hj]
  have hYu : ∀ k < u.columns, Y k = u.basicSolution k := by
    refine fun k hk => w.basis.eq_basicSolution ((w.solves _).mpr hYsolves) (fun k _ hnon => ?_) hk
    have hsum := (hW k).trans (basicSolution_nonbasic hnon)
    have hYk := hy.withSlacks_nonneg k
    have hZk := mul_nonneg (sub_nonneg.mpr hθ'.le) (hz.withSlacks_nonneg k)
    have hprod : θ * Y k = 0 := le_antisymm (by linarith) (mul_nonneg hθ.le hYk)
    exact (mul_eq_zero.mp hprod).resolve_left hθ.ne'
  intro j hj
  have hcolumns : j < u.columns := by
    rw [w.columns, columns_start]
    omega
  rw [← hYu j hcolumns]
  exact (withSlacks_of_lt hj).symm

/-- **Along the ray the objective exceeds every number** if no row limits the improving column. -/
theorem exists_worth_gt_of_unbounded (hcs : ∀ c ∈ cs, c.Proper n) {N j : ℕ}
    (d : Dictionary (start n cs) (worth c N) u) (idle : u.Idle)
    (h : u.move 0 (n + cs.length) = .unbounded j) (m : ℚ) :
    ∃ x, Meets n cs x ∧ m < worth c N x := by
  obtain ⟨hlimit, -, -, hray⟩ := d.value_ray_of_unbounded h
  obtain ⟨θ, hθ, hgreater⟩ := d.exists_value_gt h m
  obtain ⟨hsolves, hnonneg, -⟩ := hray θ hθ
  refine ⟨u.ray j θ, meets_of_solves hcs (fun k hk => ?_) hnonneg ((d.solves _).mp hsolves),
    hgreater⟩
  have hfirst : u.firstArtificial = n + cs.length := d.firstArtificial
  exact idle.ray_eq_zero d.basis (hfirst.symm ▸ hlimit) θ (hfirst.symm ▸ hk)

end Solution

end IntegerProgramming.LinearProgram.Tableau
