import Mathlib
import IntegerProgramming.Proofs.LinearProgram.Feasible
import IntegerProgramming.Proofs.LinearProgram.Outcomes

/-!
# Simplex — verdicts

What the method finds out about an accepted program, over exact numbers and without tolerances.
Both phases run as over the rationals, so their verdicts are those of the two phases there, provided
no ratio test of the run meets a near tie (`LinearProgram.NoNearTies`).

* `Verdict.Correct`: what each verdict says about the feasible points.
* `LinearProgram.phaseOne_cases`, `LinearProgram.Models.correct_phaseTwo`: the verdicts of the two
  phases.
* `LinearProgram.solve_correct`: **every accepted program is given a verdict, and it is correct**;
  in particular phase one does not find its objective unbounded.
-/

namespace IntegerProgramming.LinearProgram

open ExtRat (num innerProd)
open Tableau (Meets Ready worth)

/-! ### What a verdict says -/

/-- The point `θ y + (1 - θ) z`. -/
def mix (θ : ℚ) (y z : List ℚ) : List ℚ := List.zipWith (fun a b => θ * a + (1 - θ) * b) y z

/-- A feasible point that lies between no two others. -/
structure Extreme (p : LinearProgram ExtRat) (x : List ℚ) : Prop where
  feasible : p.Feasible x
  between : ∀ y z, p.Feasible y → p.Feasible z → ∀ θ, 0 < θ → θ < 1 → x = mix θ y z → y = x ∧ z = x

/-- What a verdict says about the feasible points.  A spent budget says nothing, and an error of the
method is never right. -/
def Verdict.Correct (p : LinearProgram ExtRat) : Verdict ExtRat → Prop
  | .optimal vertex objective =>
    ∃ x, vertex = nums x ∧ p.Extreme x ∧ objective = dot p.objective (nums x)
      ∧ ∀ y, p.Feasible y → dot p.objective (nums y) ≤ objective
  | .infeasible _ => ∀ x, ¬ p.Feasible x
  | .unbounded => ∀ m : ℚ, ∃ x, p.Feasible x ∧ num m < dot p.objective (nums x)
  | .pivotLimit => True
  | .numericalError => False

/-! ### Runs without near ties -/

/-- Phase two meets no near tie, if it is entered. -/
def Separates (s : Settings ExtRat) (c : List ExtRat) :
    Except (Result ExtRat) (Tableau ExtRat × ℕ) → Prop
  | .error _ => True
  | .ok (t, spent) =>
    Tableau.NoNearTies s.pivotTol t.firstArtificial (s.pivotLimit - spent) (t.withObjective c)

/-- No ratio test of the run meets two different ratios that count as equal. -/
def NoNearTies (p : LinearProgram ExtRat) (s : Settings ExtRat) : Prop :=
  p.box.isEmpty = false →
    (p.startTableau.hasArtificials = true →
      Tableau.NoNearTies s.pivotTol p.startTableau.columns s.pivotLimit
        p.startTableau.withArtificialObjective)
    ∧ Separates s p.objective (phaseOne s p.startTableau)

instance (s : Settings ExtRat) (c : List ExtRat) :
    (entered : Except (Result ExtRat) (Tableau ExtRat × ℕ)) → Decidable (Separates s c entered)
  | .error _ => inferInstanceAs (Decidable True)
  | .ok (t, spent) => inferInstanceAs (Decidable (Tableau.NoNearTies s.pivotTol t.firstArtificial
      (s.pivotLimit - spent) (t.withObjective c)))

instance (p : LinearProgram ExtRat) (s : Settings ExtRat) : Decidable (p.NoNearTies s) :=
  inferInstanceAs (Decidable (_ → _ ∧ _))

/-! ### Phase one -/

variable {n : ℕ} {cs : List (Constraint ℚ)} {limit : ℕ}

theorem phaseOneRun_embed (n : ℕ) (cs : List (Constraint ℚ)) (limit : ℕ) :
    phaseOneRun ⟨limit, 0, 0⟩ (Tableau.start n cs).embed
      = (Tableau.endOfPhaseOne n cs limit).embed := by
  rw [phaseOneRun, Tableau.withArtificialObjective_embed]
  exact Tableau.optimize_embed _ _ _

/-- Where phase two begins. -/
theorem exists_ready_of_phaseOne
    (sep : (Tableau.start n cs).hasArtificials = true → Tableau.PhaseOneSeparated n cs limit)
    {u : Tableau ExtRat} {spent : ℕ}
    (h : phaseOne ⟨limit, 0, 0⟩ (Tableau.start n cs).embed = .ok (u, spent)) :
    ∃ t, u = t.embed ∧ Ready n cs t := by
  rcases phaseOne_eq_ok h with ⟨hart, rfl, -⟩ | ⟨hart, -, hexcess, -, rfl⟩
  · exact ⟨_, rfl, Tableau.ready_start hart⟩
  · rw [phaseOneRun_embed] at hexcess ⊢
    refine ⟨_, Tableau.expelArtificials_embed _, Tableau.ready_of_no_excess (sep hart) ?_⟩
    exact fun hlt => hexcess (ExtRat.num_lt.mpr hlt)

/-- The ways in which phase one ends on rational data. -/
theorem phaseOne_cases (hcs : ∀ c ∈ cs, c.Proper n)
    (sep : (Tableau.start n cs).hasArtificials = true → Tableau.PhaseOneSeparated n cs limit) :
    (∃ spent, phaseOne ⟨limit, 0, 0⟩ (Tableau.start n cs).embed = .error ⟨.pivotLimit, spent⟩)
    ∨ (∃ why spent, phaseOne ⟨limit, 0, 0⟩ (Tableau.start n cs).embed
          = .error ⟨.infeasible why, spent⟩ ∧ ∀ x, ¬ Meets n cs x)
    ∨ ∃ t spent, phaseOne ⟨limit, 0, 0⟩ (Tableau.start n cs).embed = .ok (t.embed, spent)
        ∧ Ready n cs t := by
  cases h : phaseOne ⟨limit, 0, 0⟩ (Tableau.start n cs).embed with
  | ok entered =>
      obtain ⟨t, ht, ready⟩ := exists_ready_of_phaseOne sep h
      exact .inr (.inr ⟨t, entered.2, by rw [← ht], ready⟩)
  | error result =>
      obtain ⟨verdict, spent⟩ := result
      obtain ⟨hart, hcases⟩ := phaseOne_eq_error h
      rw [phaseOneRun_embed] at hcases
      rcases hcases with ⟨-, rfl⟩ | ⟨hending, -⟩ | ⟨hending, hexcess, rfl⟩
      · exact .inl ⟨spent, rfl⟩
      · exact absurd hending (Tableau.ending_phaseOne_ne_unbounded (sep hart))
      · exact .inr (.inl ⟨_, spent, rfl, fun x => Tableau.not_meets_of_excess hcs (sep hart) hending
          (ExtRat.num_lt.mp hexcess)⟩)

/-! ### Phase two -/

theorem innerProd_eq_worth {c x : List ℚ} {N : ℕ} (hx : x.length = c.length) (hN : c.length ≤ N) :
    innerProd c x = worth c N (x.getD · 0) := by
  induction c generalizing x N with
  | nil => simp [innerProd, worth]
  | cons a c ih =>
      obtain ⟨b, x, rfl⟩ := List.exists_cons_of_length_eq_add_one hx
      obtain ⟨N, rfl⟩ : ∃ M, N = M + 1 := ⟨N - 1, by rw [List.length_cons] at hN; omega⟩
      have hrest := ih (x := x) (N := N) (by simpa using hx) (by simpa using hN)
      rw [worth, Finset.sum_range_succ']
      simp only [List.getD_cons_succ, List.getD_cons_zero]
      rw [← worth, ← hrest, innerProd, innerProd, List.zipWith_cons_cons, List.sum_cons, add_comm]

theorem meets_congr {x y : ℕ → ℚ} (hcs : ∀ c ∈ cs, c.Proper n) (h : ∀ j < n, x j = y j) :
    Meets n cs x ↔ Meets n cs y := by
  have each (c : Constraint ℚ) (hc : c ∈ cs) : c.lhs x ≤ c.limit ↔ c.lhs y ≤ c.limit := by
    rw [Constraint.lhs_congr (hcs c hc) h]
  constructor
  · intro hx
    exact ⟨fun j hj => h j hj ▸ hx.nonneg j hj, fun c hc => (each c hc).mp (hx.limits c hc)⟩
  · intro hy
    exact ⟨fun j hj => h j hj ▸ hy.nonneg j hj, fun c hc => (each c hc).mpr (hy.limits c hc)⟩

/-- The first coordinates of a valuation. -/
def firstCoordinates (n : ℕ) (v : ℕ → ℚ) : List ℚ := (List.range n).map v

@[simp] theorem length_firstCoordinates (n : ℕ) (v : ℕ → ℚ) :
    (firstCoordinates n v).length = n := by simp [firstCoordinates]

theorem getD_firstCoordinates {v : ℕ → ℚ} {j : ℕ} (hj : j < n) :
    (firstCoordinates n v).getD j 0 = v j := by
  simp [firstCoordinates, hj]

/-- Two points with the same coordinates. -/
theorem eq_firstCoordinates {x : List ℚ} {v : ℕ → ℚ} (hx : x.length = n)
    (h : ∀ j < n, x.getD j 0 = v j) : x = firstCoordinates n v := by
  refine List.ext_getElem (by simpa using hx) fun j hj hj' => ?_
  rw [length_firstCoordinates] at hj'
  rw [← List.getD_eq_getElem _ 0 hj, ← List.getD_eq_getElem _ 0, getD_firstCoordinates hj', h j hj']

theorem getD_mix {θ : ℚ} {y z : List ℚ} (hy : y.length = n) (hz : z.length = n) {j : ℕ}
    (hj : j < n) : (mix θ y z).getD j 0 = θ * y.getD j 0 + (1 - θ) * z.getD j 0 := by
  have hmix : j < (mix θ y z).length := by simp [mix, hy, hz, hj]
  rw [List.getD_eq_getElem _ _ hmix, List.getD_eq_getElem _ _ (hy.symm ▸ hj),
    List.getD_eq_getElem _ _ (hz.symm ▸ hj)]
  exact List.getElem_zipWith

/-- The points of a program, as those that meet some constraints. -/
structure Models (p : LinearProgram ExtRat) (n : ℕ) (cs : List (Constraint ℚ)) (c : List ℚ) :
    Prop where
  objective : p.objective = nums c
  cost : c.length = n
  proper : ∀ c ∈ cs, c.Proper n
  feasible : ∀ x, p.Feasible x ↔ x.length = n ∧ Meets n cs (x.getD · 0)

variable {p : LinearProgram ExtRat} {c : List ℚ} {t : Tableau ℚ}

theorem Models.feasible_firstCoordinates (m : Models p n cs c) {v : ℕ → ℚ} (hv : Meets n cs v) :
    p.Feasible (firstCoordinates n v) :=
  (m.feasible _).mpr ⟨length_firstCoordinates n v,
    (meets_congr m.proper fun _ hj => getD_firstCoordinates hj).mpr hv⟩

/-- The objective of a program at a point. -/
theorem Models.value (m : Models p n cs c) {x : List ℚ} (hx : x.length = n) {N : ℕ} (hN : n ≤ N) :
    dot p.objective (nums x) = num (worth c N (x.getD · 0)) := by
  rw [m.objective, ← innerProd_eq_worth (hx.trans m.cost.symm) (m.cost.le.trans hN)]
  exact ExtRat.dot_map_num c x

theorem Models.value_firstCoordinates (m : Models p n cs c) (v : ℕ → ℚ) {N : ℕ} (hN : n ≤ N) :
    dot p.objective (nums (firstCoordinates n v)) = num (worth c N v) := by
  rw [m.value (length_firstCoordinates n v) hN]
  exact congrArg num (Tableau.worth_congr fun j hj => getD_firstCoordinates (m.cost ▸ hj))

/-- The basic solution at the end of phase two is an extreme point. -/
theorem Models.extreme_basicSolution (m : Models p n cs c) {u : Tableau ℚ}
    (w : (Tableau.start n cs).Rewrites u) (idle : u.Idle) :
    p.Extreme (firstCoordinates n u.basicSolution) where
  feasible := m.feasible_firstCoordinates (Tableau.meets_basicSolution m.proper w idle)
  between y z hy hz θ hθ hθ' hmix := by
    obtain ⟨hylength, hymeets⟩ := (m.feasible y).mp hy
    obtain ⟨hzlength, hzmeets⟩ := (m.feasible z).mp hz
    have hcoordinates : ∀ j < n,
        u.basicSolution j = θ * y.getD j 0 + (1 - θ) * z.getD j 0 := fun j hj => by
      rw [← getD_mix hylength hzlength hj, ← hmix, getD_firstCoordinates hj]
    have hyu := Tableau.eq_of_convex_combination m.proper w idle hymeets hzmeets hθ hθ' hcoordinates
    refine ⟨eq_firstCoordinates hylength hyu, eq_firstCoordinates hzlength fun j hj => ?_⟩
    -- what is left of the combination determines the other point
    have hsum := hcoordinates j hj
    rw [hyu j hj] at hsum
    have hproduct : (1 - θ) * (z.getD j 0 - u.basicSolution j) = 0 := by linarith
    have := (mul_eq_zero.mp hproduct).resolve_left (sub_pos.mpr hθ').ne'
    linarith

/-- **Phase two is right** from a tableau of phase one. -/
theorem Models.correct_phaseTwo (m : Models p n cs c) (r : Ready n cs t) {budget : ℕ}
    (sep : Tableau.PhaseTwoSeparated c t budget) :
    ((Tableau.endOfPhaseTwo c t budget).embed.verdict p.objective).Correct p := by
  obtain ⟨hstructural, hartificial, hcolumns⟩ := r.sizes
  obtain ⟨d, idle⟩ := r.endOfPhaseTwo m.cost sep
  have hn : n ≤ t.columns := by omega
  have optimal : (Tableau.endOfPhaseTwo c t budget).ending = .optimal → _ := move_of_ending_optimal
  have unbounded : (Tableau.endOfPhaseTwo c t budget).ending = .unbounded → _ :=
    move_of_ending_unbounded
  rw [← Tableau.endOfPhaseTwo, hartificial] at optimal unbounded
  set phase := Tableau.endOfPhaseTwo c t budget
  have hending : phase.embed.ending = phase.ending := rfl
  rw [Phase.verdict, hending]
  cases hend : phase.ending with
  | pivotLimit => trivial
  | unbounded =>
      obtain ⟨j, hj⟩ := unbounded hend
      intro bound
      obtain ⟨v, hv, hvalue⟩ := Tableau.exists_worth_gt_of_unbounded m.proper d idle hj bound
      refine ⟨firstCoordinates n v, m.feasible_firstCoordinates hv, ?_⟩
      rw [m.value_firstCoordinates v hn]
      exact ExtRat.num_lt.mpr hvalue
  | optimal =>
      have hvertex : phase.embed.tableau.vertex
          = nums (firstCoordinates n phase.tableau.basicSolution) := by
        have hsize : phase.tableau.structural = n := d.structural
        rw [firstCoordinates, ← hsize, ← d.basis.vertex_eq d.nonnegative]
        exact Tableau.vertex_embed phase.tableau
      refine ⟨firstCoordinates n phase.tableau.basicSolution, hvertex,
        m.extreme_basicSolution d.toRewrites idle, congrArg _ hvertex, fun y hy => ?_⟩
      obtain ⟨hylength, hymeets⟩ := (m.feasible y).mp hy
      rw [hvertex, m.value_firstCoordinates _ hn, m.value hylength hn, ExtRat.num_le]
      exact Tableau.worth_le_of_optimal m.proper m.cost d (optimal hend) hymeets

/-! ### Both phases -/

/-- The constraints of an accepted program come from a program over the rationals. -/
theorem exists_regular_models (valid : p.validate = .ok ()) (wf : p.matrix.WellFormed)
    (nonempty : p.box.isEmpty = false) :
    ∃ P c, P.Regular ∧ p.program = P.embed
      ∧ p.constraints = (allConstraints P p.box).map Constraint.embed
      ∧ p.Models p.numVars (allConstraints P p.box) c := by
  obtain ⟨P, regular, hP, hconstraints, proper, feasible⟩ :=
    exists_constraints valid wf nonempty
  obtain ⟨c, hobjective⟩ := (accepted_of_validate valid).exists_objective
  refine ⟨P, c, regular, hP, hconstraints, hobjective, ?_, proper, feasible⟩
  rw [numVars, hobjective, length_nums]

theorem exists_models (valid : p.validate = .ok ()) (wf : p.matrix.WellFormed)
    (nonempty : p.box.isEmpty = false) :
    ∃ cs c, p.constraints = cs.map Constraint.embed ∧ p.Models p.numVars cs c := by
  obtain ⟨P, c, -, -, hconstraints, m⟩ := exists_regular_models valid wf nonempty
  exact ⟨_, c, hconstraints, m⟩

/-- **The verdict is correct**, whatever the budget, at tolerance zero and unless a ratio test takes
two different ratios for equal. -/
theorem correct_optimum {s : Settings ExtRat} (valid : p.validate = .ok ())
    (wf : p.matrix.WellFormed) (pivotTol : s.pivotTol = 0) (feasTol : s.feasTol = 0)
    (sep : p.NoNearTies s) : (p.optimum s).verdict.Correct p := by
  obtain ⟨limit, tol, tol'⟩ := s
  obtain rfl : tol = 0 := pivotTol
  obtain rfl : tol' = 0 := feasTol
  rw [optimum]
  split
  · rename_i empty
    exact fun x => not_feasible_of_isEmpty empty
  rename_i hbox
  have nonempty : p.box.isEmpty = false := Bool.not_eq_true _ ▸ hbox
  obtain ⟨cs, c, hconstraints, m⟩ := exists_models valid wf nonempty
  obtain ⟨sepOne, sepTwo⟩ := sep nonempty
  -- from here on both phases run over the rationals
  rw [startTableau_embed hconstraints] at sepOne sepTwo ⊢
  rw [Tableau.withArtificialObjective_embed] at sepOne
  rcases phaseOne_cases m.proper fun h => Tableau.noNearTies_embed_iff.mp (sepOne h) with
    ⟨spent, h⟩ | ⟨why, spent, h, hempty⟩ | ⟨t, spent, h, ready⟩
  · rw [h]
    trivial
  · rw [h]
    exact fun x hx => hempty _ ((m.feasible x).mp hx).2
  · rw [h] at sepTwo ⊢
    have hobjective : t.embed.withObjective p.objective = (t.withObjective c).embed := by
      rw [m.objective, Tableau.withObjective_embed]
    have hphase : phaseTwo ⟨limit, 0, 0⟩ p.objective t.embed spent
        = (Tableau.endOfPhaseTwo c t (limit - spent)).embed := by
      rw [phaseTwo, hobjective]
      exact Tableau.optimize_embed _ _ _
    simp only [hphase]
    rw [Separates, hobjective] at sepTwo
    exact m.correct_phaseTwo ready (Tableau.noNearTies_embed_iff.mp sepTwo)

/-- **Every accepted program is given a verdict, and it is correct**: at tolerance zero, whatever
the budget, unless a ratio test takes two different ratios for equal. -/
theorem solve_correct {s : Settings ExtRat} (valid : p.validate = .ok ()) (wf : p.matrix.WellFormed)
    (pivotTol : s.pivotTol = 0) (feasTol : s.feasTol = 0) (sep : p.NoNearTies s) :
    ∃ result, p.solve s = .ok result ∧ result.verdict.Correct p :=
  ⟨_, solve_eq_ok valid, correct_optimum valid wf pivotTol feasTol sep⟩

/-- Maximise `x + 2y` on the segment `x + y = 2`, `x ≥ 1`, `y ≥ 0`. -/
def segment : LinearProgram ExtRat where
  objective := [num 1, num 2]
  matrix := .ofEntries 2 [[(0, num 1), (1, num 1)], [(0, num (-1)), (1, num (-1))]]
  limits := [num 2, num (-2)]
  box := ⟨[num 1, num 0], [infinity, infinity]⟩

/-- At the segment, which needs two artificial variables. -/
theorem solve_correct_segment :
    segment.validate = .ok () ∧ segment.matrix.WellFormed ∧ segment.NoNearTies ⟨9, 0, 0⟩
      ∧ ∃ result, segment.solve ⟨9, 0, 0⟩ = .ok result ∧ result.verdict.Correct segment := by
  have valid : segment.validate = .ok () := by decide +kernel
  have wf : segment.matrix.WellFormed := by decide +kernel
  have sep : segment.NoNearTies ⟨9, 0, 0⟩ := by decide +kernel
  exact ⟨valid, wf, sep, solve_correct valid wf rfl rfl sep⟩

example : segment.optimum ⟨9, 0, 0⟩ = ⟨.optimal [num 1, num 1] (num 3), 3⟩ := by decide +kernel

end IntegerProgramming.LinearProgram
