import Mathlib
import IntegerProgramming.Relaxation
import IntegerProgramming.Proofs.LinearProgram.Feasible
import IntegerProgramming.Proofs.LinearProgram.Outcomes

/-!
# Simplex — the vertices that are reported

What every reported vertex is like, whatever the tolerances and the budget: it has a coordinate for
each variable, and none is negative (`LinearProgram.vertex_of_optimum`).  If the tolerance for
pivots is not negative, no pivot divides by zero, and the tableaus stay rational; so do the vertices
(`LinearProgram.exists_nums_vertex`).

* `Tableau.exists_embed_optimize`, `Tableau.exists_embed_expelArtificials`: **a rational tableau
  stays rational.**
* `Tableau.exists_phaseFrom`: a phase makes exchanges only, and its last tableau has the move that
  it ended for.
* `askSimplex_optimal`: an optimal answer is the optimum of a linear program over the box.
-/

namespace IntegerProgramming

open ExtRat (num)

namespace ExtRat

theorem zero_le_greater (a : ExtRat) : 0 ≤ greater a 0 :=
  num_le_greater_iff.mpr (.inr (num_le.mpr le_rfl))

end ExtRat

namespace LinearProgram

namespace Tableau

section Arith

variable {α : Type} [Arith α]

/-! ### Sizes -/

theorem structural_optimize (tol : α) (limit budget : ℕ) (t : Tableau α) :
    (t.optimize tol limit budget).tableau.structural = t.structural :=
  (pivots_optimize tol limit budget t).invariant (P := fun u => u.structural = t.structural)
    (fun u r j hu _ => (structural_pivot u r j).trans hu) rfl

theorem structural_expel (tol : α) (t : Tableau α) (r : ℕ) :
    (expel tol t r).structural = t.structural := by
  rw [expel]
  split
  · rfl
  · split
    · split
      · rfl
      · exact structural_pivot t r _
    · rfl

theorem structural_expelArtificials (tol : α) (t : Tableau α) :
    (t.expelArtificials tol).structural = t.structural := by
  rw [expelArtificials]
  generalize List.range t.rows.length = positions
  induction positions generalizing t with
  | nil => rfl
  | cons r rest ih => rw [List.foldl_cons, ih, structural_expel]

end Arith

/-- No coordinate of a vertex is negative. -/
theorem nonneg_of_mem_vertex (t : Tableau ExtRat) : ∀ a ∈ t.vertex, 0 ≤ a := by
  have step (rows : List (Row ExtRat)) (x : List ExtRat) (hx : ∀ a ∈ x, 0 ≤ a) :
      ∀ a ∈ rows.foldl (fun x row => if row.basic < t.structural
        then x.set row.basic (greater row.equation.rhs 0) else x) x, 0 ≤ a := by
    induction rows generalizing x with
    | nil => exact hx
    | cons row rest ih =>
        rw [List.foldl_cons]
        refine ih _ ?_
        split
        · intro a ha
          rcases List.mem_or_eq_of_mem_set ha with ha | rfl
          · exact hx a ha
          · exact ExtRat.zero_le_greater _
        · exact hx
  refine step t.rows _ fun a ha => ?_
  rw [List.eq_of_mem_replicate ha]
  exact ExtRat.num_le.mpr le_rfl

/-! ### Rational tableaus -/

variable {t : Tableau ℚ} {tol : ExtRat} {limit r j : ℕ}

/-- The method pivots in an allowed column, at a coefficient other than zero. -/
theorem exists_row_of_move (htol : ¬ tol < 0) (h : t.embed.move tol limit = .pivot r j) :
    j < limit ∧ ∃ row, t.rows[r]? = some row ∧ row.equation.coeff j ≠ 0 := by
  obtain ⟨hj, c, hc, rfl⟩ := move_eq_pivot h
  obtain ⟨row', hrow', hcoeff, -⟩ := leaving?_eq_some hc
  obtain ⟨hlimit, o, -, ho⟩ := entering?_eq_some hj
  rw [getElem?_rows_embed, Option.map_eq_some_iff] at hrow'
  obtain ⟨row, hrow, rfl⟩ := hrow'
  refine ⟨hlimit, row, hrow, fun hzero => ?_⟩
  have hcoeff' : row.embed.equation.coeff j = 0 := by
    rw [Row.embed, Equation.coeff_embed, hzero]
    rfl
  rw [hcoeff'] at hcoeff
  -- a zero exceeds a tolerance only if that is negative or undefined, and with an undefined one no
  -- column enters
  cases tol with
  | num q =>
      exact hcoeff (ExtRat.num_le.mpr (not_lt.mp fun hq => htol (ExtRat.num_lt.mpr hq)))
  | posInf => exact hcoeff (ExtRat.num_le_posInf 0)
  | negInf => exact htol (ExtRat.negInf_lt_num 0)
  | undef => exact ExtRat.not_lt_undef o ho

theorem pivot_embed_of_row {row : Row ℚ} (hrow : t.rows[r]? = some row)
    (hj : row.equation.coeff j ≠ 0) : t.embed.pivot r j = (t.pivot r j).embed :=
  pivot_embed fun _ hother => Option.some.inj (hrow.symm.trans hother) ▸ hj

/-- **A phase keeps a rational tableau rational**, unless its tolerance is negative: its pivots are
exchanges. -/
theorem exists_embed_optimize (htol : ¬ tol < 0) (limit budget : ℕ) (t : Tableau ℚ) :
    ∃ phase : Phase ℚ, t.embed.optimize tol limit budget = phase.embed
      ∧ Exchanges limit t phase.tableau := by
  induction budget generalizing t with
  | zero =>
      rw [optimize]
      split
      · exact ⟨⟨.optimal, 0, t⟩, rfl, .refl t⟩
      · exact ⟨⟨.pivotLimit, 0, t⟩, rfl, .refl t⟩
  | succ budget ih =>
      rw [optimize]
      split
      · exact ⟨⟨.optimal, 0, t⟩, rfl, .refl t⟩
      · exact ⟨⟨.unbounded, 0, t⟩, rfl, .refl t⟩
      · rename_i r j hmove
        obtain ⟨hlimit, row, hrow, hj⟩ := exists_row_of_move htol hmove
        obtain ⟨phase, hphase, run⟩ := ih (t.pivot r j)
        rw [pivot_embed_of_row hrow hj, hphase]
        exact ⟨phase.afterPivot, rfl, .step hrow hj hlimit run⟩

/-- A phase that leads by exchanges to a tableau at which it ends as it says. -/
structure PhaseFrom (tol : ExtRat) (limit : ℕ) (t : Tableau ℚ) (phase : Phase ℚ) : Prop where
  exchanges : Exchanges limit t phase.tableau
  optimal : phase.ending = .optimal → phase.tableau.embed.entering? tol limit = none
  unbounded : phase.ending = .unbounded →
    ∃ j, phase.tableau.embed.move tol limit = .unbounded j

theorem exists_phaseFrom (htol : ¬ tol < 0) (limit budget : ℕ) (t : Tableau ℚ) :
    ∃ phase : Phase ℚ, t.embed.optimize tol limit budget = phase.embed
      ∧ PhaseFrom tol limit t phase := by
  obtain ⟨phase, hphase, run⟩ := exists_embed_optimize htol limit budget t
  have ending : (t.embed.optimize tol limit budget).ending = phase.ending :=
    congrArg Phase.ending hphase
  refine ⟨phase, hphase, run, fun h => ?_, fun h => ?_⟩
  · have hmove := move_of_ending_optimal (ending.trans h)
    rw [hphase] at hmove
    exact move_eq_optimal_iff.mp hmove
  · have hmove := move_of_ending_unbounded (ending.trans h)
    rwa [hphase] at hmove

theorem exists_embed_expel (htol : ¬ tol < 0) (t : Tableau ℚ) (r : ℕ) :
    ∃ u : Tableau ℚ, expel tol t.embed r = u.embed ∧ Exchanges t.firstArtificial t u := by
  rw [expel, getElem?_rows_embed]
  cases hrow : t.rows[r]? with
  | none => exact ⟨t, rfl, .refl t⟩
  | some row =>
      simp only [Option.map_some]
      split
      · split
        · exact ⟨t, rfl, .refl t⟩
        · rename_i j hfind
          obtain ⟨hj, hcoeff, -⟩ := List.findIdx?_eq_some_iff_getElem.mp hfind
          rw [List.length_take] at hj
          rw [List.getElem_take, decide_eq_true_eq] at hcoeff
          have hne : row.equation.coeff j ≠ 0 := fun hzero => htol <| by
            have hentry : row.embed.equation.coeffs[j] = 0 := by
              rw [← List.getD_eq_getElem _ 0 (by omega)]
              exact (Equation.coeff_embed row.equation j).trans (congrArg num hzero)
            rw [hentry] at hcoeff
            exact hcoeff
          have hlimit : j < t.firstArtificial := lt_of_lt_of_le hj (min_le_left _ _)
          exact ⟨t.pivot r j, pivot_embed_of_row hrow hne, .step hrow hne hlimit (.refl _)⟩
      · exact ⟨t, rfl, .refl t⟩

theorem exists_embed_expelArtificials (htol : ¬ tol < 0) (t : Tableau ℚ) :
    ∃ u : Tableau ℚ, t.embed.expelArtificials tol = u.embed
      ∧ Exchanges t.firstArtificial t u := by
  rw [expelArtificials]
  generalize List.range t.embed.rows.length = positions
  induction positions generalizing t with
  | nil => exact ⟨t, rfl, .refl t⟩
  | cons r rest ih =>
      obtain ⟨u, hu, first⟩ := exists_embed_expel htol t r
      obtain ⟨w, hw, second⟩ := ih u
      rw [first.firstArtificial] at second
      rw [List.foldl_cons, hu]
      exact ⟨w, hw, first.trans second⟩

end Tableau

/-! ### The optimum of a program -/

section Sizes

variable {α : Type} [Scalar α] {p : LinearProgram α} {s : Settings α} {v : List α} {objective : α}

theorem structural_phaseOne {t u : Tableau α} {spent : ℕ} (h : phaseOne s t = .ok (u, spent)) :
    u.structural = t.structural := by
  rcases phaseOne_eq_ok h with ⟨-, rfl, -⟩ | ⟨-, -, -, -, rfl⟩
  · rfl
  · rw [Tableau.structural_expelArtificials, phaseOneRun, Tableau.structural_optimize]
    rfl

/-- A reported vertex has a coordinate for each variable. -/
theorem length_of_optimum (h : (p.optimum s).verdict = .optimal v objective) :
    v.length = p.numVars := by
  obtain ⟨-, t, spent, hone, rfl⟩ := optimum_eq_optimal h
  rw [Tableau.length_vertex, phaseTwo, Tableau.structural_optimize]
  exact structural_phaseOne hone

end Sizes

variable {p : LinearProgram ExtRat} {s : Settings ExtRat} {v : List ExtRat} {objective : ExtRat}

/-- **A reported vertex** has a coordinate for each variable, and none is negative. -/
theorem vertex_of_optimum (h : (p.optimum s).verdict = .optimal v objective) :
    v.length = p.numVars ∧ ∀ a ∈ v, 0 ≤ a := by
  refine ⟨length_of_optimum h, ?_⟩
  obtain ⟨-, t, spent, -, rfl⟩ := optimum_eq_optimal h
  exact Tableau.nonneg_of_mem_vertex _

/-- A phase one that starts at a rational tableau. -/
theorem exists_embed_phaseOneRun (htol : ¬ s.pivotTol < 0) (t : Tableau ℚ) :
    ∃ phase : Phase ℚ, phaseOneRun s t.embed = phase.embed
      ∧ Tableau.PhaseFrom s.pivotTol t.columns t.withArtificialObjective phase := by
  rw [phaseOneRun, Tableau.withArtificialObjective_embed]
  exact Tableau.exists_phaseFrom htol t.columns s.pivotLimit t.withArtificialObjective

theorem exists_embed_phaseOne (htol : ¬ s.pivotTol < 0) {t : Tableau ℚ} {u : Tableau ExtRat}
    {spent : ℕ} (h : phaseOne s t.embed = .ok (u, spent)) : ∃ w : Tableau ℚ, u = w.embed := by
  rcases phaseOne_eq_ok h with ⟨-, rfl, -⟩ | ⟨-, -, -, -, rfl⟩
  · exact ⟨t, rfl⟩
  · obtain ⟨phase, hphase, -⟩ := exists_embed_phaseOneRun htol t
    obtain ⟨w, hw, -⟩ := Tableau.exists_embed_expelArtificials htol phase.tableau
    exact ⟨w, by rw [hphase]; exact hw⟩

/-- **A reported vertex is rational**, unless the tolerance for pivots is negative. -/
theorem exists_nums_vertex (valid : p.validate = .ok ()) (wf : p.matrix.WellFormed)
    (htol : ¬ s.pivotTol < 0) (h : (p.optimum s).verdict = .optimal v objective) :
    ∃ x, v = nums x := by
  obtain ⟨nonempty, t, spent, hone, rfl⟩ := optimum_eq_optimal h
  -- the start is rational, and so is every tableau that the two phases come to
  obtain ⟨P, -, -, hconstraints, -, -⟩ := exists_constraints valid wf nonempty
  obtain ⟨c, hobjective⟩ := (accepted_of_validate valid).exists_objective
  rw [startTableau_embed hconstraints] at hone
  obtain ⟨w, rfl⟩ := exists_embed_phaseOne htol hone
  obtain ⟨phase, hphase, -⟩ := Tableau.exists_embed_optimize htol w.embed.firstArtificial
    (s.pivotLimit - spent) (w.withObjective c)
  rw [phaseTwo, hobjective, Tableau.withObjective_embed, hphase]
  exact ⟨phase.tableau.vertex, Tableau.vertex_embed phase.tableau⟩

end LinearProgram

/-! ### Answers of the simplex oracle -/

theorem Relaxation.ofVerdict_eq_optimal {α : Type} {verdict : LinearProgram.Verdict α} {bound : α}
    {v : List α} (h : ofVerdict verdict = .optimal bound v) : verdict = .optimal v bound := by
  cases verdict with
  | optimal x value => cases h; rfl
  | infeasible | unbounded | pivotLimit | numericalError => cases h

/-- The linear program of a subproblem has its data, and is accepted. -/
theorem Subproblem.linearProgram_eq_ok {sub : Subproblem ExtRat} {box : Box ExtRat}
    {q : LinearProgram ExtRat} (h : sub.linearProgram box = .ok q) :
    q = ⟨sub.program.objective, sub.program.matrix, sub.program.limits, box⟩
      ∧ q.validate = .ok () := by
  rw [linearProgram, LinearProgram.new] at h
  cases hnew : LinearProgram.checked (⟨sub.program.objective, sub.program.matrix,
      sub.program.limits, .nonnegative sub.program.objective.length⟩ : LinearProgram ExtRat) with
  | error err => rw [hnew] at h; cases h
  | ok first =>
      obtain ⟨-, rfl⟩ := LinearProgram.checked_eq_ok_iff.mp hnew
      rw [hnew] at h
      obtain ⟨valid, rfl⟩ := LinearProgram.checked_eq_ok_iff.mp h
      exact ⟨rfl, valid⟩

/-- An optimal answer is the optimum of a linear program with the same objective and matrix. -/
theorem askSimplex_optimal {s : LinearProgram.Settings ExtRat} {sub : Subproblem ExtRat}
    {e : Effort} {bound : ExtRat} {v : List ExtRat}
    (h : (askSimplex s sub e).answer = .ok (.optimal bound v)) :
    ∃ q : LinearProgram ExtRat, q.objective = sub.program.objective
      ∧ q.matrix = sub.program.matrix ∧ q.validate = .ok ()
      ∧ (q.optimum s).verdict = .optimal v bound := by
  rw [askSimplex] at h
  split at h
  · cases h
  split at h
  · cases h
  split at h
  · cases h
  rename_i result hsolve
  cases hq : sub.linearProgram _ with
  | error err => rw [hq] at hsolve; cases hsolve
  | ok q =>
      rw [hq] at hsolve
      obtain ⟨rfl, valid⟩ := Subproblem.linearProgram_eq_ok hq
      cases (LinearProgram.solve_eq_ok valid).symm.trans hsolve
      exact ⟨_, rfl, rfl, valid, Relaxation.ofVerdict_eq_optimal (Except.ok.inj h)⟩

end IntegerProgramming
