import Mathlib
import IntegerProgramming.LinearProgram.Run
import IntegerProgramming.Proofs.LinearProgram.Canonical
import IntegerProgramming.Proofs.LinearProgram.Choices

/-!
# Simplex — what a phase keeps and what it finds

A phase that never prefers a row for a ratio that is only nearly the least goes from one
*dictionary* of the same system to another (`Tableau.Dictionary`): the solutions stay, there is a
basis whose basic solution is not negative, and the objective row says what a fixed value is at
every solution, without using the basic variables.

* `Tableau.Dictionary.optimize`: **a phase ends at a dictionary.**
* `Tableau.Dictionary.value_le_of_optimal`: where no column improves the objective, the basic
  solution has the greatest value.
* `Tableau.Dictionary.value_ray_of_unbounded`: where no row limits the improving column, there are
  solutions of every value.
-/

namespace IntegerProgramming.LinearProgram.Tableau

variable {t s : Tableau ℚ} {v : ℕ → ℚ} {value : (ℕ → ℚ) → ℚ} {limit r j : ℕ} {row : Row ℚ}

/-! ### Feasible pivots -/

/-- A pivot on a positive coefficient whose ratio is the least keeps the basic solution from
becoming negative. -/
theorem Nonnegative.pivot (n : t.Nonnegative) (b : t.Basis) (hrow : t.rows[r]? = some row)
    (hpos : 0 < row.equation.coeff j)
    (least : ∀ other ∈ t.rows, 0 < other.equation.coeff j →
      row.equation.rhs / row.equation.coeff j ≤ other.equation.rhs / other.equation.coeff j) :
    (t.pivot r j).Nonnegative := by
  intro new hnew
  obtain ⟨i, hi⟩ := List.mem_iff_getElem?.mp hnew
  have hratio : 0 ≤ row.equation.rhs / row.equation.coeff j :=
    div_nonneg (n row (List.mem_of_getElem? hrow)) hpos.le
  rcases b.pivot_cases hrow hi with ⟨-, rfl⟩ | ⟨-, old, hold, -, hsum⟩
  · exact hratio
  · have hmem := List.mem_of_getElem? hold
    rw [hsum.rhs, rhs_unitRow]
    -- a row that the column does not lower keeps its sign, and any other is above the least ratio
    rcases le_or_gt (old.equation.coeff j) 0 with hneg | hcoeff
    · have := mul_nonpos_of_nonpos_of_nonneg hneg hratio
      have := n old hmem
      linarith
    · have := (le_div_iff₀ hcoeff).mp (least old hmem hcoeff)
      linarith

/-! ### Dictionaries -/

/-- A tableau with the solutions of another, a basis, and a basic solution that is not negative. -/
structure Rewrites (s t : Tableau ℚ) : Prop extends Restates s t where
  nonnegative : t.Nonnegative

/-- Its objective row says what a value of the solutions is, without using a basic variable. -/
structure Dictionary (s : Tableau ℚ) (value : (ℕ → ℚ) → ℚ) (t : Tableau ℚ) : Prop
    extends Rewrites s t, Canonical s value t

/-- A column that improves the objective is one of the columns, and it is not basic. -/
theorem Canonical.entering (d : Canonical s value t) (h : t.entering? 0 limit = some j) :
    j < limit ∧ j < t.columns ∧ t.objective.coeff j < 0 ∧ ∀ row ∈ t.rows, row.basic ≠ j := by
  obtain ⟨hlimit, o, ho, hneg⟩ := entering?_eq_some h
  obtain ⟨hlength, -⟩ := List.getElem?_eq_some_iff.mp ho
  have hcoeff : t.objective.coeff j = o := by
    rw [Equation.coeff, List.getD_eq_getElem?_getD, ho, Option.getD_some]
  have hlt : t.objective.coeff j < 0 := by
    rw [hcoeff]
    have : o < -0 := hneg
    simpa using this
  exact ⟨hlimit, d.basis.objective ▸ hlength, hlt, d.nonbasic_of_neg hlt⟩

/-- **A step of a phase keeps the dictionary**, if its ratio test is not misled by a near tie. -/
theorem Dictionary.step (d : Dictionary s value t) {c : Candidate ℚ}
    (hc : t.leaving? 0 j = some c) (sep : t.Separated 0 j) :
    Dictionary s value (t.pivot c.row j) := by
  obtain ⟨row, hrow, hcoeff, hc'⟩ := leaving?_eq_some hc
  have hpos : 0 < row.equation.coeff j := not_le.mp hcoeff
  refine { d.toCanonical.pivot hrow hpos.ne' with nonnegative := ?_ }
  refine d.nonnegative.pivot d.basis hrow hpos fun other hother h => ?_
  have := sep.ratio_le hc hother (not_le.mpr h)
  rwa [hc'] at this

/-! ### Whole phases -/

/-- What a step without near ties keeps, a phase without near ties keeps. -/
theorem optimize_invariant {I : Tableau ℚ → Prop}
    (keeps : ∀ (t : Tableau ℚ) (j : ℕ) (c : Candidate ℚ), I t → t.entering? 0 limit = some j →
      t.leaving? 0 j = some c → t.Separated 0 j → I (t.pivot c.row j))
    {budget : ℕ} {t : Tableau ℚ} (sep : NoNearTies 0 limit budget t) (start : I t) :
    I (t.optimize 0 limit budget).tableau := by
  induction budget generalizing t with
  | zero =>
      rw [optimize]
      split <;> exact start
  | succ budget ih =>
      rw [optimize]
      split
      · exact start
      · exact start
      · rename_i r j hmove
        obtain ⟨hj, c, hc, rfl⟩ := move_eq_pivot hmove
        simp only [NoNearTies, hj, hc] at sep
        exact ih sep.2 (keeps t j c start hj hc sep.1)

/-- **A phase ends at a dictionary.** -/
theorem Dictionary.optimize (d : Dictionary s value t) {budget : ℕ}
    (sep : NoNearTies 0 limit budget t) :
    Dictionary s value (t.optimize 0 limit budget).tableau :=
  optimize_invariant (fun _ _ _ d _ hc sep => d.step hc sep) sep d

/-! ### How a phase ends -/

theorem Dictionary.value_basicSolution (d : Dictionary s value t) :
    value t.basicSolution = t.objective.rhs := by
  rw [← d.means _ d.basis.solves_basicSolution, d.basis.lhs_basicSolution d.priced, add_zero]

/-- Where no column improves the objective, no solution exceeds the basic one that uses only the
columns that may enter. -/
theorem Dictionary.value_le_of_optimal (d : Dictionary s value t) (h : t.move 0 limit = .optimal)
    (hv : t.Solves v) (nonneg : ∀ k, 0 ≤ v k) (zero : ∀ k, limit ≤ k → k < t.columns → v k = 0) :
    value v ≤ t.objective.rhs := by
  have hnone := move_eq_optimal_iff.mp h
  -- no coefficient of a column that may enter is negative, and the other columns are zero
  have hlhs : 0 ≤ t.objective.lhs t.columns v := by
    refine Finset.sum_nonneg fun k hk => ?_
    rw [Finset.mem_range] at hk
    rcases lt_or_ge k limit with hlimit | hlimit
    · have hnot : ¬ t.objective.coeff k < -0 :=
        entering?_eq_none hnone hlimit (d.basis.getElem?_objective hk)
      rw [neg_zero, not_lt] at hnot
      exact mul_nonneg hnot (nonneg k)
    · rw [zero k hlimit hk, mul_zero]
  have := d.means v hv
  linarith

/-- Where no row limits the improving column, the ray in its direction consists of solutions that
are not negative, and the value grows along it. -/
theorem Dictionary.value_ray_of_unbounded (d : Dictionary s value t)
    (h : t.move 0 limit = .unbounded j) :
    j < limit ∧ t.objective.coeff j < 0 ∧ (∀ row ∈ t.rows, row.basic ≠ j) ∧ ∀ θ, 0 ≤ θ →
      t.Solves (t.ray j θ) ∧ (∀ k, 0 ≤ t.ray j θ k)
        ∧ value (t.ray j θ) = t.objective.rhs - t.objective.coeff j * θ := by
  obtain ⟨hj, hnone⟩ := move_eq_unbounded h
  obtain ⟨hlimit, hcol, hneg, hnon⟩ := d.entering hj
  refine ⟨hlimit, hneg, hnon, fun θ hθ => ⟨d.basis.solves_ray hnon θ, fun k => ?_, ?_⟩⟩
  · rcases t.basic_or_nonbasic k with ⟨row, hrow, rfl⟩ | hk
    · rw [d.basis.ray_basic hrow]
      have hrhs := d.nonnegative row hrow
      have hle := mul_nonpos_of_nonpos_of_nonneg (leaving?_eq_none hnone row hrow) hθ
      linarith
    · rw [ray_nonbasic hk]
      split
      · exact hθ
      · exact le_rfl
  · have hmeans := d.means _ (d.basis.solves_ray hnon θ)
    rw [d.priced.lhs_ray d.basis hnon] at hmeans
    linarith

/-- Every value is exceeded on a ray along which it grows. -/
theorem Dictionary.exists_value_gt (d : Dictionary s value t) (h : t.move 0 limit = .unbounded j)
    (m : ℚ) : ∃ θ, 0 ≤ θ ∧ m < value (t.ray j θ) := by
  obtain ⟨-, hneg, -, hray⟩ := d.value_ray_of_unbounded h
  have hpos : 0 < -t.objective.coeff j := by linarith
  refine ⟨(|m - t.objective.rhs| + 1) / -t.objective.coeff j, by positivity, ?_⟩
  rw [(hray _ (by positivity)).2.2]
  have hmul : t.objective.coeff j * ((|m - t.objective.rhs| + 1) / -t.objective.coeff j)
      = -(|m - t.objective.rhs| + 1) := by
    have hne := hneg.ne
    field_simp
  have := le_abs_self (m - t.objective.rhs)
  linarith

end IntegerProgramming.LinearProgram.Tableau
