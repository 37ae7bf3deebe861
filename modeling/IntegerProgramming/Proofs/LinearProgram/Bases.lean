import Mathlib
import IntegerProgramming.LinearProgram.Tableau
import IntegerProgramming.Proofs.LinearProgram.Equations

/-!
# Tableaus — bases and pivots

A valuation of the variables *solves* a tableau when every row holds (`Tableau.Solves`).  The rows
of a tableau have a *basis* when the basic variables are those of a unit matrix (`Tableau.Basis`);
then setting one other variable to `θ` and the rest to zero determines a solution (`Tableau.ray`),
and with all of them zero it is the basic solution.

* `Tableau.solves_pivot_iff`: a pivot keeps the solutions.
* `Tableau.Basis.pivot`: a pivot keeps the basis.
* `Tableau.Means.pivot`: the objective row goes on saying what it said of the solutions.
* `Tableau.Basis.solves_ray`, `Tableau.Priced.lhs_ray`: the solutions on a ray, and the objective
  there.
-/

namespace IntegerProgramming.LinearProgram.Tableau

variable {t : Tableau ℚ} {v : ℕ → ℚ} {r i j : ℕ} {row : Row ℚ}

/-! ### Solutions -/

/-- Every row holds. -/
def Solves (t : Tableau ℚ) (v : ℕ → ℚ) : Prop :=
  ∀ row ∈ t.rows, row.equation.Holds t.columns v

/-- The objective row says what `value` is at each solution. -/
def Means (t : Tableau ℚ) (value : (ℕ → ℚ) → ℚ) : Prop :=
  ∀ v, t.Solves v → value v + t.objective.lhs t.columns v = t.objective.rhs

/-! ### Bases -/

/-- Every equation has a coefficient for each column, and the columns of the basic variables form a
unit matrix. -/
structure Basis (t : Tableau ℚ) : Prop where
  length : ∀ row ∈ t.rows, row.equation.coeffs.length = t.columns
  objective : t.objective.coeffs.length = t.columns
  basic : ∀ row ∈ t.rows, row.basic < t.columns
  unit : ∀ (i k : ℕ) (row other : Row ℚ), t.rows[i]? = some row → t.rows[k]? = some other →
    row.equation.coeff other.basic = if i = k then 1 else 0

/-- The objective has no coefficient at a basic variable. -/
def Priced (t : Tableau ℚ) : Prop :=
  ∀ row ∈ t.rows, t.objective.coeff row.basic = 0

/-- The basic solution has no negative coordinate. -/
def Nonnegative (t : Tableau ℚ) : Prop :=
  ∀ row ∈ t.rows, 0 ≤ row.equation.rhs

theorem Basis.coeff_basic (b : t.Basis) (h : row ∈ t.rows) : row.equation.coeff row.basic = 1 := by
  obtain ⟨i, hi⟩ := List.mem_iff_getElem?.mp h
  rw [b.unit i i row row hi hi, if_pos rfl]

theorem Basis.getElem?_objective (b : t.Basis) {k : ℕ} (hk : k < t.columns) :
    t.objective.coeffs[k]? = some (t.objective.coeff k) := by
  have hlength : k < t.objective.coeffs.length := b.objective.symm ▸ hk
  rw [List.getElem?_eq_getElem hlength, Equation.coeff, List.getD_eq_getElem _ _ hlength]

/-- A row is determined by its basic variable. -/
theorem Basis.eq_of_basic_eq (b : t.Basis) {other : Row ℚ} (h : row ∈ t.rows)
    (h' : other ∈ t.rows) (heq : row.basic = other.basic) : row = other := by
  obtain ⟨i, hi⟩ := List.mem_iff_getElem?.mp h
  obtain ⟨k, hk⟩ := List.mem_iff_getElem?.mp h'
  have hunit := b.unit i k row other hi hk
  rw [← heq, b.coeff_basic h] at hunit
  by_cases hik : i = k
  · exact Option.some.inj (hi.symm.trans (hik ▸ hk))
  · rw [if_neg hik] at hunit
    exact absurd hunit one_ne_zero

theorem Basis.coeff_other (b : t.Basis) {other : Row ℚ} (h : row ∈ t.rows)
    (h' : other ∈ t.rows) (hne : row ≠ other) : row.equation.coeff other.basic = 0 := by
  obtain ⟨i, hi⟩ := List.mem_iff_getElem?.mp h
  obtain ⟨k, hk⟩ := List.mem_iff_getElem?.mp h'
  rw [b.unit i k row other hi hk, if_neg]
  rintro rfl
  exact hne (Option.some.inj (hi.symm.trans hk))

/-! ### Pivots -/

section Arith

variable {α : Type} [Arith α] {t : Tableau α} {row : Row α}

/-- The row of a pivot, divided by its coefficient in the entering column. -/
def unitRow (row : Row α) (j : ℕ) : Equation α :=
  row.equation.divide (row.equation.coeff j)

theorem getElem?_rows_pivot (hrow : t.rows[r]? = some row) (j i : ℕ) :
    (t.pivot r j).rows[i]? = t.rows[i]?.map fun other =>
      if i = r then ⟨j, unitRow row j⟩
      else { other with equation := other.equation.clear j (unitRow row j) } := by
  rw [pivot, hrow]
  exact List.getElem?_mapIdx

theorem getElem?_rows_pivot_self (hrow : t.rows[r]? = some row) (j : ℕ) :
    (t.pivot r j).rows[r]? = some ⟨j, unitRow row j⟩ := by
  rw [getElem?_rows_pivot hrow, hrow, Option.map_some, if_pos rfl]

theorem objective_pivot (hrow : t.rows[r]? = some row) (j : ℕ) :
    (t.pivot r j).objective = t.objective.clear j (unitRow row j) := by
  rw [pivot, hrow]
  rfl

end Arith

theorem coeff_unitRow (row : Row ℚ) (j k : ℕ) :
    (unitRow row j).coeff k = row.equation.coeff k / row.equation.coeff j :=
  Equation.coeff_divide ..

theorem rhs_unitRow (row : Row ℚ) (j : ℕ) :
    (unitRow row j).rhs = row.equation.rhs / row.equation.coeff j := rfl

theorem Basis.length_unitRow (b : t.Basis) (h : row ∈ t.rows) (j : ℕ) :
    (unitRow row j).coeffs.length = t.columns := by
  rw [unitRow, Equation.length_divide, b.length row h]

/-- A row after a pivot: the row of the pivot itself, or another one to which a multiple of it was
added. -/
theorem Basis.pivot_cases (b : t.Basis) (hrow : t.rows[r]? = some row) {new : Row ℚ}
    (hnew : (t.pivot r j).rows[i]? = some new) :
    (i = r ∧ new = ⟨j, unitRow row j⟩)
      ∨ (i ≠ r ∧ ∃ old, t.rows[i]? = some old ∧ new.basic = old.basic
        ∧ new.equation.Sum old.equation (-old.equation.coeff j) (unitRow row j)) := by
  rw [getElem?_rows_pivot hrow, Option.map_eq_some_iff] at hnew
  obtain ⟨old, hold, rfl⟩ := hnew
  by_cases hir : i = r
  · exact .inl ⟨hir, if_pos hir⟩
  · rw [if_neg hir]
    refine .inr ⟨hir, old, hold, rfl, Equation.sum_clear j ?_⟩
    rw [b.length_unitRow (List.mem_of_getElem? hrow), b.length old (List.mem_of_getElem? hold)]

theorem Basis.objective_sum (b : t.Basis) (hrow : t.rows[r]? = some row) (j : ℕ) :
    (t.pivot r j).objective.Sum t.objective (-t.objective.coeff j) (unitRow row j) := by
  rw [objective_pivot hrow]
  exact Equation.sum_clear j ((b.length_unitRow (List.mem_of_getElem? hrow) j).trans
    b.objective.symm)

/-- **A pivot keeps the solutions.** -/
theorem Basis.solves_pivot_iff (b : t.Basis) (hrow : t.rows[r]? = some row)
    (hj : row.equation.coeff j ≠ 0) : (t.pivot r j).Solves v ↔ t.Solves v := by
  have hunit : (unitRow row j).Holds t.columns v ↔ row.equation.Holds t.columns v :=
    Equation.holds_divide_iff hj
  -- every other row changes by a multiple of the row of the pivot, which holds on both sides
  constructor
  · intro h old hold
    obtain ⟨i, hi⟩ := List.mem_iff_getElem?.mp hold
    have pivoted : (unitRow row j).Holds t.columns v := by
      have := h _ (List.mem_of_getElem? (getElem?_rows_pivot_self hrow j))
      rwa [columns_pivot] at this
    obtain ⟨new, hnew⟩ : ∃ new, (t.pivot r j).rows[i]? = some new :=
      ⟨_, by rw [getElem?_rows_pivot hrow, hi]; rfl⟩
    rcases b.pivot_cases hrow hnew with ⟨rfl, -⟩ | ⟨-, old', hold', -, hsum⟩
    · cases Option.some.inj (hrow.symm.trans hi)
      exact hunit.mp pivoted
    · cases Option.some.inj (hi.symm.trans hold')
      have := h new (List.mem_of_getElem? hnew)
      rw [columns_pivot] at this
      exact (hsum.holds_iff pivoted).mp this
  · intro h new hnew
    obtain ⟨i, hi⟩ := List.mem_iff_getElem?.mp hnew
    have pivoted := hunit.mpr (h row (List.mem_of_getElem? hrow))
    rw [columns_pivot]
    rcases b.pivot_cases hrow hi with ⟨-, rfl⟩ | ⟨-, old, hold, -, hsum⟩
    · exact pivoted
    · exact (hsum.holds_iff pivoted).mpr (h old (List.mem_of_getElem? hold))

/-- **A pivot keeps the basis.** -/
theorem Basis.pivot (b : t.Basis) (hrow : t.rows[r]? = some row)
    (hj : row.equation.coeff j ≠ 0) (hcol : j < t.columns) : (t.pivot r j).Basis where
  length new hnew := by
    obtain ⟨i, hi⟩ := List.mem_iff_getElem?.mp hnew
    rw [columns_pivot]
    rcases b.pivot_cases hrow hi with ⟨-, rfl⟩ | ⟨-, old, hold, -, hsum⟩
    · exact b.length_unitRow (List.mem_of_getElem? hrow) j
    · exact hsum.length.trans (b.length old (List.mem_of_getElem? hold))
  objective := by
    rw [columns_pivot]
    exact (b.objective_sum hrow j).length.trans b.objective
  basic new hnew := by
    obtain ⟨i, hi⟩ := List.mem_iff_getElem?.mp hnew
    rw [columns_pivot]
    rcases b.pivot_cases hrow hi with ⟨-, rfl⟩ | ⟨-, old, hold, hbasic, -⟩
    · exact hcol
    · exact hbasic ▸ b.basic old (List.mem_of_getElem? hold)
  unit i k new new' hi hk := by
    -- each of the two rows may be the one of the pivot
    rcases b.pivot_cases hrow hi with ⟨hir, rfl⟩ | ⟨hir, old, hold, hbasic, hsum⟩
    · rcases b.pivot_cases hrow hk with ⟨hkr, rfl⟩ | ⟨hkr, old', hold', hbasic', -⟩
      · rw [coeff_unitRow, div_self hj, if_pos (hir.trans hkr.symm)]
      · rw [coeff_unitRow, hbasic', b.unit r k row old' hrow hold', if_neg (Ne.symm hkr), zero_div,
          if_neg (hir ▸ Ne.symm hkr)]
    · rw [hsum.coeff, coeff_unitRow]
      rcases b.pivot_cases hrow hk with ⟨hkr, rfl⟩ | ⟨hkr, old', hold', hbasic', -⟩
      · rw [div_self hj, if_neg (hkr ▸ hir)]
        ring
      · rw [hbasic', b.unit r k row old' hrow hold', if_neg (Ne.symm hkr),
          b.unit i k old old' hold hold']
        ring

/-- The objective row goes on saying what it said of the solutions. -/
theorem Means.pivot {value : (ℕ → ℚ) → ℚ} (m : t.Means value) (b : t.Basis)
    (hrow : t.rows[r]? = some row) (hj : row.equation.coeff j ≠ 0) :
    (t.pivot r j).Means value := by
  intro v hv
  have hsolves := (b.solves_pivot_iff hrow hj).mp hv
  have hunit : (unitRow row j).Holds t.columns v :=
    (Equation.holds_divide_iff hj).mpr (hsolves row (List.mem_of_getElem? hrow))
  have hsum := b.objective_sum hrow j
  have hvalue := m v hsolves
  rw [columns_pivot, hsum.lhs_eq, hsum.rhs, hunit, ← hvalue]
  ring

theorem Priced.pivot (p : t.Priced) (b : t.Basis) (hrow : t.rows[r]? = some row)
    (hj : row.equation.coeff j ≠ 0) : (t.pivot r j).Priced := by
  intro new hnew
  obtain ⟨i, hi⟩ := List.mem_iff_getElem?.mp hnew
  rw [(b.objective_sum hrow j).coeff, coeff_unitRow]
  rcases b.pivot_cases hrow hi with ⟨-, rfl⟩ | ⟨hir, old, hold, hbasic, -⟩
  · rw [div_self hj]
    ring
  · rw [hbasic, p old (List.mem_of_getElem? hold), b.unit r i row old hrow hold,
      if_neg (Ne.symm hir)]
    ring

/-! ### Basic solutions and rays -/

/-- The solution with `θ` in column `j` and zero in every other column that is not basic. -/
def ray (t : Tableau ℚ) (j : ℕ) (θ : ℚ) (k : ℕ) : ℚ :=
  match t.rows.find? fun row => row.basic = k with
  | some row => row.equation.rhs - row.equation.coeff j * θ
  | none => if k = j then θ else 0

theorem Basis.ray_basic (b : t.Basis) (h : row ∈ t.rows) (j : ℕ) (θ : ℚ) :
    t.ray j θ row.basic = row.equation.rhs - row.equation.coeff j * θ := by
  rw [ray]
  cases hfind : t.rows.find? fun other => other.basic = row.basic with
  | none => exact absurd (List.find?_eq_none.mp hfind row h) (by simp)
  | some other =>
      have hbasic : other.basic = row.basic := by simpa using List.find?_some hfind
      rw [b.eq_of_basic_eq (List.mem_of_find?_eq_some hfind) h hbasic]

theorem ray_nonbasic {k : ℕ} (h : ∀ row ∈ t.rows, row.basic ≠ k) (j : ℕ) (θ : ℚ) :
    t.ray j θ k = if k = j then θ else 0 := by
  have : t.rows.find? (fun row => row.basic = k) = none :=
    List.find?_eq_none.mpr fun row hrow => by simpa using h row hrow
  rw [ray, this]

/-- A column is basic in one row or in none. -/
theorem basic_or_nonbasic (t : Tableau ℚ) (k : ℕ) :
    (∃ row ∈ t.rows, row.basic = k) ∨ ∀ row ∈ t.rows, row.basic ≠ k := by
  by_cases h : ∃ row ∈ t.rows, row.basic = k
  · exact .inl h
  · exact .inr fun row hrow heq => h ⟨row, hrow, heq⟩

/-- **Every point of a ray is a solution.** -/
theorem Basis.solves_ray (b : t.Basis) (hj : ∀ row ∈ t.rows, row.basic ≠ j) (θ : ℚ) :
    t.Solves (t.ray j θ) := by
  intro row hrow
  have terms : ∀ k, row.equation.coeff k * t.ray j θ k
      = (if k = row.basic then row.equation.rhs - row.equation.coeff j * θ else 0)
        + if k = j then row.equation.coeff j * θ else 0 := by
    intro k
    rcases t.basic_or_nonbasic k with ⟨other, hother, rfl⟩ | hk
    · rw [if_neg (hj other hother), add_zero]
      by_cases heq : row = other
      · rw [← heq, b.coeff_basic hrow, b.ray_basic hrow, if_pos rfl, one_mul]
      · rw [b.coeff_other hrow hother heq, zero_mul, if_neg]
        exact fun hbasic => heq (b.eq_of_basic_eq hrow hother hbasic.symm)
    · rw [ray_nonbasic hk, if_neg (Ne.symm (hk row hrow)), zero_add, mul_ite, mul_zero]
      split
      · rename_i h; rw [h]
      · rfl
  rw [Equation.Holds, Equation.lhs, Finset.sum_congr rfl fun k _ => terms k,
    Finset.sum_add_distrib, Finset.sum_ite_eq', Equation.sum_single (b.length row hrow),
    if_pos (Finset.mem_range.mpr (b.basic row hrow))]
  ring

/-- On a ray only the column that moves contributes to the objective. -/
theorem Priced.lhs_ray (p : t.Priced) (b : t.Basis) (hj : ∀ row ∈ t.rows, row.basic ≠ j) (θ : ℚ) :
    t.objective.lhs t.columns (t.ray j θ) = t.objective.coeff j * θ := by
  have terms : ∀ k, t.objective.coeff k * t.ray j θ k
      = if k = j then t.objective.coeff j * θ else 0 := by
    intro k
    rcases t.basic_or_nonbasic k with ⟨other, hother, rfl⟩ | hk
    · rw [p other hother, zero_mul, if_neg (hj other hother)]
    · rw [ray_nonbasic hk, mul_ite, mul_zero]
      split
      · rename_i h; rw [h]
      · rfl
  rw [Equation.lhs, Finset.sum_congr rfl fun k _ => terms k, Equation.sum_single b.objective]

/-- The solution with zero in every column that is not basic. -/
def basicSolution (t : Tableau ℚ) : ℕ → ℚ := t.ray t.columns 0

theorem Basis.basicSolution_basic (b : t.Basis) (h : row ∈ t.rows) :
    t.basicSolution row.basic = row.equation.rhs := by
  rw [basicSolution, b.ray_basic h, mul_zero, sub_zero]

theorem basicSolution_nonbasic {k : ℕ} (h : ∀ row ∈ t.rows, row.basic ≠ k) :
    t.basicSolution k = 0 := by
  rw [basicSolution, ray_nonbasic h, ite_self]

theorem Basis.nonbasic_columns (b : t.Basis) : ∀ row ∈ t.rows, row.basic ≠ t.columns :=
  fun row hrow => (b.basic row hrow).ne

theorem Basis.solves_basicSolution (b : t.Basis) : t.Solves t.basicSolution :=
  b.solves_ray b.nonbasic_columns 0

theorem Basis.lhs_basicSolution (b : t.Basis) (p : t.Priced) :
    t.objective.lhs t.columns t.basicSolution = 0 := by
  rw [basicSolution, p.lhs_ray b b.nonbasic_columns, mul_zero]

theorem Basis.basicSolution_nonneg (b : t.Basis) (n : t.Nonnegative) (k : ℕ) :
    0 ≤ t.basicSolution k := by
  rcases t.basic_or_nonbasic k with ⟨row, hrow, rfl⟩ | hk
  · rw [b.basicSolution_basic hrow]
    exact n row hrow
  · rw [basicSolution_nonbasic hk]

/-- No other solution is zero in every column that is not basic. -/
theorem Basis.eq_basicSolution (b : t.Basis) (hv : t.Solves v)
    (zero : ∀ k < t.columns, (∀ row ∈ t.rows, row.basic ≠ k) → v k = 0) {k : ℕ}
    (hk : k < t.columns) : v k = t.basicSolution k := by
  rcases t.basic_or_nonbasic k with ⟨row, hrow, rfl⟩ | hnon
  -- the row of a basic variable says nothing but the value of that variable
  · have terms : ∀ k ∈ Finset.range t.columns, row.equation.coeff k * v k
        = if k = row.basic then v row.basic else 0 := by
      intro k hk
      rcases t.basic_or_nonbasic k with ⟨other, hother, rfl⟩ | hnon
      · by_cases heq : row = other
        · rw [heq, b.coeff_basic hother, one_mul, if_pos rfl]
        · rw [b.coeff_other hrow hother heq, zero_mul, if_neg]
          exact fun hbasic => heq (b.eq_of_basic_eq hrow hother hbasic.symm)
      · rw [zero k (Finset.mem_range.mp hk) hnon, mul_zero, if_neg (Ne.symm (hnon row hrow))]
    have hholds := hv row hrow
    rw [Equation.Holds, Equation.lhs, Finset.sum_congr rfl terms, Finset.sum_ite_eq',
      if_pos (Finset.mem_range.mpr hk)] at hholds
    rw [b.basicSolution_basic hrow, hholds]
  · rw [zero k hk hnon, basicSolution_nonbasic hnon]

/-! ### The vertex -/

theorem greater_rat (p q : ℚ) : greater p q = max p q := by
  have number (a : ℚ) : isUndefined a = false := by
    rw [isUndefined, Bool.not_eq_false']
    exact decide_eq_true rfl
  simp only [greater, number, Bool.false_eq_true, if_false]
  split
  · rename_i h; exact (max_eq_right (le_of_lt h)).symm
  · rename_i h; exact (max_eq_left (not_lt.mp h)).symm

theorem Basis.pairwise_basic (b : t.Basis) :
    t.rows.Pairwise fun row other => row.basic ≠ other.basic := by
  rw [List.pairwise_iff_getElem]
  intro i k hi hk hlt heq
  have hunit := b.unit i k _ _ (List.getElem?_eq_getElem hi) (List.getElem?_eq_getElem hk)
  rw [← heq, b.coeff_basic (List.getElem_mem hi), if_neg hlt.ne] at hunit
  exact one_ne_zero hunit

/-- One basic value after another is written into a list of structural variables. -/
def writeBasic (n : ℕ) (x : List ℚ) (row : Row ℚ) : List ℚ :=
  if row.basic < n then x.set row.basic (greater row.equation.rhs 0) else x

theorem vertex_eq_foldl (t : Tableau ℚ) :
    t.vertex = t.rows.foldl (writeBasic t.structural) (List.replicate t.structural 0) := rfl

theorem getElem?_foldl_writeBasic_of_ne {n k : ℕ} {rows : List (Row ℚ)} {x : List ℚ}
    (h : ∀ row ∈ rows, row.basic ≠ k) : (rows.foldl (writeBasic n) x)[k]? = x[k]? := by
  induction rows generalizing x with
  | nil => rfl
  | cons row rest ih =>
      obtain ⟨hrow, hrest⟩ := List.forall_mem_cons.mp h
      rw [List.foldl_cons, ih hrest, writeBasic]
      split
      · exact List.getElem?_set_ne hrow
      · rfl

theorem getElem?_foldl_writeBasic {n : ℕ} {rows : List (Row ℚ)} {x : List ℚ} (hx : x.length = n)
    (distinct : rows.Pairwise fun row other => row.basic ≠ other.basic) (hrow : row ∈ rows)
    (hbasic : row.basic < n) :
    (rows.foldl (writeBasic n) x)[row.basic]? = some (greater row.equation.rhs 0) := by
  induction rows generalizing x with
  | nil => exact absurd hrow List.not_mem_nil
  | cons first rest ih =>
      rw [List.pairwise_cons] at distinct
      rw [List.foldl_cons]
      rcases List.mem_cons.mp hrow with rfl | hrest
      · rw [getElem?_foldl_writeBasic_of_ne fun other hother => (distinct.1 other hother).symm,
          writeBasic, if_pos hbasic, List.getElem?_set_self (hx ▸ hbasic)]
      · refine ih ?_ distinct.2 hrest
        rw [writeBasic]
        split
        · rw [List.length_set, hx]
        · exact hx

/-- The vertex is the basic solution, with zero in place of its negative coordinates. -/
theorem Basis.vertex_eq_map (b : t.Basis) :
    t.vertex = (List.range t.structural).map fun k => max (t.basicSolution k) 0 := by
  refine List.ext_getElem? fun k => ?_
  rcases lt_or_ge k t.structural with hk | hk
  · rw [List.getElem?_map, List.getElem?_range hk, Option.map_some, vertex_eq_foldl]
    rcases t.basic_or_nonbasic k with ⟨row, hrow, rfl⟩ | hnon
    · rw [getElem?_foldl_writeBasic List.length_replicate b.pairwise_basic hrow hk, greater_rat,
        b.basicSolution_basic hrow]
    · rw [getElem?_foldl_writeBasic_of_ne hnon, basicSolution_nonbasic hnon, max_self,
        List.getElem?_replicate, if_pos hk]
  · rw [List.getElem?_eq_none (by rw [length_vertex]; exact hk),
      List.getElem?_eq_none (by simpa using hk)]

/-- **The vertex is the basic solution**, if that has no negative coordinate. -/
theorem Basis.vertex_eq (b : t.Basis) (n : t.Nonnegative) :
    t.vertex = (List.range t.structural).map t.basicSolution :=
  b.vertex_eq_map.trans (List.map_congr_left fun k _ => max_eq_left (b.basicSolution_nonneg n k))

end IntegerProgramming.LinearProgram.Tableau
