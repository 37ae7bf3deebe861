import Mathlib
import IntegerProgramming.Proofs.LinearProgram.Phases

/-!
# Simplex — objectives and artificial variables

An objective is priced out by adding a multiple of each row to it (`Tableau.Adds`).  Each basic
variable occurs in one row only, so the coefficient that the fold leaves there is the one that the
multiple of that row leaves (`Tableau.Basis.coeff_foldl`).

* `Tableau.Rewrites.withArtificialObjective`, `Tableau.Rewrites.withObjective`: with either
  objective a tableau is a dictionary for its value.
* `Tableau.Restates.expelArtificials`: expelling them keeps the system whatever they are, and leaves
  no other variable in a row that keeps one (`Tableau.IdleBelow`).
* `Tableau.Rewrites.expelArtificials`: when the artificial basic variables are zero they can be
  expelled at no cost, and a row that keeps one has no other variable (`Tableau.Idle`).
* `Tableau.Idle.pivot`: such a row stays as it is while no artificial variable enters.
-/

namespace IntegerProgramming.LinearProgram.Tableau

variable {t s : Tableau ℚ} {v : ℕ → ℚ} {limit r j k n : ℕ} {row : Row ℚ}

/-! ### Pricing out -/

/-- Each step adds a multiple of a row to an equation of the same length. -/
def Adds (n : ℕ) (step : Equation ℚ → Row ℚ → Equation ℚ) (multiple : Row ℚ → ℚ) : Prop :=
  ∀ (e : Equation ℚ) (row : Row ℚ), e.coeffs.length = n → row.equation.coeffs.length = n →
    (step e row).Sum e (multiple row) row.equation

variable {step : Equation ℚ → Row ℚ → Equation ℚ} {multiple : Row ℚ → ℚ} {rows : List (Row ℚ)}
  {e : Equation ℚ}

theorem Adds.length_foldl (adds : Adds n step multiple)
    (hrows : ∀ row ∈ rows, row.equation.coeffs.length = n) (he : e.coeffs.length = n) :
    (rows.foldl step e).coeffs.length = n := by
  induction rows generalizing e with
  | nil => exact he
  | cons row rest ih =>
      obtain ⟨hrow, hrest⟩ := List.forall_mem_cons.mp hrows
      exact ih hrest ((adds e row he hrow).length.trans he)

/-- Rows that hold leave the difference of the two sides alone. -/
theorem Adds.lhs_foldl (adds : Adds n step multiple)
    (hrows : ∀ row ∈ rows, row.equation.coeffs.length = n) (he : e.coeffs.length = n)
    (holds : ∀ row ∈ rows, row.equation.Holds n v) :
    (rows.foldl step e).rhs - (rows.foldl step e).lhs n v = e.rhs - e.lhs n v := by
  induction rows generalizing e with
  | nil => rfl
  | cons row rest ih =>
      obtain ⟨hrow, hrest⟩ := List.forall_mem_cons.mp hrows
      obtain ⟨hhold, hholds⟩ := List.forall_mem_cons.mp holds
      have hsum := adds e row he hrow
      rw [List.foldl_cons, ih hrest (hsum.length.trans he) hholds, hsum.lhs_eq, hsum.rhs, hhold]
      ring

/-- Rows without a column leave its coefficient alone. -/
theorem Adds.coeff_foldl_of_zero (adds : Adds n step multiple)
    (hrows : ∀ row ∈ rows, row.equation.coeffs.length = n) (he : e.coeffs.length = n)
    (zero : ∀ row ∈ rows, row.equation.coeff k = 0) :
    (rows.foldl step e).coeff k = e.coeff k := by
  induction rows generalizing e with
  | nil => rfl
  | cons row rest ih =>
      obtain ⟨hrow, hrest⟩ := List.forall_mem_cons.mp hrows
      obtain ⟨hzero, hzeros⟩ := List.forall_mem_cons.mp zero
      have hsum := adds e row he hrow
      rw [List.foldl_cons, ih hrest (hsum.length.trans he) hzeros, hsum.coeff, hzero]
      ring

/-- At a basic variable the row with that variable alone counts. -/
theorem Basis.coeff_foldl (b : t.Basis) (adds : Adds t.columns step multiple)
    (he : e.coeffs.length = t.columns) (hrow : row ∈ t.rows) :
    (t.rows.foldl step e).coeff row.basic = e.coeff row.basic + multiple row := by
  -- no row before or after this one has its basic variable
  obtain ⟨before, after, hsplit⟩ := List.append_of_mem hrow
  have distinct := b.pairwise_basic
  rw [hsplit, List.pairwise_append, List.pairwise_cons] at distinct
  obtain ⟨-, ⟨hafter, -⟩, hbefore⟩ := distinct
  have length : ∀ other ∈ before ++ row :: after, other.equation.coeffs.length = t.columns :=
    fun other hother => b.length other (hsplit ▸ hother)
  have zero : ∀ other ∈ before ++ row :: after, other.basic ≠ row.basic →
      other.equation.coeff row.basic = 0 := fun other hother hne =>
    b.coeff_other (hsplit ▸ hother) hrow fun h => hne (congrArg Row.basic h)
  have zeroBefore : ∀ other ∈ before, other.equation.coeff row.basic = 0 := fun other hother =>
    zero other (List.mem_append_left _ hother) (hbefore other hother row (List.mem_cons_self ..))
  have zeroAfter : ∀ other ∈ after, other.equation.coeff row.basic = 0 := fun other hother =>
    zero other (List.mem_append_right _ (List.mem_cons_of_mem _ hother)) (hafter other hother).symm
  have lengthBefore : ∀ other ∈ before, other.equation.coeffs.length = t.columns :=
    fun other hother => length other (List.mem_append_left _ hother)
  have lengthAfter : ∀ other ∈ after, other.equation.coeffs.length = t.columns :=
    fun other hother => length other (List.mem_append_right _ (List.mem_cons_of_mem _ hother))
  have hfirst := adds.length_foldl lengthBefore he
  have hsum := adds (before.foldl step e) row hfirst (b.length row hrow)
  rw [hsplit, List.foldl_append, List.foldl_cons,
    adds.coeff_foldl_of_zero lengthAfter (hsum.length.trans hfirst) zeroAfter, hsum.coeff,
    b.coeff_basic hrow, mul_one, adds.coeff_foldl_of_zero lengthBefore he zeroBefore]

/-- **An objective that is priced out.**  If the plain objective says what a value is, and each row
is added as often as clears its basic variable, the result is canonical for the value. -/
theorem Restates.priceOut (w : Restates s t) (adds : Adds t.columns step multiple)
    {value : (ℕ → ℚ) → ℚ} (he : e.coeffs.length = t.columns)
    (plain : ∀ v, value v + e.lhs t.columns v = e.rhs)
    (clears : ∀ row ∈ t.rows, e.coeff row.basic + multiple row = 0) :
    Canonical s value { t with objective := t.rows.foldl step e } where
  structural := w.structural
  firstArtificial := w.firstArtificial
  columns := w.columns
  length := w.length
  solves := w.solves
  basis := ⟨w.basis.length, adds.length_foldl w.basis.length he, w.basis.basic, w.basis.unit⟩
  priced row hrow := (w.basis.coeff_foldl adds he hrow).trans (clears row hrow)
  means v hv := by
    have hfold := adds.lhs_foldl w.basis.length he hv
    have hplain := plain v
    change value v + (t.rows.foldl step e).lhs t.columns v = (t.rows.foldl step e).rhs
    linarith

/-! ### The two objectives -/

/-- The sum of the artificial variables. -/
def artificialSum (t : Tableau ℚ) (v : ℕ → ℚ) : ℚ :=
  ∑ k ∈ Finset.range t.columns, if t.firstArtificial ≤ k then v k else 0

/-- The objective `Σ cⱼ vⱼ`. -/
def worth (c : List ℚ) (n : ℕ) (v : ℕ → ℚ) : ℚ :=
  ∑ k ∈ Finset.range n, c.getD k 0 * v k

theorem coeff_plainArtificial (m n k : ℕ) (z : ℚ) :
    (⟨List.replicate m 0 ++ List.replicate n 1, z⟩ : Equation ℚ).coeff k
      = if m ≤ k ∧ k < m + n then 1 else 0 := by
  rw [Equation.coeff, List.getD_eq_getElem?_getD, List.getElem?_append, List.length_replicate,
    List.getElem?_replicate, List.getElem?_replicate]
  split
  · rw [if_neg (by omega), Option.getD_some]
  · by_cases hk : k - m < n
    · rw [if_pos hk, if_pos (by omega), Option.getD_some]
    · rw [if_neg hk, if_neg (by omega), Option.getD_none]

theorem coeff_plainObjective (c : List ℚ) (n k : ℕ) (z : ℚ) :
    (⟨c.map (- ·) ++ List.replicate n 0, z⟩ : Equation ℚ).coeff k = -c.getD k 0 := by
  rw [Equation.coeff, List.getD_eq_getElem?_getD, List.getElem?_append, List.length_map,
    List.getElem?_replicate, List.getElem?_map, List.getD_eq_getElem?_getD]
  split
  · rename_i hk
    rw [List.getElem?_eq_getElem hk]
    rfl
  · rename_i hk
    rw [List.getElem?_eq_none (not_lt.mp hk), Option.getD_none, neg_zero]
    split <;> rfl

/-- A row with an artificial basic variable taken from the objective. -/
def dropArtificial {α : Type} [Arith α] (t : Tableau α) (e : Equation α) (row : Row α) :
    Equation α :=
  if t.isArtificial row.basic then e.minus row.equation else e

theorem adds_dropArtificial (t : Tableau ℚ) (N : ℕ) :
    Adds N t.dropArtificial fun row => if t.isArtificial row.basic then -1 else 0 := by
  intro e row he hrow
  simp only [dropArtificial]
  split
  · exact Equation.sum_minus (hrow.trans he.symm)
  · exact .refl e row.equation

/-- The cost of the basic variable of a row; only the first `n` variables have a cost. -/
def basicCost {α : Type} [Arith α] (n : ℕ) (c : List α) (row : Row α) : α :=
  if row.basic < n then c.getD row.basic 0 else 0

/-- A row added to the objective as often as its basic variable costs. -/
def addCost {α : Type} [Arith α] (n : ℕ) (c : List α) (e : Equation α) (row : Row α) : Equation α :=
  if basicCost n c row == 0 then e else e.plusMultiple (basicCost n c row) row.equation

/-- The objective in terms of the structural variables. -/
def plainObjective {α : Type} [Arith α] (columns : ℕ) (c : List α) : Equation α :=
  ⟨c.map (- ·) ++ List.replicate (columns - c.length) 0, 0⟩

theorem withObjective_eq {α : Type} [Arith α] (t : Tableau α) (c : List α) :
    t.withObjective c
      = { t with
          objective := t.rows.foldl (addCost t.structural c) (plainObjective t.columns c) } :=
  rfl

theorem adds_addCost (c : List ℚ) (n N : ℕ) : Adds N (addCost n c) (basicCost n c) := by
  intro e row he hrow
  rw [addCost]
  split
  · rename_i hzero
    rw [of_decide_eq_true hzero]
    exact .refl e row.equation
  · exact Equation.sum_plusMultiple _ (hrow.trans he.symm)

/-- The tableau with the objective of phase one. -/
theorem Restates.withArtificialObjective (w : Restates s t)
    (hcols : t.firstArtificial ≤ t.columns) :
    Canonical s (fun v => -t.artificialSum v) t.withArtificialObjective := by
  refine w.priceOut (adds_dropArtificial t t.columns) ?_ ?_ ?_
  · simp [hcols]
  · intro v
    have terms : ∀ k ∈ Finset.range t.columns,
        (⟨List.replicate t.firstArtificial 0
          ++ List.replicate (t.columns - t.firstArtificial) 1, 0⟩ : Equation ℚ).coeff k * v k
          = if t.firstArtificial ≤ k then v k else 0 := by
      intro k hk
      rw [Finset.mem_range] at hk
      rw [coeff_plainArtificial, ite_mul, one_mul, zero_mul]
      exact if_congr (by omega) rfl rfl
    rw [Equation.lhs, Finset.sum_congr rfl terms, artificialSum]
    exact neg_add_cancel _
  · intro row hrow
    have hbasic := w.basis.basic row hrow
    rw [coeff_plainArtificial, isArtificial]
    by_cases h : t.firstArtificial ≤ row.basic
    · simp [h, hcols, hbasic]
    · simp [h]

/-- The tableau with the objective of phase two. -/
theorem Restates.withObjective (w : Restates s t) {c : List ℚ} (hc : c.length = t.structural)
    (hcols : t.structural ≤ t.columns) :
    Canonical s (worth c t.columns) (t.withObjective c) := by
  refine w.priceOut (adds_addCost c t.structural t.columns) ?_ ?_ ?_
  · simp [hc, hcols]
  · intro v
    rw [Equation.lhs, worth, ← Finset.sum_add_distrib]
    refine Finset.sum_eq_zero fun k _ => ?_
    rw [coeff_plainObjective]
    ring
  · intro row hrow
    rw [coeff_plainObjective, basicCost]
    split
    · exact neg_add_cancel _
    · rename_i h
      rw [List.getD_eq_default _ _ (by omega), neg_zero, add_zero]

theorem Rewrites.withArtificialObjective (w : Rewrites s t)
    (hcols : t.firstArtificial ≤ t.columns) :
    Dictionary s (fun v => -t.artificialSum v) t.withArtificialObjective :=
  { w.toRestates.withArtificialObjective hcols with nonnegative := w.nonnegative }

theorem Rewrites.withObjective (w : Rewrites s t) {c : List ℚ} (hc : c.length = t.structural)
    (hcols : t.structural ≤ t.columns) :
    Dictionary s (worth c t.columns) (t.withObjective c) :=
  { w.toRestates.withObjective hc hcols with nonnegative := w.nonnegative }

/-! ### Expelling artificial variables -/

/-- Every artificial variable that is basic is zero. -/
def Drained (t : Tableau ℚ) : Prop :=
  ∀ row ∈ t.rows, t.firstArtificial ≤ row.basic → row.equation.rhs = 0

/-- Among the first `p` rows, one with an artificial basic variable has no other variable. -/
def IdleBelow (t : Tableau ℚ) (p : ℕ) : Prop :=
  ∀ (i : ℕ) (row : Row ℚ), i < p → t.rows[i]? = some row → t.firstArtificial ≤ row.basic →
    ∀ k < t.firstArtificial, row.equation.coeff k = 0

/-- A row with an artificial basic variable says that a sum of artificial variables is zero. -/
def Idle (t : Tableau ℚ) : Prop :=
  ∀ row ∈ t.rows, t.firstArtificial ≤ row.basic →
    row.equation.rhs = 0 ∧ ∀ k < t.firstArtificial, row.equation.coeff k = 0

theorem Drained.idle (h : t.Drained) (below : t.IdleBelow t.rows.length) : t.Idle := by
  intro row hrow hart
  obtain ⟨i, hi⟩ := List.mem_iff_getElem?.mp hrow
  obtain ⟨hlt, -⟩ := List.getElem?_eq_some_iff.mp hi
  exact ⟨h row hrow hart, below i row hlt hi hart⟩

theorem Idle.below (idle : t.Idle) {p : ℕ} : t.IdleBelow p :=
  fun _ row _ hrow hart => (idle row (List.mem_of_getElem? hrow) hart).2

/-- What expelling the artificial variable of a row does: nothing, if there is none or the row has
no other variable, or else a pivot in that row. -/
theorem expel_cases (b : t.Basis) (hcols : t.firstArtificial ≤ t.columns) (r : ℕ) :
    (expel 0 t r = t ∧ ∀ row, t.rows[r]? = some row → t.firstArtificial ≤ row.basic →
        ∀ k < t.firstArtificial, row.equation.coeff k = 0)
      ∨ ∃ row j, t.rows[r]? = some row ∧ t.firstArtificial ≤ row.basic ∧ j < t.firstArtificial
        ∧ row.equation.coeff j ≠ 0 ∧ expel 0 t r = t.pivot r j := by
  have beyond (a : ℚ) : (0 : ℚ) < absolute a ↔ a ≠ 0 := by rw [absolute_rat, abs_pos]
  rw [expel]
  cases hrow : t.rows[r]? with
  | none => exact .inl ⟨rfl, fun row h => nomatch h⟩
  | some row =>
      have hlength := b.length row (List.mem_of_getElem? hrow)
      simp only [isArtificial, decide_eq_true_eq]
      by_cases hart : t.firstArtificial ≤ row.basic
      · rw [if_pos hart]
        cases hfind : (row.equation.coeffs.take t.firstArtificial).findIdx?
            fun a => decide (0 < absolute a) with
        | none =>
            refine .inl ⟨rfl, fun other hother _ k hk => ?_⟩
            cases Option.some.inj hother
            have hk' : k < (row.equation.coeffs.take t.firstArtificial).length := by
              rw [List.length_take]
              omega
            have hnot := List.findIdx?_eq_none_iff.mp hfind _ (List.getElem_mem hk')
            rw [List.getElem_take, decide_eq_false_iff_not, beyond, not_not] at hnot
            rw [Equation.coeff, List.getD_eq_getElem _ _ (by omega)]
            exact hnot
        | some j =>
            obtain ⟨hj, hcoeff, -⟩ := List.findIdx?_eq_some_iff_getElem.mp hfind
            rw [List.length_take] at hj
            rw [List.getElem_take, decide_eq_true_eq, beyond] at hcoeff
            refine .inr ⟨row, j, rfl, hart, by omega, ?_, rfl⟩
            rw [Equation.coeff, List.getD_eq_getElem _ _ (by omega)]
            exact hcoeff
      · rw [if_neg hart]
        refine .inl ⟨rfl, fun other hother h => ?_⟩
        cases Option.some.inj hother
        exact absurd h hart

/-- A pivot in a row whose right-hand side is zero changes no other right-hand side. -/
theorem Basis.rhs_pivot_of_zero (b : t.Basis) (hrow : t.rows[r]? = some row)
    (hzero : row.equation.rhs = 0) {i : ℕ} {new : Row ℚ}
    (hnew : (t.pivot r j).rows[i]? = some new) :
    ∃ old, t.rows[i]? = some old ∧ new.equation.rhs = old.equation.rhs
      ∧ (new.basic = j ∨ new.basic = old.basic) := by
  rcases b.pivot_cases hrow hnew with ⟨rfl, rfl⟩ | ⟨-, old, hold, hbasic, hsum⟩
  · exact ⟨row, hrow, by rw [rhs_unitRow, hzero, zero_div], .inl rfl⟩
  · exact ⟨old, hold, by rw [hsum.rhs, rhs_unitRow, hzero, zero_div, mul_zero, add_zero],
      .inr hbasic⟩

/-- A row that does not have the entering column, and that is not the row of the pivot, stays. -/
theorem Basis.pivot_of_ne (b : t.Basis) (hrow : t.rows[r]? = some row) {i : ℕ} {new : Row ℚ}
    (hnew : (t.pivot r j).rows[i]? = some new) (hbasic : new.basic ≠ j) :
    ∃ old, i ≠ r ∧ t.rows[i]? = some old ∧ new.basic = old.basic
      ∧ (old.equation.coeff j = 0 → new.equation.rhs = old.equation.rhs
        ∧ ∀ k, new.equation.coeff k = old.equation.coeff k) := by
  rcases b.pivot_cases hrow hnew with ⟨-, rfl⟩ | ⟨hir, old, hold, hb, hsum⟩
  · exact absurd rfl hbasic
  · refine ⟨old, hir, hold, hb, fun hj => ⟨?_, fun k => ?_⟩⟩
    · rw [hsum.rhs, hj, neg_zero, zero_mul, add_zero]
    · rw [hsum.coeff, hj, neg_zero, zero_mul, add_zero]

/-- While no artificial variable enters, a row without other variables stays so. -/
theorem IdleBelow.pivot {p : ℕ} (below : t.IdleBelow p) (b : t.Basis)
    (hrow : t.rows[r]? = some row) (hj : j < t.firstArtificial) : (t.pivot r j).IdleBelow p := by
  intro i new hlt hi hart k hk
  rw [firstArtificial_pivot] at hart hk
  obtain ⟨old, -, hold, hbasic, hstays⟩ := b.pivot_of_ne hrow hi (by omega)
  have hidle := below i old hlt hold (hbasic ▸ hart)
  rw [(hstays (hidle j hj)).2]
  exact hidle k hk

/-- **Expelling one artificial variable** leaves its row without one, or without any other. -/
theorem IdleBelow.expel (below : t.IdleBelow r) (b : t.Basis)
    (hcols : t.firstArtificial ≤ t.columns) : (Tableau.expel 0 t r).IdleBelow (r + 1) := by
  rcases expel_cases b hcols r with ⟨hsame, hidle⟩ | ⟨row, j, hrow, -, hj, -, hpivot⟩
  · rw [hsame]
    intro i row hi hrow hart
    rcases Nat.lt_succ_iff_lt_or_eq.mp hi with hlt | rfl
    · exact below i row hlt hrow hart
    · exact hidle row hrow hart
  · rw [hpivot]
    intro i new hi hnew hart
    rcases Nat.lt_succ_iff_lt_or_eq.mp hi with hlt | rfl
    · exact below.pivot b hrow hj i new hlt hnew hart
    · -- the row of the pivot has the entering variable
      rw [getElem?_rows_pivot_self hrow] at hnew
      cases hnew
      rw [firstArtificial_pivot] at hart
      exact absurd hj (not_lt.mpr hart)

theorem Restates.expel (w : Restates s t) (hcols : t.firstArtificial ≤ t.columns) :
    Restates s (Tableau.expel 0 t r) := by
  rcases expel_cases w.basis hcols r with ⟨hsame, -⟩ | ⟨row, j, hrow, -, -, hcoeff, hpivot⟩
  · rw [hsame]
    exact w
  · rw [hpivot]
    exact w.pivot hrow hcoeff

/-- It costs nothing if the variable is zero: the pivot moves no right-hand side, whatever the sign
of its coefficient. -/
theorem Drained.expel (drained : t.Drained) (b : t.Basis) (n : t.Nonnegative)
    (hcols : t.firstArtificial ≤ t.columns) :
    (Tableau.expel 0 t r).Drained ∧ (Tableau.expel 0 t r).Nonnegative := by
  rcases expel_cases b hcols r with ⟨hsame, -⟩ | ⟨row, j, hrow, hart, hj, -, hpivot⟩
  · rw [hsame]
    exact ⟨drained, n⟩
  · rw [hpivot]
    have hzero := drained row (List.mem_of_getElem? hrow) hart
    constructor
    · intro new hnew hnewart
      rw [firstArtificial_pivot] at hnewart
      obtain ⟨i, hi⟩ := List.mem_iff_getElem?.mp hnew
      obtain ⟨old, hold, hrhs, hbasic | hbasic⟩ := b.rhs_pivot_of_zero hrow hzero hi
      · omega
      · rw [hrhs]
        exact drained old (List.mem_of_getElem? hold) (hbasic ▸ hnewart)
    · intro new hnew
      obtain ⟨i, hi⟩ := List.mem_iff_getElem?.mp hnew
      obtain ⟨old, hold, hrhs, -⟩ := b.rhs_pivot_of_zero hrow hzero hi
      exact hrhs ▸ n old (List.mem_of_getElem? hold)

/-- What expelling one artificial variable after another keeps. -/
theorem expelArtificials_invariant {P : ℕ → Tableau ℚ → Prop} (start : P 0 t)
    (keeps : ∀ r t, P r t → P (r + 1) (expel 0 t r)) :
    P t.rows.length (t.expelArtificials 0) := by
  rw [expelArtificials]
  generalize t.rows.length = p
  induction p with
  | zero => exact start
  | succ p ih =>
      rw [List.range_succ, List.foldl_append, List.foldl_cons, List.foldl_nil]
      exact keeps p _ ih

/-- Whatever the right-hand sides, **expelling all artificial variables** leaves every row without
one, or without any other. -/
theorem Restates.expelArtificials (w : Restates s t) (hcols : s.firstArtificial ≤ s.columns) :
    Restates s (t.expelArtificials 0)
      ∧ (t.expelArtificials 0).IdleBelow (t.expelArtificials 0).rows.length := by
  have := expelArtificials_invariant (t := t) (P := fun r u => Restates s u ∧ u.IdleBelow r)
    ⟨w, fun i row hi => absurd hi (Nat.not_lt_zero i)⟩ fun r u ⟨hw, hbelow⟩ => by
      have hcols' : u.firstArtificial ≤ u.columns := by rwa [hw.firstArtificial, hw.columns]
      exact ⟨hw.expel hcols', hbelow.expel hw.basis hcols'⟩
  rwa [w.length, ← this.1.length] at this

/-- If they are zero, they are expelled at no cost. -/
theorem Rewrites.expelArtificials (w : Rewrites s t) (hcols : s.firstArtificial ≤ s.columns)
    (drained : t.Drained) :
    Rewrites s (t.expelArtificials 0) ∧ (t.expelArtificials 0).Idle := by
  obtain ⟨hw, hbelow⟩ := w.toRestates.expelArtificials hcols
  have := expelArtificials_invariant (t := t)
    (P := fun _ u => Restates s u ∧ u.Drained ∧ u.Nonnegative)
    ⟨w.toRestates, drained, w.nonnegative⟩ fun r u ⟨hu, hdrained, hn⟩ => by
      have hcols' : u.firstArtificial ≤ u.columns := by rwa [hu.firstArtificial, hu.columns]
      exact ⟨hu.expel hcols', hdrained.expel hu.basis hn hcols'⟩
  exact ⟨⟨hw, this.2.2⟩, this.2.1.idle hbelow⟩

/-- While no artificial variable enters, idle rows stay idle. -/
theorem Idle.pivot (idle : t.Idle) (b : t.Basis) (hrow : t.rows[r]? = some row)
    (hj : j < t.firstArtificial) : (t.pivot r j).Idle := by
  intro new hnew hart
  rw [firstArtificial_pivot] at hart ⊢
  obtain ⟨i, hi⟩ := List.mem_iff_getElem?.mp hnew
  obtain ⟨old, -, hold, hbasic, hstays⟩ := b.pivot_of_ne hrow hi (by omega)
  obtain ⟨hrhs, hcoeffs⟩ := idle old (List.mem_of_getElem? hold) (hbasic ▸ hart)
  obtain ⟨hrhs', hcoeffs'⟩ := hstays (hcoeffs j hj)
  exact ⟨hrhs'.trans hrhs, fun k hk => (hcoeffs' k).trans (hcoeffs k hk)⟩

/-- On a ray along a column that is not artificial every artificial variable stays zero. -/
theorem Idle.ray_eq_zero (idle : t.Idle) (b : t.Basis) (hj : j < t.firstArtificial) (θ : ℚ)
    (hk : t.firstArtificial ≤ k) : t.ray j θ k = 0 := by
  rcases t.basic_or_nonbasic k with ⟨row, hrow, rfl⟩ | hnon
  · obtain ⟨hrhs, hcoeffs⟩ := idle row hrow hk
    rw [b.ray_basic hrow, hrhs, hcoeffs j hj, zero_mul, sub_zero]
  · rw [ray_nonbasic hnon, if_neg (by omega)]

theorem Idle.basicSolution_eq_zero (idle : t.Idle) (b : t.Basis) (hk : t.firstArtificial ≤ k) :
    t.basicSolution k = 0 := by
  rcases t.basic_or_nonbasic k with ⟨row, hrow, rfl⟩ | hnon
  · rw [b.basicSolution_basic hrow, (idle row hrow hk).1]
  · exact basicSolution_nonbasic hnon

end IntegerProgramming.LinearProgram.Tableau
