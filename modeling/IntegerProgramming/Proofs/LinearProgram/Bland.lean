import Mathlib
import IntegerProgramming.Proofs.LinearProgram.Phases

/-!
# Simplex — no basis occurs twice

A phase whose pivots meet no near ties never comes back to a set of basic variables
(`Tableau.Dictionary.neverRepeats`), although degenerate pivots leave its objective as it is; so it
makes fewer pivots than there are such sets (`Tableau.Dictionary.pivots_lt_choose`).

Between two tableaus with the same basic variables the objective cannot have grown, so every pivot
between them was degenerate and all of them have the same basic solution
(`Tableau.CleanRun.basicSolution_eq`).  A variable that is basic in one of them and not in another
is *fickle*.  It leaves at some tableau and enters at another, and comparing the objective rows of
the two along the ray of the pivot at which it leaves shows **a greater fickle variable**
(`Tableau.Dictionary.exists_greater`): the first improving column enters, and of the rows with the
least ratio the one with the least basic variable leaves.  But there are finitely many variables.
-/

namespace IntegerProgramming.LinearProgram.Tableau

/-! ### Basic variables -/

/-- The basic variables of the rows. -/
def basicVariables {α : Type} (t : Tableau α) : Finset ℕ := (t.rows.map Row.basic).toFinset

theorem mem_basicVariables {α : Type} {t : Tableau α} {k : ℕ} :
    k ∈ t.basicVariables ↔ ∃ row ∈ t.rows, row.basic = k := by
  rw [basicVariables, List.mem_toFinset, List.mem_map]

variable {s t u : Tableau ℚ} {value : (ℕ → ℚ) → ℚ} {limit r j k n : ℕ} {row : Row ℚ}

theorem ne_of_notMem_basicVariables (h : k ∉ t.basicVariables) : ∀ row ∈ t.rows, row.basic ≠ k :=
  fun row hrow hbasic => h (mem_basicVariables.mpr ⟨row, hrow, hbasic⟩)

/-- A pivot exchanges one basic variable for another. -/
theorem Basis.mem_basicVariables_pivot (b : t.Basis) (hrow : t.rows[r]? = some row) :
    k ∈ (t.pivot r j).basicVariables ↔ k = j ∨ (k ∈ t.basicVariables ∧ k ≠ row.basic) := by
  simp only [mem_basicVariables]
  constructor
  · rintro ⟨new, hnew, rfl⟩
    obtain ⟨i, hi⟩ := List.mem_iff_getElem?.mp hnew
    rcases b.pivot_cases hrow hi with ⟨-, rfl⟩ | ⟨hir, old, hold, hbasic, -⟩
    · exact .inl rfl
    · refine .inr ⟨⟨old, List.mem_of_getElem? hold, hbasic.symm⟩, fun heq => ?_⟩
      have hunit := b.unit i r old row hold hrow
      rw [← heq, hbasic, b.coeff_basic (List.mem_of_getElem? hold), if_neg hir] at hunit
      exact one_ne_zero hunit
  · rintro (rfl | ⟨⟨old, hold, rfl⟩, hne⟩)
    · exact ⟨_, List.mem_of_getElem? (getElem?_rows_pivot_self hrow k), rfl⟩
    · obtain ⟨i, hi⟩ := List.mem_iff_getElem?.mp hold
      have hir : i ≠ r := by
        rintro rfl
        exact hne (congrArg Row.basic (Option.some.inj (hi.symm.trans hrow)))
      refine ⟨{ old with equation := old.equation.clear j (unitRow row j) },
        List.mem_of_getElem? (i := i) ?_, rfl⟩
      rw [getElem?_rows_pivot hrow, hi, Option.map_some, if_neg hir]

/-! ### Basic solutions -/

theorem Basis.basicSolution_of_columns_le (b : t.Basis) (hk : t.columns ≤ k) :
    t.basicSolution k = 0 :=
  basicSolution_nonbasic fun row hrow => ((b.basic row hrow).trans_le hk).ne

/-- A solution that is zero wherever a variable is not basic is the basic solution. -/
theorem Restates.basicSolution_eq (w : Restates s t) (w' : Restates s u)
    (zero : ∀ k, k ∉ u.basicVariables → t.basicSolution k = 0) :
    t.basicSolution = u.basicSolution := by
  funext k
  rcases lt_or_ge k u.columns with hk | hk
  · have hsolves := (w'.solves _).mpr ((w.solves _).mp w.basis.solves_basicSolution)
    refine w'.basis.eq_basicSolution hsolves (fun k _ hnon => zero k fun hmem => ?_) hk
    obtain ⟨row, hrow, hbasic⟩ := mem_basicVariables.mp hmem
    exact hnon row hrow hbasic
  · rw [w'.basis.basicSolution_of_columns_le hk,
      w.basis.basicSolution_of_columns_le (by rwa [w.columns, ← w'.columns])]

/-- Tableaus of one system with the same basic variables have the same basic solution. -/
theorem Restates.basicSolution_eq_of_basicVariables (w : Restates s t) (w' : Restates s u)
    (h : t.basicVariables = u.basicVariables) : t.basicSolution = u.basicSolution :=
  w.basicSolution_eq w' fun _ hk => basicSolution_nonbasic (ne_of_notMem_basicVariables (h ▸ hk))

theorem Dictionary.rhs_eq (d : Dictionary s value t) (e : Dictionary s value u)
    (h : t.basicSolution = u.basicSolution) : t.objective.rhs = u.objective.rhs := by
  rw [← d.value_basicSolution, ← e.value_basicSolution, h]

/-! ### Steps without near ties -/

/-- Column `j` enters for the row of the candidate, by a ratio test without near ties. -/
structure CleanStep (limit : ℕ) (t : Tableau ℚ) (j : ℕ) (c : Candidate ℚ) : Prop where
  entering : t.entering? 0 limit = some j
  leaving : t.leaving? 0 j = some c
  separated : t.Separated 0 j

theorem Dictionary.cleanStep (d : Dictionary s value t) {c : Candidate ℚ}
    (h : CleanStep limit t j c) : Dictionary s value (t.pivot c.row j) :=
  d.step h.leaving h.separated

/-- The row that leaves limits the entering column. -/
theorem CleanStep.exists_row {c : Candidate ℚ} (h : CleanStep limit t j c) :
    ∃ row, t.rows[c.row]? = some row ∧ 0 < row.equation.coeff j ∧ c = .ofRow j row c.row := by
  obtain ⟨row, hrow, hcoeff, hc⟩ := leaving?_eq_some h.leaving
  exact ⟨row, hrow, not_le.mp hcoeff, hc⟩

/-- A step does not lower the objective, and it moves the basic solution unless it is left as it
is. -/
theorem Dictionary.rhs_le_cleanStep (d : Dictionary s value t) {c : Candidate ℚ}
    (h : CleanStep limit t j c) : t.objective.rhs ≤ (t.pivot c.row j).objective.rhs
      ∧ ((t.pivot c.row j).objective.rhs ≤ t.objective.rhs →
        (t.pivot c.row j).basicSolution = t.basicSolution) := by
  obtain ⟨-, -, hneg, -⟩ := d.entering h.entering
  obtain ⟨row, hrow, hpos, -⟩ := h.exists_row
  have hmem := List.mem_of_getElem? hrow
  have hrhs := (d.basis.objective_sum hrow j).rhs
  rw [rhs_unitRow] at hrhs
  have hratio : 0 ≤ row.equation.rhs / row.equation.coeff j :=
    div_nonneg (d.nonnegative row hmem) hpos.le
  have hgain : 0 ≤ -t.objective.coeff j * (row.equation.rhs / row.equation.coeff j) :=
    mul_nonneg (by linarith) hratio
  refine ⟨by linarith, fun hle => ?_⟩
  -- nothing was gained, so the leaving variable was zero
  have hproduct : -t.objective.coeff j * (row.equation.rhs / row.equation.coeff j) = 0 := by
    linarith
  have hzero : row.equation.rhs = 0 := by
    have := (mul_eq_zero.mp hproduct).resolve_left (by linarith)
    exact (div_eq_zero_iff.mp this).resolve_right hpos.ne'
  refine (d.basicSolution_eq (d.cleanStep h).toRestates fun k hk => ?_).symm
  rw [d.basis.mem_basicVariables_pivot hrow, not_or, not_and, not_not] at hk
  by_cases hbasic : k ∈ t.basicVariables
  · rw [hk.2 hbasic, d.basis.basicSolution_basic hmem, hzero]
  · exact basicSolution_nonbasic (ne_of_notMem_basicVariables hbasic)

/-! ### Runs without near ties -/

/-- Some number of steps lead from one tableau to another. -/
inductive CleanRun (limit : ℕ) : Tableau ℚ → Tableau ℚ → Prop where
  | refl (t : Tableau ℚ) : CleanRun limit t t
  | step {t u : Tableau ℚ} {j : ℕ} {c : Candidate ℚ} (h : CleanStep limit t j c)
      (rest : CleanRun limit (t.pivot c.row j) u) : CleanRun limit t u

namespace CleanRun

variable {w : Tableau ℚ}

theorem trans (first : CleanRun limit t u) (second : CleanRun limit u w) : CleanRun limit t w := by
  induction first with
  | refl => exact second
  | step h _ ih => exact .step h (ih second)

theorem dictionary (d : Dictionary s value t) (run : CleanRun limit t u) :
    Dictionary s value u := by
  induction run with
  | refl => exact d
  | step h _ ih => exact ih (d.cleanStep h)

theorem rhs_le (d : Dictionary s value t) (run : CleanRun limit t u) :
    t.objective.rhs ≤ u.objective.rhs := by
  induction run with
  | refl => exact le_rfl
  | step h _ ih => exact (d.rhs_le_cleanStep h).1.trans (ih (d.cleanStep h))

/-- A run that does not raise the objective stays at one basic solution. -/
theorem basicSolution_eq (d : Dictionary s value t) (run : CleanRun limit t u)
    (hle : u.objective.rhs ≤ t.objective.rhs) : u.basicSolution = t.basicSolution := by
  induction run with
  | refl => rfl
  | step h rest ih =>
      obtain ⟨hrises, hstays⟩ := d.rhs_le_cleanStep h
      have d' := d.cleanStep h
      exact (ih d' (hle.trans hrises)).trans (hstays ((rest.rhs_le d').trans hle))

/-- What holds at the beginning of a run and not at its end is lost at a step. -/
theorem exists_step {P : Tableau ℚ → Prop} (run : CleanRun limit t u) (ht : P t) (hu : ¬ P u) :
    ∃ w j c, CleanRun limit t w ∧ CleanStep limit w j c ∧ CleanRun limit (w.pivot c.row j) u
      ∧ P w ∧ ¬ P (w.pivot c.row j) := by
  induction run with
  | refl => exact absurd ht hu
  | @step t u j c h rest ih =>
      by_cases hnext : P (t.pivot c.row j)
      · obtain ⟨w, j', c', before, h', after, hw⟩ := ih hnext hu
        exact ⟨w, j', c', .step h before, h', after, hw⟩
      · exact ⟨t, j, c, .refl t, h, rest, ht, hnext⟩

end CleanRun

/-! ### Fickle variables -/

/-- The tableau lies on a run from one tableau to another. -/
def Visited (limit : ℕ) (t u w : Tableau ℚ) : Prop := CleanRun limit t w ∧ CleanRun limit w u

/-- The variable is basic in one visited tableau and not in another. -/
def Fickle (limit : ℕ) (t u : Tableau ℚ) (k : ℕ) : Prop :=
  (∃ w, Visited limit t u w ∧ k ∈ w.basicVariables)
    ∧ ∃ w, Visited limit t u w ∧ k ∉ w.basicVariables

/-- On a run that ends as it began, what holds somewhere and not everywhere is lost at a step. -/
theorem exists_visited_step {P : Tableau ℚ → Prop} (same : P t ↔ P u) {x y : Tableau ℚ}
    (hx : Visited limit t u x) (px : P x) (hy : Visited limit t u y) (py : ¬ P y) :
    ∃ w j c, Visited limit t u w ∧ CleanStep limit w j c
      ∧ Visited limit t u (w.pivot c.row j) ∧ P w ∧ ¬ P (w.pivot c.row j) := by
  have visits {w : Tableau ℚ} {j : ℕ} {c : Candidate ℚ} (before : CleanRun limit t w)
      (h : CleanStep limit w j c) (after : CleanRun limit (w.pivot c.row j) u) :
      Visited limit t u w ∧ Visited limit t u (w.pivot c.row j) :=
    ⟨⟨before, .step h after⟩, before.trans (.step h (.refl _)), after⟩
  by_cases pt : P t
  · obtain ⟨w, j, c, before, h, after, hw⟩ := hy.1.exists_step pt py
    have := visits before h (after.trans hy.2)
    exact ⟨w, j, c, this.1, h, this.2, hw⟩
  · obtain ⟨w, j, c, before, h, after, hw⟩ := hx.2.exists_step px fun pu => pt (same.mpr pu)
    have := visits (hx.1.trans before) h after
    exact ⟨w, j, c, this.1, h, this.2, hw⟩

/-- Before the column that enters no coefficient of the objective is negative. -/
theorem Dictionary.coeff_nonneg_of_lt (d : Dictionary s value t)
    (h : t.entering? 0 limit = some j) (hk : k < j) : 0 ≤ t.objective.coeff k := by
  obtain ⟨-, hcol, -, -⟩ := d.entering h
  have hnot := entering?_first h hk (d.basis.getElem?_objective (hk.trans hcol))
  rwa [neg_zero, not_lt] at hnot

/-- The objective rows of two tableaus with the same basic solution differ by the first one's
improving coefficient along its ray. -/
theorem Dictionary.lhs_ray_eq (d : Dictionary s value t) (e : Dictionary s value u)
    (same : t.basicSolution = u.basicSolution) (hj : ∀ row ∈ t.rows, row.basic ≠ j) :
    u.objective.lhs u.columns (t.ray j 1) = t.objective.coeff j := by
  have hsolves := d.basis.solves_ray hj 1
  have hfirst := d.means _ hsolves
  have hsecond := e.means _ ((e.solves _).mpr ((d.solves _).mp hsolves))
  rw [d.priced.lhs_ray d.basis hj] at hfirst
  have := d.rhs_eq e same
  linarith

/-- So there is a column at which the second objective row improves along the ray of the first. -/
theorem Dictionary.exists_term_neg (d : Dictionary s value t) (e : Dictionary s value u)
    (same : t.basicSolution = u.basicSolution) (h : t.entering? 0 limit = some j) :
    ∃ i, u.objective.coeff i * t.ray j 1 i < 0 := by
  obtain ⟨-, -, hneg, hnon⟩ := d.entering h
  by_contra hall
  push Not at hall
  have := Finset.sum_nonneg fun i (_ : i ∈ Finset.range u.columns) => hall i
  rw [← Equation.lhs, d.lhs_ray_eq e same hnon] at this
  exact absurd hneg (not_lt.mpr this)

/-- A basic variable that is not basic in a tableau with the same basic solution is zero. -/
theorem Basis.rhs_eq_zero (b : t.Basis) (same : t.basicSolution = u.basicSolution)
    (hrow : row ∈ t.rows) (hnot : row.basic ∉ u.basicVariables) : row.equation.rhs = 0 := by
  rw [← b.basicSolution_basic hrow, same]
  exact basicSolution_nonbasic (ne_of_notMem_basicVariables hnot)

/-- The variable that leaves is at most each basic variable that is zero and limits the column. -/
theorem Dictionary.basic_le_of_rhs_zero (d : Dictionary s value t) {c : Candidate ℚ}
    (h : CleanStep limit t j c) (hrow : row ∈ t.rows) (hzero : row.equation.rhs = 0)
    (hcoeff : 0 < row.equation.coeff j) : c.basic ≤ row.basic := by
  obtain ⟨leaving, hleaving, hpos, hc⟩ := h.exists_row
  have hratio : 0 ≤ c.ratio := by
    rw [hc]
    exact div_nonneg (d.nonnegative leaving (List.mem_of_getElem? hleaving)) hpos.le
  obtain ⟨i, hi⟩ := List.mem_iff_getElem?.mp hrow
  have hratio' : (Candidate.ofRow j row i).ratio = 0 := by
    rw [Candidate.ofRow, hzero, zero_div]
  rcases h.separated.precedes h.leaving hi (not_le.mpr hcoeff) with hless | ⟨-, hle⟩
  · rw [hratio'] at hless
    exact absurd hratio (not_le.mpr hless)
  · exact hle

/-- If the second objective row improves along the ray at a basic variable, that is greater than the
one that leaves, and not basic in the second tableau. -/
theorem Dictionary.greater_of_basic (d : Dictionary s value t) (e : Dictionary s value u)
    (same : t.basicSolution = u.basicSolution) {c : Candidate ℚ} (h : CleanStep limit t j c)
    (henters : u.entering? 0 limit = some c.basic) (hrow : row ∈ t.rows)
    (hterm : u.objective.coeff row.basic * t.ray j 1 row.basic < 0) :
    c.basic < row.basic ∧ row.basic ∉ u.basicVariables := by
  have hnot : row.basic ∉ u.basicVariables := fun hmem => by
    obtain ⟨row', hrow', heq⟩ := mem_basicVariables.mp hmem
    rw [← heq, e.priced row' hrow', zero_mul] at hterm
    exact lt_irrefl 0 hterm
  have hzero := d.basis.rhs_eq_zero same hrow hnot
  rw [d.basis.ray_basic hrow, mul_one, hzero, zero_sub] at hterm
  refine ⟨lt_of_not_ge fun hle => absurd hterm (not_lt.mpr ?_), hnot⟩
  rcases hle.lt_or_eq with hlt | heq
  · -- were the column limited by the row, its variable would have left instead
    have hcoeff : row.equation.coeff j ≤ 0 := le_of_not_gt fun hpos =>
      absurd hlt (not_lt.mpr (d.basic_le_of_rhs_zero h hrow hzero hpos))
    exact mul_nonneg (e.coeff_nonneg_of_lt henters hlt) (neg_nonneg.mpr hcoeff)
  · -- at the variable that leaves both factors are negative
    obtain ⟨-, -, hneg, -⟩ := e.entering henters
    obtain ⟨leaving, hleaving, hpos, hc⟩ := h.exists_row
    have hsame : row = leaving := d.basis.eq_of_basic_eq hrow (List.mem_of_getElem? hleaving)
      (heq.trans (congrArg Candidate.basic hc))
    rw [heq, hsame]
    exact mul_nonneg_of_nonpos_of_nonpos hneg.le (neg_nonpos.mpr hpos.le)

/-- If it improves at a variable that is not basic, that is the one that enters, and it is greater
than the one that leaves. -/
theorem Dictionary.greater_of_nonbasic (d : Dictionary s value t) (e : Dictionary s value u)
    {c : Candidate ℚ} (h : CleanStep limit t j c) (henters : u.entering? 0 limit = some c.basic)
    (hk : k ∉ t.basicVariables) (hterm : u.objective.coeff k * t.ray j 1 k < 0) : c.basic < j := by
  obtain ⟨-, -, -, hnon⟩ := d.entering h.entering
  obtain ⟨row, hrow, -, hc⟩ := h.exists_row
  have hne : c.basic ≠ j := by
    rw [hc]
    exact hnon row (List.mem_of_getElem? hrow)
  rw [ray_nonbasic (ne_of_notMem_basicVariables hk)] at hterm
  split at hterm
  · rename_i hkj
    rw [hkj, mul_one] at hterm
    exact hne.lt_of_le (le_of_not_gt fun hlt =>
      absurd hterm (not_lt.mpr (e.coeff_nonneg_of_lt henters hlt)))
  · rw [mul_zero] at hterm
    exact absurd hterm (lt_irrefl 0)

/-- **A greater fickle variable.**  Two tableaus of one system have the same basic solution, and a
variable leaves at the first and enters at the second.  Then a greater one enters at the first, or
is basic there and not in the second. -/
theorem Dictionary.exists_greater (d : Dictionary s value t) (e : Dictionary s value u)
    (same : t.basicSolution = u.basicSolution) {c : Candidate ℚ} (h : CleanStep limit t j c)
    (henters : u.entering? 0 limit = some c.basic) :
    c.basic < j ∨ ∃ k, c.basic < k ∧ k ∈ t.basicVariables ∧ k ∉ u.basicVariables := by
  obtain ⟨k, hterm⟩ := d.exists_term_neg e same h.entering
  by_cases hk : k ∈ t.basicVariables
  · obtain ⟨row, hrow, rfl⟩ := mem_basicVariables.mp hk
    obtain ⟨hlt, hnot⟩ := d.greater_of_basic e same h henters hrow hterm
    exact .inr ⟨row.basic, hlt, hk, hnot⟩
  · exact .inl (d.greater_of_nonbasic e h henters hk hterm)

/-- On a run that ends with the basic variables it began with, no variable is the greatest fickle
one. -/
theorem Fickle.exists_greater (d : Dictionary s value t) (run : CleanRun limit t u)
    (same : t.basicVariables = u.basicVariables) (h : Fickle limit t u k) :
    ∃ k', k < k' ∧ Fickle limit t u k' := by
  obtain ⟨⟨x, hx, hxk⟩, y, hy, hyk⟩ := h
  have d' := run.dictionary d
  -- the objective is the same at both ends, so every visited tableau has the same basic solution
  have hrhs := d'.rhs_eq d (d'.basicSolution_eq_of_basicVariables d.toRestates same.symm)
  have visited {w : Tableau ℚ} (hw : Visited limit t u w) :
      Dictionary s value w ∧ w.basicSolution = t.basicSolution := by
    have dw := hw.1.dictionary d
    exact ⟨dw, hw.1.basicSolution_eq d ((hw.2.rhs_le dw).trans hrhs.le)⟩
  obtain ⟨w, j, c, hw, hleaves, hw', hbefore, hafter⟩ :=
    exists_visited_step (P := fun w => k ∈ w.basicVariables) (by rw [same]) hx hxk hy hyk
  obtain ⟨w₂, j₂, c₂, hw₂, henters, -, hbefore₂, hafter₂⟩ :=
    exists_visited_step (P := fun w => k ∉ w.basicVariables) (by rw [same]) hy hyk hx
      (not_not.mpr hxk)
  obtain ⟨dw, hsol⟩ := visited hw
  obtain ⟨dw₂, hsol₂⟩ := visited hw₂
  obtain ⟨row, hrow, -, hc⟩ := hleaves.exists_row
  obtain ⟨row₂, hrow₂, -⟩ := henters.exists_row
  have hleaving : k = c.basic := by
    rw [dw.basis.mem_basicVariables_pivot hrow, not_or, not_and, not_not] at hafter
    exact (hafter.2 hbefore).trans (congrArg Candidate.basic hc).symm
  have hentering : k = j₂ := by
    rw [not_not, dw₂.basis.mem_basicVariables_pivot hrow₂] at hafter₂
    exact hafter₂.resolve_right fun hmem => hbefore₂ hmem.1
  subst hentering
  have hnon : j ∉ w.basicVariables := fun hmem => by
    obtain ⟨row', hrow', hbasic⟩ := mem_basicVariables.mp hmem
    exact (dw.entering hleaves.entering).2.2.2 row' hrow' hbasic
  rcases dw.exists_greater dw₂ (hsol.trans hsol₂.symm) hleaves (hleaving ▸ henters.entering)
    with hlt | ⟨k', hlt, hmem, hnot⟩
  · refine ⟨j, hleaving ▸ hlt, ⟨_, hw', ?_⟩, w, hw, hnon⟩
    exact (dw.basis.mem_basicVariables_pivot hrow).mpr (.inl rfl)
  · exact ⟨k', hleaving ▸ hlt, ⟨w, hw, hmem⟩, w₂, hw₂, hnot⟩

/-- **No basis occurs twice.** -/
theorem Dictionary.basicVariables_ne (d : Dictionary s value t) {c : Candidate ℚ}
    (h : CleanStep limit t j c) (run : CleanRun limit (t.pivot c.row j) u) :
    t.basicVariables ≠ u.basicVariables := by
  intro same
  have whole : CleanRun limit t u := .step h run
  -- there is always a greater fickle variable, but each is one of the columns
  have none : ∀ m k, t.columns ≤ k + m → ¬ Fickle limit t u k := by
    intro m
    induction m with
    | zero =>
        rintro k hk ⟨⟨w, hw, hmem⟩, -⟩
        have dw := hw.1.dictionary d
        obtain ⟨row, hrow, rfl⟩ := mem_basicVariables.mp hmem
        have := dw.basis.basic row hrow
        rw [dw.columns, ← d.columns] at this
        omega
    | succ m ih =>
        intro k hk fickle
        obtain ⟨k', hlt, fickle'⟩ := fickle.exists_greater d whole same
        exact ih k' (by omega) fickle'
  obtain ⟨row, hrow, -, -⟩ := h.exists_row
  refine none t.columns j (Nat.le_add_left _ _) ⟨⟨_, ⟨.step h (.refl _), run⟩, ?_⟩, t,
    ⟨.refl t, whole⟩, fun hmem => ?_⟩
  · exact (d.basis.mem_basicVariables_pivot hrow).mpr (.inl rfl)
  · obtain ⟨row', hrow', hbasic⟩ := mem_basicVariables.mp hmem
    exact (d.entering h.entering).2.2.2 row' hrow' hbasic

/-! ### Phases -/

/-- No two tableaus of a phase have the same basic variables. -/
def NeverRepeats {α : Type} [Arith α] (tol : α) (limit budget : ℕ) (t : Tableau α) : Prop :=
  ∀ m n u w, Pivots tol limit t m u → Pivots tol limit u n w → 0 < n →
    m + n ≤ (t.optimize tol limit budget).pivots → u.basicVariables ≠ w.basicVariables

theorem NoNearTies.cleanStep {budget : ℕ} (sep : NoNearTies 0 limit (budget + 1) t)
    (h : t.move 0 limit = .pivot r j) :
    ∃ c, c.row = r ∧ CleanStep limit t j c ∧ NoNearTies 0 limit budget (t.pivot r j) := by
  obtain ⟨hj, c, hc, rfl⟩ := move_eq_pivot h
  simp only [NoNearTies, hj, hc] at sep
  exact ⟨c, rfl, ⟨hj, hc, sep.1⟩, sep.2⟩

/-- The pivots of a phase without near ties, as far as its budget goes. -/
theorem cleanRun_of_pivots {budget : ℕ} (run : Pivots 0 limit t n u)
    (sep : NoNearTies 0 limit (n + budget) t) :
    CleanRun limit t u ∧ NoNearTies 0 limit budget u := by
  induction run with
  | refl t => exact ⟨.refl t, Nat.zero_add budget ▸ sep⟩
  | @step t u r j n h _ ih =>
      rw [Nat.add_right_comm] at sep
      obtain ⟨c, rfl, clean, hsep⟩ := sep.cleanStep h
      obtain ⟨hrun, hrest⟩ := ih hsep
      exact ⟨.step clean hrun, hrest⟩

/-- **A phase without near ties never comes back to a set of basic variables.** -/
theorem Dictionary.neverRepeats (d : Dictionary s value t) {budget : ℕ}
    (sep : NoNearTies 0 limit budget t) : NeverRepeats 0 limit budget t := by
  intro m n u w before after hn hle
  obtain ⟨rest, rfl⟩ := Nat.exists_eq_add_of_le
    (hle.trans (optimize_pivots_le 0 limit budget t))
  rw [Nat.add_assoc] at sep
  obtain ⟨hrun, hsep⟩ := cleanRun_of_pivots before sep
  cases after with
  | refl => exact absurd hn (lt_irrefl 0)
  | @step _ _ r j n h after =>
      rw [Nat.add_right_comm] at hsep
      obtain ⟨c, rfl, clean, hsep⟩ := hsep.cleanStep h
      exact (hrun.dictionary d).basicVariables_ne clean (cleanRun_of_pivots after hsep).1

/-! ### Counting -/

/-- The tableaus of a run, one for each number of pivots. -/
theorem exists_path {α : Type} [Arith α] {tol : α} {t u : Tableau α}
    (run : Pivots tol limit t n u) :
    ∃ path : ℕ → Tableau α, path 0 = t ∧
      ∀ m k, m + k ≤ n → Pivots tol limit (path m) k (path (m + k)) := by
  induction run with
  | refl t =>
      refine ⟨fun _ => t, rfl, fun m k h => ?_⟩
      obtain rfl : k = 0 := by omega
      exact .refl t
  | @step t u r j n hmove rest ih =>
      obtain ⟨path, hfirst, hpath⟩ := ih
      refine ⟨fun m => m.casesOn t path, rfl, fun m k h => ?_⟩
      rcases m with _ | m
      · rcases k with _ | k
        · exact .refl t
        · rw [Nat.zero_add]
          have := hpath 0 k (by omega)
          rw [hfirst, Nat.zero_add] at this
          exact .step hmove this
      · rw [Nat.add_right_comm]
        exact hpath m k (by omega)

theorem Basis.card_basicVariables (b : t.Basis) : t.basicVariables.card = t.rows.length := by
  have distinct : (t.rows.map Row.basic).Nodup := List.pairwise_map.mpr b.pairwise_basic
  rw [basicVariables, List.toFinset_card_of_nodup distinct, List.length_map]

/-- The basic variables are as many of the columns as there are rows. -/
theorem Basis.basicVariables_mem (b : t.Basis) :
    t.basicVariables ∈ (Finset.range t.columns).powersetCard t.rows.length := by
  refine Finset.mem_powersetCard.mpr ⟨fun k hk => ?_, b.card_basicVariables⟩
  obtain ⟨row, hrow, rfl⟩ := mem_basicVariables.mp hk
  exact Finset.mem_range.mpr (b.basic row hrow)

/-- **A phase without near ties makes fewer pivots than there are sets of columns that could be
basic.** -/
theorem Dictionary.pivots_lt_choose (d : Dictionary s value t) {budget : ℕ}
    (sep : NoNearTies 0 limit budget t) :
    (t.optimize 0 limit budget).pivots < s.columns.choose s.rows.length := by
  have hbudget := optimize_pivots_le 0 limit budget t
  have never := d.neverRepeats sep
  have run := pivots_optimize 0 limit budget t
  set n := (t.optimize 0 limit budget).pivots
  obtain ⟨path, hfirst, hpath⟩ := exists_path run
  have reached {m : ℕ} (hm : m ≤ n) : Pivots 0 limit t m (path m) := by
    have := hpath 0 m (by omega)
    rwa [hfirst, Nat.zero_add] at this
  have bases : ∀ m ∈ Finset.range (n + 1), (path m).basicVariables
      ∈ (Finset.range s.columns).powersetCard s.rows.length := by
    intro m hm
    have hm : m ≤ n := Nat.lt_succ_iff.mp (Finset.mem_range.mp hm)
    obtain ⟨rest, rfl⟩ := Nat.exists_eq_add_of_le (hm.trans hbudget)
    have d' := (cleanRun_of_pivots (reached hm) sep).1.dictionary d
    have := d'.basis.basicVariables_mem
    rwa [d'.columns, d'.length] at this
  have distinct : Set.InjOn (fun m => (path m).basicVariables) (Finset.range (n + 1)) := by
    -- of two steps with the same basic variables one would come after the other
    have after {m k : ℕ} (hlt : m < k) (hk : k ≤ n) :
        (path m).basicVariables ≠ (path k).basicVariables := by
      obtain ⟨l, rfl⟩ := Nat.exists_eq_add_of_le hlt.le
      exact never m l _ _ (reached (by omega)) (hpath m l hk) (by omega) hk
    intro m hm k hk heq
    rw [Finset.mem_coe, Finset.mem_range] at hm hk
    rcases lt_trichotomy m k with hlt | rfl | hgt
    · exact absurd heq (after hlt (by omega))
    · rfl
    · exact absurd heq.symm (after hgt (by omega))
  have hcard := Finset.card_le_card_of_injOn _ bases distinct
  rwa [Finset.card_range, Finset.card_powersetCard, Finset.card_range] at hcard

end IntegerProgramming.LinearProgram.Tableau
