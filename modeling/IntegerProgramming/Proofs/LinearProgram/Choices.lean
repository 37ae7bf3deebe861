import Mathlib
import IntegerProgramming.Arithmetic.Exact
import IntegerProgramming.LinearProgram.Simplex

/-!
# Simplex — the choice of a pivot

What is known of the column that enters and of the row that leaves.  A ratio test takes ratios that
are close to each other for equal, so its choice is a row of least ratio only where no two different
ratios are close (`Tableau.Separated`); a phase meets no such pair if none of its tests does
(`Tableau.NoNearTies`).

* `Tableau.entering?_eq_some`, `Tableau.entering?_eq_none`: the first improving column, or none.
* `Tableau.leaving?_eq_some`, `Tableau.leaving?_eq_none`: a row that limits the column, or none.
* `Tableau.Separated.precedes`: over the rationals the row that leaves has the least ratio, and of
  the rows with that ratio the least basic variable.
-/

namespace IntegerProgramming.LinearProgram.Tableau

section Arith

variable {α : Type} [Arith α] {t : Tableau α} {tol : α} {limit j : ℕ}

/-! ### The entering column -/

theorem entering?_eq_some (h : t.entering? tol limit = some j) :
    j < limit ∧ ∃ o, t.objective.coeffs[j]? = some o ∧ o < -tol := by
  rw [entering?, List.findIdx?_eq_some_iff_getElem] at h
  obtain ⟨hj, ho, -⟩ := h
  rw [List.length_take] at hj
  refine ⟨by omega, t.objective.coeffs[j], List.getElem?_eq_getElem (by omega), ?_⟩
  simpa using ho

/-- No column before the one that enters improves the objective. -/
theorem entering?_first (h : t.entering? tol limit = some j) {i : ℕ} (hi : i < j) {o : α}
    (ho : t.objective.coeffs[i]? = some o) : ¬ o < -tol := by
  rw [entering?, List.findIdx?_eq_some_iff_getElem] at h
  obtain ⟨hj, -, hfirst⟩ := h
  obtain ⟨hlength, rfl⟩ := List.getElem?_eq_some_iff.mp ho
  simpa using hfirst i hi

theorem entering?_eq_none (h : t.entering? tol limit = none) (hj : j < limit) {o : α}
    (ho : t.objective.coeffs[j]? = some o) : ¬ o < -tol := by
  rw [entering?, List.findIdx?_eq_none_iff] at h
  have hmem : o ∈ t.objective.coeffs.take limit :=
    List.mem_of_getElem? (i := j) (by rw [List.getElem?_take, if_pos hj, ho])
  simpa using h o hmem

/-! ### The leaving row -/

/-- The row that competes at position `i`. -/
def Candidate.ofRow (j : ℕ) (row : Row α) (i : ℕ) : Candidate α :=
  ⟨i, row.basic, row.equation.rhs / row.equation.coeff j⟩

theorem contest_eq_none {best : Option (Candidate α)} {row : Row α} {i : ℕ} :
    contest tol j best row i = none ↔ best = none ∧ row.equation.coeff j ≤ tol := by
  by_cases ha : row.equation.coeff j ≤ tol
  · simp [contest, ha]
  · cases best with
    | none => simp [contest, ha]
    | some b =>
        simp only [contest, ha, if_false]
        split <;> simp

theorem contest_eq_some {best : Option (Candidate α)} {row : Row α} {i : ℕ} {c : Candidate α}
    (h : contest tol j best row i = some c) :
    best = some c ∨ (¬ row.equation.coeff j ≤ tol ∧ c = .ofRow j row i) := by
  by_cases ha : row.equation.coeff j ≤ tol
  · simp only [contest, ha, if_true] at h
    exact .inl h
  · simp only [contest, ha, if_false] at h
    cases best with
    | none => exact .inr ⟨ha, (Option.some.inj h).symm⟩
    | some b =>
        simp only at h
        split at h
        · exact .inr ⟨ha, (Option.some.inj h).symm⟩
        · exact .inl h

theorem foldl_contest_eq_none {pairs : List (Row α × ℕ)} {best : Option (Candidate α)}
    (h : pairs.foldl (fun best e => contest tol j best e.1 e.2) best = none) :
    best = none ∧ ∀ e ∈ pairs, e.1.equation.coeff j ≤ tol := by
  induction pairs generalizing best with
  | nil => exact ⟨h, by simp⟩
  | cons e rest ih =>
      obtain ⟨hfirst, hrest⟩ := ih h
      obtain ⟨hbest, he⟩ := contest_eq_none.mp hfirst
      exact ⟨hbest, List.forall_mem_cons.mpr ⟨he, hrest⟩⟩

theorem foldl_contest_eq_some {pairs : List (Row α × ℕ)} {best : Option (Candidate α)}
    {c : Candidate α} (h : pairs.foldl (fun best e => contest tol j best e.1 e.2) best = some c) :
    best = some c ∨ ∃ e ∈ pairs, ¬ e.1.equation.coeff j ≤ tol ∧ c = .ofRow j e.1 e.2 := by
  induction pairs generalizing best with
  | nil => exact .inl h
  | cons e rest ih =>
      rcases ih h with hfirst | ⟨e', he', hlimits⟩
      · rcases contest_eq_some hfirst with hbest | hlimits
        · exact .inl hbest
        · exact .inr ⟨e, List.mem_cons_self .., hlimits⟩
      · exact .inr ⟨e', List.mem_cons_of_mem e he', hlimits⟩

/-- No row limits the column. -/
theorem leaving?_eq_none (h : t.leaving? tol j = none) :
    ∀ row ∈ t.rows, row.equation.coeff j ≤ tol := by
  intro row hrow
  obtain ⟨i, hi⟩ := List.mem_iff_getElem?.mp hrow
  exact (foldl_contest_eq_none h).2 (row, i) (List.mk_mem_zipIdx_iff_getElem?.mpr hi)

/-- The row that leaves has a coefficient above the tolerance in the column. -/
theorem leaving?_eq_some {c : Candidate α} (h : t.leaving? tol j = some c) :
    ∃ row, t.rows[c.row]? = some row ∧ ¬ row.equation.coeff j ≤ tol
      ∧ c = .ofRow j row c.row := by
  rcases foldl_contest_eq_some h with hnone | ⟨⟨row, i⟩, hmem, hcoeff, rfl⟩
  · cases hnone
  · exact ⟨row, List.mk_mem_zipIdx_iff_getElem?.mp hmem, hcoeff, rfl⟩

/-- A pivot of the method: an improving column, and the row that leaves for it. -/
theorem move_eq_pivot {r : ℕ} (h : t.move tol limit = .pivot r j) :
    t.entering? tol limit = some j ∧ ∃ c, t.leaving? tol j = some c ∧ c.row = r := by
  rw [move] at h
  split at h
  · cases h
  · rename_i j' hj'
    split at h
    · cases h
    · rename_i c hc
      cases h
      exact ⟨hj', c, hc, rfl⟩

theorem move_eq_unbounded (h : t.move tol limit = .unbounded j) :
    t.entering? tol limit = some j ∧ t.leaving? tol j = none := by
  rw [move] at h
  split at h
  · cases h
  · rename_i j' hj'
    split at h
    · rename_i hnone
      cases h
      exact ⟨hj', hnone⟩
    · cases h

/-! ### Ties -/

/-- The ratios that are compared when column `j` enters. -/
def ratios (t : Tableau α) (tol : α) (j : ℕ) : List α :=
  t.rows.filterMap fun row =>
    if row.equation.coeff j ≤ tol then none
    else some (row.equation.rhs / row.equation.coeff j)

/-- No two different ratios are so close that they count as equal. -/
def Separated (t : Tableau α) (tol : α) (j : ℕ) : Prop :=
  ∀ a ∈ t.ratios tol j, ∀ b ∈ t.ratios tol j, a = b ∨ tieWidth < absolute (a - b)

/-- No ratio test of a phase meets two different ratios that count as equal. -/
def NoNearTies (tol : α) (limit : ℕ) : (budget : ℕ) → Tableau α → Prop
  | 0, _ => True
  | budget + 1, t =>
    match t.entering? tol limit with
    | none => True
    | some j =>
      t.Separated tol j ∧
        match t.leaving? tol j with
        | none => True
        | some c => NoNearTies tol limit budget (t.pivot c.row j)

instance [DecidableEq α] (t : Tableau α) (tol : α) (j : ℕ) : Decidable (t.Separated tol j) :=
  inferInstanceAs (Decidable (∀ a ∈ t.ratios tol j, ∀ b ∈ t.ratios tol j,
    a = b ∨ tieWidth < absolute (a - b)))

instance decidableNoNearTies [DecidableEq α] (tol : α) (limit : ℕ) :
    (budget : ℕ) → (t : Tableau α) → Decidable (NoNearTies tol limit budget t)
  | 0, _ => inferInstanceAs (Decidable True)
  | budget + 1, t =>
    match hj : t.entering? tol limit with
    | none => .isTrue (by rw [NoNearTies, hj]; trivial)
    | some j =>
      match hc : t.leaving? tol j with
      | none => decidable_of_iff (t.Separated tol j ∧ True) (by simp only [NoNearTies, hj, hc])
      | some c =>
        have := decidableNoNearTies tol limit budget (t.pivot c.row j)
        decidable_of_iff (t.Separated tol j ∧ NoNearTies tol limit budget (t.pivot c.row j))
          (by simp only [NoNearTies, hj, hc])

end Arith

/-! ### The least ratio -/

variable {t : Tableau ℚ} {tol : ℚ} {limit j : ℕ}

theorem tieWidth_pos : (0 : ℚ) < tieWidth := by
  decide +kernel

theorem absolute_rat (q : ℚ) : absolute q = |q| := by
  rw [absolute]
  split
  · rename_i h; rw [abs_of_neg h]
  · rename_i h; rw [abs_of_nonneg (not_lt.mp h)]

/-- Two ratios are equal or far apart. -/
def Apart (a b : ℚ) : Prop := a = b ∨ tieWidth < |a - b|

/-- The row has the lesser ratio, or the same ratio and no greater basic variable. -/
def Candidate.Precedes (c b : Candidate ℚ) : Prop :=
  c.ratio < b.ratio ∨ (c.ratio = b.ratio ∧ c.basic ≤ b.basic)

namespace Candidate

variable {a b c : Candidate ℚ}

theorem Precedes.refl (c : Candidate ℚ) : c.Precedes c := .inr ⟨rfl, le_rfl⟩

theorem Precedes.trans (first : a.Precedes b) (second : b.Precedes c) : a.Precedes c := by
  rcases first with hless | ⟨heq, hbasic⟩
  · rcases second with hless' | ⟨heq', -⟩
    · exact .inl (hless.trans hless')
    · exact .inl (heq' ▸ hless)
  · rcases second with hless' | ⟨heq', hbasic'⟩
    · exact .inl (heq ▸ hless')
    · exact .inr ⟨heq.trans heq', hbasic.trans hbasic'⟩

theorem Precedes.ratio_le (h : c.Precedes b) : c.ratio ≤ b.ratio :=
  h.elim le_of_lt fun h => h.1.le

/-- Of two rows whose ratios are equal or far apart, the preferred one precedes the other. -/
theorem precedes_of_beats (apart : Apart c.ratio b.ratio) (h : c.beats b = true) :
    c.Precedes b := by
  rw [beats, Bool.or_eq_true] at h
  rcases h with hless | hclose
  · have hlt : c.ratio < b.ratio - tieWidth := of_decide_eq_true hless
    exact .inl (hlt.trans (sub_lt_self _ tieWidth_pos))
  · rw [Bool.and_eq_true, decide_eq_true_eq, decide_eq_true_eq, absolute_rat] at hclose
    rcases apart with heq | hfar
    · exact .inr ⟨heq, hclose.2.le⟩
    · exact absurd hclose.1 (not_le.mpr hfar)

theorem precedes_of_not_beats (apart : Apart c.ratio b.ratio) (h : c.beats b = false) :
    b.Precedes c := by
  rw [beats, Bool.or_eq_false_iff, Bool.and_eq_false_iff, decide_eq_false_iff_not,
    decide_eq_false_iff_not, decide_eq_false_iff_not, absolute_rat] at h
  obtain ⟨hnot, htie⟩ := h
  rcases apart with heq | hfar
  · rw [heq, sub_self, abs_zero] at htie
    have hbasic := htie.resolve_left (not_not.mpr tieWidth_pos.le)
    exact .inr ⟨heq.symm, not_lt.mp hbasic⟩
  · refine .inl (lt_of_not_ge fun hle => hnot ?_)
    rw [abs_of_nonpos (sub_nonpos.mpr hle)] at hfar
    linarith

end Candidate

/-- The contest keeps the first of two rows whose ratios are equal or far apart. -/
theorem contest_precedes {best : Option (Candidate ℚ)} {row : Row ℚ} {i : ℕ} {c : Candidate ℚ}
    (apart : ∀ b, best = some b → ¬ row.equation.coeff j ≤ tol →
      Apart (Candidate.ofRow j row i).ratio b.ratio)
    (h : contest tol j best row i = some c) :
    (∀ b, best = some b → c.Precedes b)
      ∧ (¬ row.equation.coeff j ≤ tol → c.Precedes (.ofRow j row i)) := by
  by_cases ha : row.equation.coeff j ≤ tol
  · simp only [contest, ha, if_true] at h
    refine ⟨fun b hb => ?_, fun hnot => absurd ha hnot⟩
    cases Option.some.inj (h.symm.trans hb)
    exact .refl c
  · simp only [contest, ha, if_false] at h
    cases best with
    | none =>
        cases h
        exact ⟨fun b hb => (by cases hb), fun _ => .refl _⟩
    | some b =>
        simp only at h
        split at h
        · rename_i hbeats
          cases h
          refine ⟨fun b' hb' => ?_, fun _ => .refl _⟩
          cases hb'
          exact Candidate.precedes_of_beats (apart b rfl ha) hbeats
        · rename_i hbeats
          cases h
          refine ⟨fun b' hb' => ?_, fun _ => ?_⟩
          · cases hb'
            exact .refl c
          · exact Candidate.precedes_of_not_beats (apart c rfl ha)
              ((Bool.not_eq_true _).mp hbeats)

/-- The fold of the contest keeps the first of rows whose ratios are equal or far apart. -/
theorem foldl_contest_precedes {pairs : List (Row ℚ × ℕ)} {ratios : List ℚ}
    (apart : ∀ a ∈ ratios, ∀ b ∈ ratios, Apart a b)
    (hpairs : ∀ e ∈ pairs, ¬ e.1.equation.coeff j ≤ tol →
      (Candidate.ofRow j e.1 e.2).ratio ∈ ratios)
    {best : Option (Candidate ℚ)} (hbest : ∀ b, best = some b → b.ratio ∈ ratios)
    {c : Candidate ℚ} (h : pairs.foldl (fun best e => contest tol j best e.1 e.2) best = some c) :
    (∀ b, best = some b → c.Precedes b)
      ∧ ∀ e ∈ pairs, ¬ e.1.equation.coeff j ≤ tol → c.Precedes (.ofRow j e.1 e.2) := by
  -- the best row so far has one of the ratios, so the next contest is between ratios far apart
  induction pairs generalizing best with
  | nil =>
      refine ⟨fun b hb => ?_, by simp⟩
      cases Option.some.inj (h.symm.trans hb)
      exact .refl c
  | cons e rest ih =>
      obtain ⟨he, hrest⟩ := List.forall_mem_cons.mp hpairs
      have hnext : ∀ b, contest tol j best e.1 e.2 = some b → b.ratio ∈ ratios := by
        intro b hb
        rcases contest_eq_some hb with hold | ⟨hnot, rfl⟩
        · exact hbest b hold
        · exact he hnot
      obtain ⟨hfirst, hall⟩ := ih hrest hnext h
      cases hcontest : contest tol j best e.1 e.2 with
      | none =>
          obtain ⟨rfl, hle⟩ := contest_eq_none.mp hcontest
          exact ⟨fun b hb => (by cases hb),
            List.forall_mem_cons.mpr ⟨fun hnot => absurd hle hnot, hall⟩⟩
      | some b =>
          obtain ⟨hold, hnew⟩ := contest_precedes
            (fun b hb hnot => apart _ (he hnot) _ (hbest b hb)) hcontest
          have hb := hfirst b hcontest
          exact ⟨fun b' hb' => hb.trans (hold b' hb'),
            List.forall_mem_cons.mpr ⟨fun hnot => hb.trans (hnew hnot), hall⟩⟩

/-- **Without near ties the row that leaves precedes every other** that limits the column: it has
the least ratio, and of the rows with that ratio the least basic variable. -/
theorem Separated.precedes (sep : t.Separated tol j) {c : Candidate ℚ}
    (h : t.leaving? tol j = some c) {row : Row ℚ} {i : ℕ} (hrow : t.rows[i]? = some row)
    (hcoeff : ¬ row.equation.coeff j ≤ tol) : c.Precedes (.ofRow j row i) := by
  have apart : ∀ a ∈ t.ratios tol j, ∀ b ∈ t.ratios tol j, Apart a b := by
    intro a ha b hb
    have := sep a ha b hb
    rwa [absolute_rat] at this
  have hpairs : ∀ e ∈ t.rows.zipIdx, ¬ e.1.equation.coeff j ≤ tol →
      (Candidate.ofRow j e.1 e.2).ratio ∈ t.ratios tol j := by
    rintro ⟨row, i⟩ he hnot
    refine List.mem_filterMap.mpr ⟨row, ?_, if_neg hnot⟩
    exact List.mem_of_getElem? (List.mk_mem_zipIdx_iff_getElem?.mp he)
  exact (foldl_contest_precedes apart hpairs (by simp) h).2 (row, i)
    (List.mk_mem_zipIdx_iff_getElem?.mpr hrow) hcoeff

/-- Without near ties the row that leaves has the least ratio. -/
theorem Separated.ratio_le (sep : t.Separated tol j) {c : Candidate ℚ}
    (h : t.leaving? tol j = some c) {row : Row ℚ} (hrow : row ∈ t.rows)
    (hcoeff : ¬ row.equation.coeff j ≤ tol) :
    c.ratio ≤ row.equation.rhs / row.equation.coeff j := by
  obtain ⟨i, hi⟩ := List.mem_iff_getElem?.mp hrow
  exact (sep.precedes h hi hcoeff).ratio_le

end IntegerProgramming.LinearProgram.Tableau
