import Mathlib
import IntegerProgramming.Proofs.LinearProgram.Vertices

/-!
# Simplex — what near ties cost

The ratio test takes ratios for equal that are at most the tie width apart, and "at most so far
apart" is not transitive: a row may win a tie against the best one so far with a greater ratio, the
next row may win against that one, and the ratio that is kept drifts upwards.  It drifts by one tie
width for each row that competes after the first (`Tableau.drift`), and no farther.

* `Tableau.foldl_contest_ratio_le`: **the ratio that is kept exceeds no other by more than the
  drift.**
* `Tableau.RatioTest`: what that means for the row that leaves, and for the right-hand sides after
  the pivot.
* `Tableau.leaving?_sound`: **every ratio test of numbers comes out so.**
* `Tableau.leaving?_sound_staircase`: three rows, each in a near tie with the next, of which the one
  with the greatest ratio leaves.
-/

namespace IntegerProgramming.LinearProgram

open ExtRat (num)

/-- What a cleared equation has on the right. -/
theorem Equation.rhs_clear (e unit : Equation ℚ) (j : ℕ) :
    (e.clear j unit).rhs = e.rhs - e.coeff j * unit.rhs := by
  rw [clear]
  split
  · rename_i hzero
    rw [show e.coeff j = 0 from of_decide_eq_true hzero, zero_mul, sub_zero]
  · rfl

namespace Tableau

/-! ### The rows that compete -/

section Arith

variable {α : Type} [Arith α]

/-- Whether a row limits column `j`: its coefficient there exceeds the tolerance. -/
def limits (tol : α) (j : ℕ) (row : Row α) : Bool := decide (tol < row.equation.coeff j)

/-- How many rows limit column `j`. -/
def numLimits (t : Tableau α) (tol : α) (j : ℕ) : ℕ := t.rows.countP (limits tol j)

end Arith

/-- How far the ratio that is kept can be above the least, if `k` rows compete. -/
def drift (k : ℕ) : ℚ := (k - 1) * tieWidth

variable {t : Tableau ℚ} {τ : ℚ} {j : ℕ}

theorem limits_iff {row : Row ℚ} : limits τ j row = true ↔ ¬ row.equation.coeff j ≤ τ := by
  rw [limits, decide_eq_true_eq, not_le]

/-! ### The drift -/

theorem drift_succ (k : ℕ) : drift (k + 1) = drift k + tieWidth := by
  rw [drift, drift]
  push_cast
  ring

theorem drift_nonneg {k : ℕ} (h : 0 < k) : 0 ≤ drift k := by
  have one : (1 : ℚ) ≤ k := by exact_mod_cast h
  exact mul_nonneg (sub_nonneg.mpr one) tieWidth_pos.le

/-- The preferred row has a ratio at most one tie width greater. -/
theorem Candidate.ratio_le_of_beats {b c : Candidate ℚ} (h : c.beats b = true) :
    c.ratio ≤ b.ratio + tieWidth := by
  have positive := tieWidth_pos
  rw [beats, Bool.or_eq_true, Bool.and_eq_true, decide_eq_true_eq, decide_eq_true_eq,
    absolute_rat] at h
  rcases h with hless | ⟨hclose, -⟩
  · linarith
  · linarith [le_abs_self (c.ratio - b.ratio)]

/-- So has the row that is kept against another. -/
theorem Candidate.ratio_le_of_not_beats {b c : Candidate ℚ} (h : c.beats b = false) :
    b.ratio ≤ c.ratio + tieWidth := by
  rw [beats, Bool.or_eq_false_iff, decide_eq_false_iff_not, not_lt] at h
  linarith [h.1]

/-- One row after another: the best one so far, or the new one, is at most one tie width above
both. -/
theorem contest_ratio_le {b c : Candidate ℚ} {row : Row ℚ} {i : ℕ}
    (hcoeff : ¬ row.equation.coeff j ≤ τ) (h : contest τ j (some b) row i = some c) :
    c.ratio ≤ b.ratio + tieWidth ∧ c.ratio ≤ (Candidate.ofRow j row i).ratio + tieWidth := by
  have positive := tieWidth_pos
  simp only [contest, if_neg hcoeff] at h
  split at h
  · rename_i hbeats
    cases h
    exact ⟨Candidate.ratio_le_of_beats hbeats, le_add_of_nonneg_right positive.le⟩
  · rename_i hbeats
    cases h
    exact ⟨le_add_of_nonneg_right positive.le,
      Candidate.ratio_le_of_not_beats ((Bool.not_eq_true _).mp hbeats)⟩

/-- **The drift.**  The ratio that a contest keeps exceeds no other by more than one tie width for
each row after the first. -/
theorem foldl_contest_ratio_le {pairs : List (Row ℚ × ℕ)} {c : Candidate ℚ}
    (h : pairs.foldl (fun best e => contest τ j best e.1 e.2) none = some c) :
    ∀ e ∈ pairs, ¬ e.1.equation.coeff j ≤ τ →
      c.ratio ≤ (Candidate.ofRow j e.1 e.2).ratio
        + drift ((pairs.map Prod.fst).countP (limits τ j)) := by
  -- the last row is in the contest with what is kept of the rows before it
  induction pairs using List.reverseRecOn generalizing c with
  | nil => cases h
  | append_singleton pairs last ih =>
      rw [List.foldl_append, List.foldl_cons, List.foldl_nil] at h
      rw [List.map_append, List.map_singleton, List.countP_append, List.countP_singleton,
        List.forall_mem_append, List.forall_mem_singleton]
      by_cases hlast : last.1.equation.coeff j ≤ τ
      · rw [contest, if_pos hlast] at h
        rw [if_neg (mt limits_iff.mp (not_not.mpr hlast)), add_zero]
        exact ⟨ih h, fun hnot => absurd hlast hnot⟩
      rw [if_pos (limits_iff.mpr hlast)]
      cases hbest : pairs.foldl (fun best e => contest τ j best e.1 e.2) none with
      | none =>
          -- no row before the last one competes
          have idle := (foldl_contest_eq_none hbest).2
          have count : (pairs.map Prod.fst).countP (limits τ j) = 0 := by
            rw [List.countP_eq_zero, List.forall_mem_map]
            exact fun e he => mt limits_iff.mp (not_not.mpr (idle e he))
          rw [hbest, contest, if_neg hlast] at h
          cases h
          refine ⟨fun e he hnot => absurd (idle e he) hnot, fun _ => ?_⟩
          rw [count]
          exact le_add_of_nonneg_right (drift_nonneg Nat.one_pos)
      | some b =>
          have competes : 0 < (pairs.map Prod.fst).countP (limits τ j) := by
            obtain hnone | ⟨e, he, hcoeff, -⟩ := foldl_contest_eq_some hbest
            · cases hnone
            · exact List.countP_pos_iff.mpr
                ⟨e.1, List.mem_map_of_mem he, limits_iff.mpr hcoeff⟩
          have more := drift_nonneg competes
          rw [hbest] at h
          obtain ⟨first, second⟩ := contest_ratio_le hlast h
          rw [drift_succ]
          exact ⟨fun e he hnot => by linarith [ih hbest e he hnot], fun _ => by linarith⟩

/-! ### The row that leaves -/

theorem leaving?_eq_none_iff : t.leaving? τ j = none ↔ t.numLimits τ j = 0 := by
  rw [numLimits, List.countP_eq_zero]
  constructor
  · exact fun h row hrow => mt limits_iff.mp (not_not.mpr (leaving?_eq_none h row hrow))
  · intro h
    cases hc : t.leaving? τ j with
    | none => rfl
    | some c =>
        obtain ⟨row, hrow, hcoeff, -⟩ := leaving?_eq_some hc
        exact absurd (limits_iff.mpr hcoeff) (h row (List.mem_of_getElem? hrow))

theorem leaving?_ratio_le {c : Candidate ℚ} (h : t.leaving? τ j = some c) {row : Row ℚ}
    (hrow : row ∈ t.rows) (hcoeff : ¬ row.equation.coeff j ≤ τ) :
    c.ratio ≤ row.equation.rhs / row.equation.coeff j + drift (t.numLimits τ j) := by
  obtain ⟨i, hi⟩ := List.mem_iff_getElem?.mp hrow
  have hle := foldl_contest_ratio_le h (row, i) (List.mk_mem_zipIdx_iff_getElem?.mpr hi) hcoeff
  rwa [List.zipIdx_map_fst] at hle

/-! ### The right-hand sides after the pivot -/

/-- Every right-hand side moves by its coefficient times the ratio of the row that leaves. -/
theorem exists_rhs_pivot {r i : ℕ} {row old : Row ℚ} (hrow : t.rows[r]? = some row)
    (hold : t.rows[i]? = some old) :
    ∃ new, (t.pivot r j).rows[i]? = some new
      ∧ ((i = r ∧ new.equation.rhs = row.equation.rhs / row.equation.coeff j)
        ∨ (i ≠ r ∧ new.equation.rhs = old.equation.rhs
          - old.equation.coeff j * (row.equation.rhs / row.equation.coeff j))) := by
  refine ⟨_, by rw [getElem?_rows_pivot hrow, hold, Option.map_some], ?_⟩
  by_cases hir : i = r
  · rw [if_pos hir]
    exact .inl ⟨hir, rfl⟩
  · rw [if_neg hir]
    exact .inr ⟨hir, Equation.rhs_clear ..⟩

/-- **After the pivot** a row that limited the column is negative by its coefficient times the drift
at most, and a row that the column does not lower is not negative. -/
theorem Nonnegative.exists_rhs_pivot (n : t.Nonnegative) (hτ : 0 ≤ τ) {c : Candidate ℚ}
    (h : t.leaving? τ j = some c) {i : ℕ} {old : Row ℚ} (hold : t.rows[i]? = some old) :
    ∃ new, (t.pivot c.row j).rows[i]? = some new
      ∧ (τ < old.equation.coeff j →
        -(old.equation.coeff j * drift (t.numLimits τ j)) ≤ new.equation.rhs)
      ∧ (old.equation.coeff j ≤ 0 → 0 ≤ new.equation.rhs) := by
  obtain ⟨row, hrow, hcoeff, hc⟩ := leaving?_eq_some h
  have hratio : c.ratio = row.equation.rhs / row.equation.coeff j := congrArg Candidate.ratio hc
  have positive : 0 < row.equation.coeff j := hτ.trans_lt (not_le.mp hcoeff)
  have step : 0 ≤ row.equation.rhs / row.equation.coeff j :=
    div_nonneg (n row (List.mem_of_getElem? hrow)) positive.le
  have competes : 0 < t.numLimits τ j :=
    List.countP_pos_iff.mpr ⟨row, List.mem_of_getElem? hrow, limits_iff.mpr hcoeff⟩
  obtain ⟨new, hnew, ⟨rfl, hrhs⟩ | ⟨-, hrhs⟩⟩ := Tableau.exists_rhs_pivot (j := j) hrow hold
  · cases Option.some.inj (hrow.symm.trans hold)
    refine ⟨new, hnew, fun _ => ?_, fun _ => hrhs ▸ step⟩
    have := mul_nonneg positive.le (drift_nonneg competes)
    linarith
  · have hmem := List.mem_of_getElem? hold
    refine ⟨new, hnew, fun hlimits => ?_, fun hneg => ?_⟩
    · have hpos : 0 < old.equation.coeff j := hτ.trans_lt hlimits
      have hle := leaving?_ratio_le h hmem (not_le.mpr hlimits)
      rw [hratio, ← sub_le_iff_le_add, le_div_iff₀ hpos] at hle
      rw [hrhs]
      linarith
    · rw [hrhs]
      linarith [n old hmem, mul_nonpos_of_nonpos_of_nonneg hneg step]

/-! ### Ratio tests of numbers -/

/-- **What a ratio test comes to.**  The row that leaves limits the column, its ratio exceeds no
other by more than the drift, and where no two different ratios count as equal it has the least
ratio, and of the rows with that ratio the least basic variable.  If no right-hand side was negative
before the pivot, those of rows that limited the column are hardly so after it, and those of rows
that the column does not lower are not. -/
structure RatioTest (t : Tableau ExtRat) (tol : ExtRat) (j : ℕ) (c : Candidate ExtRat) : Prop where
  limits : ∃ row, t.rows[c.row]? = some row ∧ tol < row.equation.coeff j ∧ c = .ofRow j row c.row
  nearlyLeast : ∀ row ∈ t.rows, tol < row.equation.coeff j →
    c.ratio ≤ row.equation.rhs / row.equation.coeff j + num (drift (t.numLimits tol j))
  first : t.Separated tol j → ∀ (i : ℕ) (row : Row ExtRat), t.rows[i]? = some row → i ≠ c.row →
    tol < row.equation.coeff j → c.ratio < row.equation.rhs / row.equation.coeff j
      ∨ (c.ratio = row.equation.rhs / row.equation.coeff j ∧ c.basic < row.basic)
  afterPivot : (∀ row ∈ t.rows, 0 ≤ row.equation.rhs) →
    ∀ (i : ℕ) (row : Row ExtRat), t.rows[i]? = some row →
      ∃ new, (t.pivot c.row j).rows[i]? = some new
        ∧ (tol < row.equation.coeff j →
          -(row.equation.coeff j * num (drift (t.numLimits tol j))) ≤ new.equation.rhs)
        ∧ (row.equation.coeff j ≤ 0 → 0 ≤ new.equation.rhs)

theorem lt_coeff_embed_iff {row : Row ℚ} :
    num τ < row.embed.equation.coeff j ↔ τ < row.equation.coeff j := by
  rw [Row.embed, Equation.coeff_embed, ExtRat.num_lt]

theorem numLimits_embed (t : Tableau ℚ) (τ : ℚ) (j : ℕ) :
    t.embed.numLimits (num τ) j = t.numLimits τ j := by
  rw [numLimits, numLimits, embed, List.countP_map]
  refine List.countP_congr fun row _ => ?_
  rw [Function.comp_apply, limits, limits, decide_eq_true_eq, decide_eq_true_eq,
    lt_coeff_embed_iff]

/-- Above an infinite tolerance there is no number, so that no row competes. -/
theorem leaving?_posInf (t : Tableau ℚ) (j : ℕ) :
    t.embed.leaving? .posInf j = none ∧ t.embed.numLimits .posInf j = 0 := by
  have above (row : Row ExtRat) (h : ∃ row' : Row ℚ, row'.embed = row) :
      row.equation.coeff j ≤ .posInf ∧ ¬ .posInf < row.equation.coeff j := by
    obtain ⟨row', rfl⟩ := h
    rw [Row.embed, Equation.coeff_embed]
    exact ⟨ExtRat.num_le_posInf _, ExtRat.not_posInf_lt _⟩
  have numbers : ∀ row ∈ t.embed.rows, ∃ row' : Row ℚ, row'.embed = row := fun row hrow => by
    obtain ⟨row', -, h⟩ := List.mem_map.mp hrow
    exact ⟨row', h⟩
  constructor
  · cases hc : t.embed.leaving? .posInf j with
    | none => rfl
    | some c =>
        obtain ⟨row, hrow, hcoeff, -⟩ := leaving?_eq_some hc
        exact absurd (above row (numbers row (List.mem_of_getElem? hrow))).1 hcoeff
  · rw [numLimits, List.countP_eq_zero]
    intro row hrow
    rw [limits, decide_eq_true_eq]
    exact (above row (numbers row hrow)).2

/-- The ratio test of a tableau of numbers, at a tolerance that is one. -/
theorem ratioTest_embed (hτ : 0 ≤ τ) (distinct : (t.rows.map Row.basic).Nodup) {c : Candidate ℚ}
    (h : t.leaving? τ j = some c) : t.embed.RatioTest (num τ) j c.embed where
  limits := by
    obtain ⟨row, hrow, hcoeff, hc⟩ := leaving?_eq_some h
    refine ⟨row.embed, by rw [getElem?_rows_embed, Candidate.embed, hrow, Option.map_some],
      lt_coeff_embed_iff.mpr (not_le.mp hcoeff), ?_⟩
    rw [ofRow_embed fun hzero => hcoeff (hzero.trans_le hτ)]
    exact congrArg Candidate.embed hc
  nearlyLeast := by
    rw [embed, List.forall_mem_map]
    intro row hrow hcoeff
    have hcoeff' := lt_coeff_embed_iff.mp hcoeff
    change _ ≤ _ + num (drift (t.embed.numLimits (num τ) j))
    rw [ratio_embed (hτ.trans_lt hcoeff').ne', numLimits_embed, ExtRat.num_add]
    exact ExtRat.num_le.mpr (leaving?_ratio_le h hrow (not_le.mpr hcoeff'))
  first sep i row hrow hne hcoeff := by
    rw [getElem?_rows_embed, Option.map_eq_some_iff] at hrow
    obtain ⟨row, hrow, rfl⟩ := hrow
    have hcoeff' := lt_coeff_embed_iff.mp hcoeff
    rw [ratio_embed (hτ.trans_lt hcoeff').ne']
    rcases ((separated_embed_iff hτ).mp sep).precedes h hrow (not_le.mpr hcoeff') with
      hless | ⟨hequal, hbasic⟩
    · exact .inl (ExtRat.num_lt.mpr hless)
    · refine .inr ⟨congrArg num hequal, hbasic.lt_of_ne fun hsame => hne ?_⟩
      obtain ⟨own, hown, -, hc⟩ := leaving?_eq_some h
      have hlength := (List.getElem?_eq_some_iff.mp hrow).1
      refine (List.getElem?_inj (by simpa using hlength) distinct).mp ?_
      rw [List.getElem?_map, List.getElem?_map, hrow]
      change _ = Option.map Row.basic (t.rows[c.row]?)
      rw [hown]
      exact congrArg some (hsame.symm.trans (congrArg Candidate.basic hc))
  afterPivot n i row hrow := by
    rw [getElem?_rows_embed, Option.map_eq_some_iff] at hrow
    obtain ⟨row, hrow, rfl⟩ := hrow
    have nonneg : t.Nonnegative := fun row hrow =>
      ExtRat.num_le.mp (n row.embed (List.mem_map_of_mem hrow))
    obtain ⟨own, hown, hcoeff, -⟩ := leaving?_eq_some h
    obtain ⟨new, hnew, hlimits, hneg⟩ := nonneg.exists_rhs_pivot hτ h hrow
    refine ⟨new.embed, ?_, fun h => ?_, fun h => ?_⟩
    · change (t.embed.pivot c.row j).rows[i]? = _
      rw [pivot_embed_of_row hown fun hzero => hcoeff (hzero.trans_le hτ), getElem?_rows_embed,
        hnew, Option.map_some]
    · rw [numLimits_embed, Row.embed, Equation.coeff_embed, ExtRat.num_mul, ExtRat.num_neg]
      exact ExtRat.num_le.mpr (hlimits (lt_coeff_embed_iff.mp h))
    · rw [Row.embed, Equation.coeff_embed] at h
      exact ExtRat.num_le.mpr (hneg (ExtRat.num_le.mp h))

/-- **Every ratio test of numbers.**  At a tolerance that is not negative, and with distinct basic
variables, no row leaves just when none limits the column; otherwise the row that leaves is as
`RatioTest` says. -/
theorem leaving?_sound {t : Tableau ℚ} {tol : ExtRat} (htol : 0 ≤ tol)
    (distinct : (t.rows.map Row.basic).Nodup) (j : ℕ) :
    (t.embed.leaving? tol j = none ↔ t.embed.numLimits tol j = 0)
      ∧ ∀ c, t.embed.leaving? tol j = some c → t.embed.RatioTest tol j c := by
  rcases ExtRat.nonneg_cases htol with rfl | ⟨τ, rfl, hτ⟩
  · obtain ⟨none, zero⟩ := leaving?_posInf t j
    exact ⟨iff_of_true none zero, fun c hc => nomatch none.symm.trans hc⟩
  · rw [leaving?_embed hτ, Option.map_eq_none_iff, leaving?_eq_none_iff, numLimits_embed]
    refine ⟨Iff.rfl, fun c hc => ?_⟩
    obtain ⟨c, hleaving, rfl⟩ := Option.map_eq_some_iff.mp hc
    exact ratioTest_embed hτ distinct hleaving

/-- Three rows that each are in a near tie with the next, with ratios `1`, `1 + 9/10 w` and
`1 + 18/10 w` for the tie width `w`, and falling basic variables. -/
def staircase : Tableau ℚ where
  structural := 1
  firstArtificial := 4
  columns := 4
  rows := [⟨3, [1, 0, 0, 1], 1⟩, ⟨2, [1, 0, 1, 0], 1 + 9 / 10 ^ 13⟩,
    ⟨1, [1, 1, 0, 0], 1 + 18 / 10 ^ 13⟩]
  objective := ⟨[-1, 0, 0, 0], 0⟩

/-- On the staircase the row with the greatest ratio leaves, close to two tie widths above the
least. -/
theorem leaving?_sound_staircase :
    (0 : ExtRat) ≤ 1e-9 ∧ (staircase.rows.map Row.basic).Nodup
      ∧ staircase.embed.leaving? 1e-9 0 = some ⟨2, 1, num (1 + 18 / 10 ^ 13)⟩
      ∧ staircase.embed.numLimits 1e-9 0 = 3
      ∧ staircase.embed.RatioTest 1e-9 0 ⟨2, 1, num (1 + 18 / 10 ^ 13)⟩ := by
  have tol : (0 : ExtRat) ≤ 1e-9 := by decide +kernel
  have distinct : (staircase.rows.map Row.basic).Nodup := by decide
  have leaves : staircase.embed.leaving? 1e-9 0 = some ⟨2, 1, num (1 + 18 / 10 ^ 13)⟩ := by
    decide +kernel
  exact ⟨tol, distinct, leaves, by decide +kernel, (leaving?_sound tol distinct 0).2 _ leaves⟩

end Tableau

end IntegerProgramming.LinearProgram
