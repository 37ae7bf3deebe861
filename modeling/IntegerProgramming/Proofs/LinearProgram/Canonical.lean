import Mathlib
import IntegerProgramming.Proofs.LinearProgram.Bases

/-!
# Tableaus — exchanges

A pivot on a coefficient other than zero exchanges a basic variable for another.  Whatever its sign,
and whatever becomes of the right-hand sides, the tableau goes on *restating* the system that it
began with (`Tableau.Restates`), and an objective row that says what a value of the solutions is,
without using a basic variable, goes on doing so (`Tableau.Canonical`).

* `Tableau.Exchanges`: any number of exchanges.
* `Tableau.Restates.exchanges`, `Tableau.Canonical.exchanges`: **exchanges keep the system, and what
  the objective row says of it.**
-/

namespace IntegerProgramming.LinearProgram.Tableau

variable {s t u : Tableau ℚ} {value : (ℕ → ℚ) → ℚ} {limit r j : ℕ} {row : Row ℚ}

/-- A tableau with the shape and the solutions of another, and a basis. -/
structure Restates (s t : Tableau ℚ) : Prop where
  structural : t.structural = s.structural
  firstArtificial : t.firstArtificial = s.firstArtificial
  columns : t.columns = s.columns
  length : t.rows.length = s.rows.length
  solves : ∀ v, t.Solves v ↔ s.Solves v
  basis : t.Basis

/-- Its objective row says what a value of the solutions is, without using a basic variable. -/
structure Canonical (s : Tableau ℚ) (value : (ℕ → ℚ) → ℚ) (t : Tableau ℚ) : Prop
    extends Restates s t where
  priced : t.Priced
  means : t.Means value

theorem Basis.restates (b : t.Basis) : Restates t t := ⟨rfl, rfl, rfl, rfl, fun _ => Iff.rfl, b⟩

/-- Only the columns have coefficients. -/
theorem Basis.lt_columns (b : t.Basis) (hrow : row ∈ t.rows) (hj : row.equation.coeff j ≠ 0) :
    j < t.columns := by
  refine lt_of_not_ge fun hle => hj (Equation.coeff_of_le ?_)
  rwa [b.length row hrow]

theorem Restates.pivot (w : Restates s t) (hrow : t.rows[r]? = some row)
    (hj : row.equation.coeff j ≠ 0) : Restates s (t.pivot r j) where
  structural := (structural_pivot t r j).trans w.structural
  firstArtificial := (firstArtificial_pivot t r j).trans w.firstArtificial
  columns := (columns_pivot t r j).trans w.columns
  length := (length_rows_pivot t r j).trans w.length
  solves v := (w.basis.solves_pivot_iff hrow hj).trans (w.solves v)
  basis := w.basis.pivot hrow hj (w.basis.lt_columns (List.mem_of_getElem? hrow) hj)

theorem Canonical.pivot (d : Canonical s value t) (hrow : t.rows[r]? = some row)
    (hj : row.equation.coeff j ≠ 0) : Canonical s value (t.pivot r j) :=
  ⟨d.toRestates.pivot hrow hj, d.priced.pivot d.basis hrow hj, d.means.pivot d.basis hrow hj⟩

/-! ### Exchanges -/

/-- Pivots in columns below `limit`, each on a coefficient other than zero, lead from one tableau to
another. -/
inductive Exchanges (limit : ℕ) : Tableau ℚ → Tableau ℚ → Prop where
  | refl (t : Tableau ℚ) : Exchanges limit t t
  | step {t u : Tableau ℚ} {r j : ℕ} {row : Row ℚ} (hrow : t.rows[r]? = some row)
      (hj : row.equation.coeff j ≠ 0) (hlimit : j < limit)
      (rest : Exchanges limit (t.pivot r j) u) : Exchanges limit t u

theorem Exchanges.trans {w : Tableau ℚ} (first : Exchanges limit t u)
    (second : Exchanges limit u w) : Exchanges limit t w := by
  induction first with
  | refl => exact second
  | step hrow hj hlimit _ ih => exact .step hrow hj hlimit (ih second)

/-- What every exchange keeps, any number of them keeps. -/
theorem Exchanges.invariant {P : Tableau ℚ → Prop} (run : Exchanges limit t u) (start : P t)
    (keeps : ∀ (t : Tableau ℚ) (r j : ℕ) (row : Row ℚ), P t → t.rows[r]? = some row →
      row.equation.coeff j ≠ 0 → j < limit → P (t.pivot r j)) : P u := by
  induction run with
  | refl => exact start
  | step hrow hj hlimit _ ih => exact ih (keeps _ _ _ _ start hrow hj hlimit)

theorem Exchanges.firstArtificial (run : Exchanges limit t u) :
    u.firstArtificial = t.firstArtificial :=
  run.invariant (P := fun u => u.firstArtificial = t.firstArtificial) rfl
    fun u r j _ hu _ _ _ => (firstArtificial_pivot u r j).trans hu

/-- **Exchanges keep the system.** -/
theorem Restates.exchanges (w : Restates s t) (run : Exchanges limit t u) : Restates s u :=
  run.invariant w fun _ _ _ _ w hrow hj _ => w.pivot hrow hj

/-- **Exchanges keep what the objective row says.** -/
theorem Canonical.exchanges (d : Canonical s value t) (run : Exchanges limit t u) :
    Canonical s value u :=
  run.invariant d fun _ _ _ _ d hrow hj _ => d.pivot hrow hj

/-- A column with a negative coefficient in the objective is not basic. -/
theorem Canonical.nonbasic_of_neg (d : Canonical s value t) (h : t.objective.coeff j < 0) :
    ∀ row ∈ t.rows, row.basic ≠ j := by
  intro row hrow hbasic
  rw [← hbasic, d.priced row hrow] at h
  exact lt_irrefl 0 h

end IntegerProgramming.LinearProgram.Tableau
