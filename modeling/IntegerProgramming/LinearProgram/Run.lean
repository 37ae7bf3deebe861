import IntegerProgramming.LinearProgram.Simplex

/-!
# Linear programs — the pivots of a phase

`Pivots tol limit t n u`: from the tableau `t` the method makes `n` pivots and is then at `u`.

* `pivots_optimize`: a phase ends at a tableau that the method reaches, after the pivots it
  counts.
* `move_of_ending_optimal`, `move_of_ending_unbounded`, `pivots_of_ending_pivotLimit`: what each
  ending says of the last tableau, or of the number of pivots.
-/

namespace IntegerProgramming.LinearProgram

variable {α : Type} [Arith α]

/-- `n` pivots of the method lead from one tableau to another. -/
inductive Pivots (tol : α) (limit : Nat) : Tableau α → Nat → Tableau α → Prop where
  | refl (t : Tableau α) : Pivots tol limit t 0 t
  | step {t u : Tableau α} {r j n : Nat} (h : t.move tol limit = .pivot r j)
      (rest : Pivots tol limit (t.pivot r j) n u) : Pivots tol limit t (n + 1) u

/-- What every pivot of the method keeps, a run of them keeps. -/
theorem Pivots.invariant {tol : α} {limit : Nat} {P : Tableau α → Prop}
    (keeps : ∀ t r j, P t → t.move tol limit = .pivot r j → P (t.pivot r j))
    {t u : Tableau α} {n : Nat} (run : Pivots tol limit t n u) (start : P t) : P u := by
  induction run with
  | refl => exact start
  | step h _ ih => exact ih (keeps _ _ _ start h)

/-- A tableau without an entering column is optimal. -/
theorem Tableau.move_eq_optimal_iff {t : Tableau α} {tol : α} {limit : Nat} :
    t.move tol limit = .optimal ↔ t.entering? tol limit = none := by
  unfold Tableau.move
  cases he : t.entering? tol limit with
  | none => simp
  | some j => cases hl : t.leaving? tol j <;> simp [hl]

theorem pivots_optimize (tol : α) (limit budget : Nat) (t : Tableau α) :
    Pivots tol limit t (t.optimize tol limit budget).pivots
      (t.optimize tol limit budget).tableau := by
  induction budget generalizing t with
  | zero =>
    unfold Tableau.optimize
    split
    · exact .refl t
    · exact .refl t
  | succ budget ih =>
    unfold Tableau.optimize
    split
    · exact .refl t
    · exact .refl t
    · rename_i r j h
      exact .step h (ih (t.pivot r j))

theorem move_of_ending_optimal {tol : α} {limit budget : Nat} {t : Tableau α}
    (h : (t.optimize tol limit budget).ending = .optimal) :
    (t.optimize tol limit budget).tableau.move tol limit = .optimal := by
  induction budget generalizing t with
  | zero =>
    unfold Tableau.optimize at h ⊢
    split at h
    · rename_i he
      exact Tableau.move_eq_optimal_iff.mpr he
    · cases h
  | succ budget ih =>
    unfold Tableau.optimize at h ⊢
    split at h
    · rename_i hm
      exact hm
    · cases h
    · exact ih h

theorem move_of_ending_unbounded {tol : α} {limit budget : Nat} {t : Tableau α}
    (h : (t.optimize tol limit budget).ending = .unbounded) :
    ∃ j, (t.optimize tol limit budget).tableau.move tol limit = .unbounded j := by
  induction budget generalizing t with
  | zero =>
    unfold Tableau.optimize at h
    split at h
    · cases h
    · cases h
  | succ budget ih =>
    unfold Tableau.optimize at h ⊢
    split at h
    · cases h
    · rename_i j hm
      exact ⟨j, hm⟩
    · exact ih h

theorem pivots_of_ending_pivotLimit {tol : α} {limit budget : Nat} {t : Tableau α}
    (h : (t.optimize tol limit budget).ending = .pivotLimit) :
    (t.optimize tol limit budget).pivots = budget := by
  induction budget generalizing t with
  | zero =>
    unfold Tableau.optimize
    split
    · rfl
    · rfl
  | succ budget ih =>
    unfold Tableau.optimize at h ⊢
    split at h
    · cases h
    · cases h
    · exact congrArg (· + 1) (ih h)

end IntegerProgramming.LinearProgram
