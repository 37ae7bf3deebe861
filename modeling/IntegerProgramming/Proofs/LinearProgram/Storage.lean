import Mathlib
import IntegerProgramming.Relaxation
import IntegerProgramming.Proofs.Denotation

/-!
# Simplex — storage does not show

A tableau is dense.  A constraint enters it by its coefficients written out (`Constraint.Same`), so
two programs whose matrices have the same rows start at the same tableau, and what follows is the
same: every pivot, the verdict, and the reason if the data are not accepted.

* `Tableau.start_eq_of_same`: **the same coefficients make the same tableau.**
* `LinearProgram.solve_eq_of_stores`, `askSimplex_eq_of_stores`: **the method, and the oracle that
  runs it, cannot tell matrices with the same rows apart.**
-/

namespace IntegerProgramming

open SparseMatrix (denseRow)

namespace LinearProgram

/-! ### The tableau at the start -/

/-- The constraints have the same coefficients on `n` variables, and the same limit. -/
structure Constraint.Same (n : ℕ) (c c' : Constraint ExtRat) : Prop where
  coefficients : denseRow n c'.terms = denseRow n c.terms
  limit : c'.limit = c.limit

variable {n : ℕ} {c c' : Constraint ExtRat} {cs cs' : List (Constraint ExtRat)}

theorem Constraint.Same.refl (c : Constraint ExtRat) : c.Same n c := ⟨rfl, rfl⟩

namespace Tableau

/-- The terms of a row with a sign, written out. -/
theorem foldl_set_eq_map {sign : ExtRat} (h : sign * 0 = 0) (n : ℕ) (terms : List (ℕ × ExtRat)) :
    terms.foldl (fun row (j, v) => row.set j (sign * v)) (List.replicate n 0)
      = (denseRow n terms).map (sign * ·) := by
  induction terms using List.reverseRecOn with
  | nil => rw [List.foldl_nil, denseRow, List.foldl_nil, List.map_replicate, h]
  | append_singleton terms term ih =>
      rw [List.foldl_append, ih, SparseMatrix.denseRow_append_singleton, List.map_set]
      rfl

theorem startRow_eq_of_same (h : c.Same n c') (m k i a : ℕ) :
    startRow n m k i a c' = startRow n m k i a c := by
  have negated : (-1 : ExtRat) * 0 = 0 := by
    rw [ExtRat.one_eq, ExtRat.zero_eq, ExtRat.num_neg, ExtRat.num_mul, mul_zero]
  have kept : (1 : ExtRat) * 0 = 0 := by
    rw [ExtRat.one_eq, ExtRat.zero_eq, ExtRat.num_mul, mul_zero]
  simp only [startRow, h.limit]
  split
  · rw [foldl_set_eq_map negated, foldl_set_eq_map negated, h.coefficients]
  · rw [foldl_set_eq_map kept, foldl_set_eq_map kept, h.coefficients]

theorem startRows_eq_of_same (h : List.Forall₂ (Constraint.Same n) cs cs') (m k i a : ℕ) :
    startRows n m k i a cs' = startRows n m k i a cs := by
  induction h generalizing i a with
  | nil => rfl
  | cons head _ ih => rw [startRows, startRows, startRow_eq_of_same head, head.limit, ih]

theorem countP_eq_of_same (h : List.Forall₂ (Constraint.Same n) cs cs') :
    cs'.countP (fun c => decide (c.limit < 0)) = cs.countP (fun c => decide (c.limit < 0)) := by
  induction h with
  | nil => rfl
  | cons head _ ih => rw [List.countP_cons, List.countP_cons, head.limit, ih]

/-- **The same coefficients make the same tableau.** -/
theorem start_eq_of_same (h : List.Forall₂ (Constraint.Same n) cs cs') :
    start n cs' = start n cs := by
  rw [start, start, ← h.length_eq, countP_eq_of_same h, startRows_eq_of_same h]

end Tableau

/-! ### The whole method -/

variable {objective limits : List ExtRat} {A B : SparseMatrix ExtRat} {box : Box ExtRat}
  {M : List (List ExtRat)}

theorem zipWith_mk_same {rows rows' : List (List (ℕ × ExtRat))}
    (h : List.Forall₂ (fun row row' => denseRow n row' = denseRow n row) rows rows')
    (limits : List ExtRat) :
    List.Forall₂ (Constraint.Same n) (List.zipWith Constraint.mk rows limits)
      (List.zipWith Constraint.mk rows' limits) := by
  induction h generalizing limits with
  | nil => exact .nil
  | cons head _ ih =>
      cases limits with
      | nil => exact .nil
      | cons limit limits => exact .cons ⟨head, rfl⟩ (ih limits)

/-- Matrices with the same rows make the same constraints. -/
theorem constraints_same (h : A.Stores n M) (h' : B.Stores n M) :
    List.Forall₂ (Constraint.Same n) (constraints ⟨objective, A, limits, box⟩)
      (constraints ⟨objective, B, limits, box⟩) := by
  have rows : List.Forall₂ (fun row row' => denseRow n row' = denseRow n row)
      A.rowEntries B.rowEntries := by
    have same : B.rowEntries.map (denseRow n) = A.rowEntries.map (denseRow n) := by
      have toRows := h'.toRows.trans h.toRows.symm
      rwa [SparseMatrix.toRows, SparseMatrix.toRows, h.cols, h'.cols] at toRows
    rw [← List.forall₂_eq_eq_eq, List.forall₂_map_left_iff, List.forall₂_map_right_iff] at same
    exact same.flip
  have others (cs : List (Constraint ExtRat)) : List.Forall₂ (Constraint.Same n) cs cs :=
    List.forall₂_same.mpr fun c _ => .refl c
  exact List.rel_append (List.rel_append (zipWith_mk_same rows limits) (others _)) (others _)

theorem optimum_eq_of_stores (h : A.Stores objective.length M) (h' : B.Stores objective.length M)
    (s : Settings ExtRat) :
    optimum ⟨objective, B, limits, box⟩ s = optimum ⟨objective, A, limits, box⟩ s := by
  have start : startTableau ⟨objective, B, limits, box⟩
      = startTableau ⟨objective, A, limits, box⟩ :=
    Tableau.start_eq_of_same (constraints_same h h')
  rw [optimum, optimum, start]

theorem validate_eq_of_stores (h : A.Stores n M) (h' : B.Stores n M) :
    validate ⟨objective, B, limits, box⟩ = validate ⟨objective, A, limits, box⟩ := by
  have finite : B.values.all isFinite = A.values.all isFinite :=
    Bool.eq_iff_iff.mpr (h'.all_isFinite_iff.trans h.all_isFinite_iff.symm)
  have shape : shapeError? ⟨objective, B, limits, box⟩
      = shapeError? ⟨objective, A, limits, box⟩ := by
    simp only [shapeError?, h.rows, h'.rows, h.cols, h'.cols]
    rfl
  have data : dataError? ⟨objective, B, limits, box⟩ = dataError? ⟨objective, A, limits, box⟩ := by
    simp only [dataError?, finite]
  rw [validate, validate, error?, error?, shape, data]
  rfl

/-- **The method cannot tell matrices with the same rows apart.** -/
theorem solve_eq_of_stores (h : A.Stores n M) (h' : B.Stores n M) (s : Settings ExtRat) :
    solve ⟨objective, B, limits, box⟩ s = solve ⟨objective, A, limits, box⟩ s := by
  rw [solve, solve, validate_eq_of_stores h h']
  cases valid : validate ⟨objective, A, limits, box⟩ with
  | error err => rfl
  | ok _ =>
      obtain ⟨program, -⟩ := validate_eq_ok_iff_program.mp valid
      obtain ⟨rfl, -⟩ := (Program.validate_eq_ok_iff_of_stores h).mp program
      exact congrArg Except.ok (optimum_eq_of_stores h h' s)

end LinearProgram

/-! ### The oracle -/

variable {objective limits : List ExtRat} {A B : SparseMatrix ExtRat} {n : ℕ}
  {M : List (List ExtRat)}

theorem Subproblem.solve_eq_of_stores (h : A.Stores n M) (h' : B.Stores n M)
    (changes : List (BoundChange ExtRat)) (box : Box ExtRat) (s : LinearProgram.Settings ExtRat) :
    ((Subproblem.mk ⟨objective, B, limits⟩ changes).linearProgram box).bind (·.solve s)
      = ((Subproblem.mk ⟨objective, A, limits⟩ changes).linearProgram box).bind (·.solve s) := by
  simp only [linearProgram, LinearProgram.new, LinearProgram.checked,
    LinearProgram.validate_eq_of_stores h h']
  cases LinearProgram.validate ⟨objective, A, limits, .nonnegative objective.length⟩ with
  | error err => rfl
  | ok _ =>
      simp only [Except.map, Except.bind, LinearProgram.withBox, LinearProgram.checked,
        LinearProgram.validate_eq_of_stores h h']
      cases LinearProgram.validate ⟨objective, A, limits, box⟩ with
      | error err => rfl
      | ok _ => exact LinearProgram.solve_eq_of_stores h h' s

/-- **The simplex oracle cannot tell matrices with the same rows apart.** -/
theorem askSimplex_eq_of_stores (h : A.Stores n M) (h' : B.Stores n M)
    (changes : List (BoundChange ExtRat)) (s : LinearProgram.Settings ExtRat) (e : Effort) :
    askSimplex s ⟨⟨objective, B, limits⟩, changes⟩ e
      = askSimplex s ⟨⟨objective, A, limits⟩, changes⟩ e := by
  have box : (Subproblem.mk ⟨objective, B, limits⟩ changes).box?
      = (Subproblem.mk ⟨objective, A, limits⟩ changes).box? := rfl
  simp only [askSimplex, box, Subproblem.solve_eq_of_stores h h']

end IntegerProgramming
