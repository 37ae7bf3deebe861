import Mathlib
import IntegerProgramming.LinearProgram.Basic
import IntegerProgramming.Program
import IntegerProgramming.Proofs.Intervals
import IntegerProgramming.Proofs.SparseMatrix

/-!
# Linear programs — acceptance

A linear program is accepted just when the integer program with its data is, and its box has an
interval for each variable, from a finite end that is not negative to a defined one.  The tests are
in a fixed order, of which the three groups keep nothing once they are all passed.

* `LinearProgram.validate_eq_ok_iff_program`: **what is accepted**, over any numbers.
* `Program.exists_ofSource_dense_iff`, `LinearProgram.exists_ofSource_dense_iff`: dense data are
  accepted for an integer program just when they are accepted for a linear one, if the shapes agree
  and every number is finite, those that are not stored included.
-/

namespace IntegerProgramming.LinearProgram

variable {α : Type} [Scalar α]

theorem firstNonFinite_eq_none_iff {xs : List α} :
    firstNonFinite xs = none ↔ xs.all isFinite = true := by
  rw [firstNonFinite, Option.map_eq_none_iff, List.find?_eq_none, List.all_eq_true]
  constructor
  · intro h a ha
    obtain ⟨i, hi⟩ := List.mem_iff_getElem?.mp ha
    simpa using h (a, i) (List.mk_mem_zipIdx_iff_getElem?.mpr hi)
  · rintro h ⟨a, i⟩ hi
    simpa using h a (List.mem_of_getElem? (List.mk_mem_zipIdx_iff_getElem?.mp hi))

omit [Scalar α] in
theorem shapeError?_eq_none_iff {p : LinearProgram α} :
    p.shapeError? = none ↔ (p.matrix.rows = p.numConstraints ∧ p.matrix.cols = p.numVars)
      ∧ p.box.lower.length = p.numVars ∧ p.box.upper.length = p.numVars := by
  rw [shapeError?]
  by_cases rows : p.matrix.rows = p.numConstraints
  · by_cases cols : p.matrix.cols = p.numVars
    · simp [rows, cols, not_or]
    · simp [rows, cols]
  · simp [rows]

theorem dataError?_eq_none_iff {p : LinearProgram α} :
    p.dataError? = none ↔ Program.hasFiniteData ⟨p.objective, p.matrix, p.limits⟩ = true := by
  rw [Program.hasFiniteData, Bool.and_eq_true, Bool.and_eq_true, ← firstNonFinite_eq_none_iff,
    ← firstNonFinite_eq_none_iff, dataError?]
  cases firstNonFinite p.objective <;> cases firstNonFinite p.limits <;> simp

theorem intervalError?_eq_none_iff {j : ℕ} {lower upper : α} :
    intervalError? j lower upper = none
      ↔ (isFinite lower = true ∧ ¬ lower < 0) ∧ isUndefined upper = false := by
  rw [intervalError?]
  cases isFinite lower with
  | false => simp
  | true =>
      by_cases negative : lower < 0
      · simp [negative]
      · simp [negative]

theorem boxError?_eq_none_iff {p : LinearProgram α} :
    p.boxError? = none ↔ ∀ ends ∈ List.zip p.box.lower p.box.upper,
      (isFinite ends.1 = true ∧ ¬ ends.1 < 0) ∧ isUndefined ends.2 = false := by
  simp only [boxError?, List.findSome?_eq_none_iff, intervalError?_eq_none_iff]
  constructor
  · intro h ends hends
    obtain ⟨j, hj⟩ := List.mem_iff_getElem?.mp hends
    exact h (ends, j) (List.mk_mem_zipIdx_iff_getElem?.mpr hj)
  · rintro h ⟨ends, j⟩ hj
    exact h ends (List.mem_of_getElem? (List.mk_mem_zipIdx_iff_getElem?.mp hj))

/-- **What is accepted**: the data of an accepted integer program, and an interval for each
variable. -/
theorem validate_eq_ok_iff_program {p : LinearProgram α} :
    p.validate = .ok () ↔ Program.validate ⟨p.objective, p.matrix, p.limits⟩ = .ok ()
      ∧ (p.box.lower.length = p.numVars ∧ p.box.upper.length = p.numVars)
      ∧ ∀ ends ∈ List.zip p.box.lower p.box.upper,
        (isFinite ends.1 = true ∧ ¬ ends.1 < 0) ∧ isUndefined ends.2 = false := by
  rw [validate_eq_ok_iff, shapeError?_eq_none_iff, dataError?_eq_none_iff, boxError?_eq_none_iff,
    Program.validate_eq_ok_iff]
  constructor
  · rintro ⟨⟨⟨hrows, hcols⟩, hends⟩, hdata, hbox⟩
    exact ⟨⟨hrows, hcols, hdata⟩, hends, hbox⟩
  · rintro ⟨⟨hrows, hcols, hdata⟩, hends, hbox⟩
    exact ⟨⟨⟨hrows, hcols⟩, hends⟩, hdata, hbox⟩

/-- With nonnegative variables, a linear program is accepted just when the integer program is. -/
theorem validate_nonnegative_iff [LawfulScalar α] {objective limits : List α}
    {matrix : SparseMatrix α} :
    validate ⟨objective, matrix, limits, .nonnegative objective.length⟩ = .ok ()
      ↔ Program.validate ⟨objective, matrix, limits⟩ = .ok () := by
  have ends := Box.ends_nonnegative (α := α)
    (P := fun l => isFinite l = true ∧ ¬ l < 0) (Q := (isUndefined · = false))
    ⟨LawfulScalar.finite_zero, LawfulScalar.lt_irrefl 0⟩ LawfulScalar.defined_infinity
    objective.length
  rw [validate_eq_ok_iff_program]
  refine and_iff_left ⟨⟨?_, ?_⟩, fun pair hpair => ?_⟩
  · exact Box.length_lower_nonnegative _
  · exact Box.length_upper_nonnegative _
  · obtain ⟨hl, hu⟩ := List.of_mem_zip hpair
    exact ⟨ends.lower _ hl, ends.upper _ hu⟩

end IntegerProgramming.LinearProgram

namespace IntegerProgramming

open SparseMatrix (nonzeros)

/-! ### Dense data -/

variable {α : Type} [Scalar α] [LawfulNumbers α]

/-- The numbers of a row are finite if those that are stored are. -/
theorem SparseMatrix.all_isFinite_nonzeros (row : List α) :
    (∀ entry ∈ nonzeros row, isFinite entry.2 = true) ↔ ∀ v ∈ row, isFinite v = true := by
  constructor
  · intro stored v hv
    obtain ⟨j, hj⟩ := List.mem_iff_getElem?.mp hv
    cases hzero : v == 0 with
    | true => exact LawfulScalar.isFinite_of_beq hzero LawfulScalar.finite_zero
    | false =>
        exact stored (j, v) (List.mem_filterMap.mpr
          ⟨(v, j), List.mk_mem_zipIdx_iff_getElem?.mpr hj, by simp [hzero]⟩)
  · intro all entry hentry
    exact all _ (List.fst_mem_of_mem_zipIdx (SparseMatrix.mem_nonzeros hentry))

/-- Dense data of the right shape, all of them finite. -/
structure DenseData (rows : List (List α)) (limits objective : List α) : Prop where
  width : ∀ row ∈ rows, row.length = objective.length
  height : rows.length = limits.length
  objective : ∀ v ∈ objective, isFinite v = true
  limits : ∀ v ∈ limits, isFinite v = true
  rows : ∀ row ∈ rows, ∀ v ∈ row, isFinite v = true

variable {rows : List (List α)} {limits objective : List α}

theorem denseData_iff : DenseData rows limits objective
    ↔ (∀ row ∈ rows, row.length = objective.length) ∧ Program.validate
      ⟨objective, .ofEntries objective.length (rows.map nonzeros), limits⟩ = .ok () := by
  have stored : ((rows.map nonzeros).flatten.map Prod.snd).all isFinite = true
      ↔ ∀ row ∈ rows, ∀ v ∈ row, isFinite v = true := by
    rw [List.all_eq_true, List.forall_mem_map, List.forall_mem_flatten, List.forall_mem_map]
    exact forall₂_congr fun row _ => SparseMatrix.all_isFinite_nonzeros row
  rw [Program.validate_eq_ok_iff, Program.hasFiniteData, Bool.and_eq_true, Bool.and_eq_true,
    SparseMatrix.values_ofEntries, stored, List.all_eq_true, List.all_eq_true,
    SparseMatrix.rows_ofEntries, List.length_map]
  constructor
  · rintro ⟨width, height, hobjective, hlimits, hrows⟩
    exact ⟨width, height, rfl, ⟨hobjective, hlimits⟩, hrows⟩
  · rintro ⟨width, height, -, ⟨hobjective, hlimits⟩, hrows⟩
    exact ⟨width, height, hobjective, hlimits, hrows⟩

/-- Dense data are accepted for an integer program if they are of the right shape and finite. -/
theorem Program.exists_ofSource_dense_iff :
    (∃ p, Program.ofSource (.dense rows) limits objective = .ok p)
      ↔ DenseData rows limits objective := by
  simp only [denseData_iff, Program.ofSource_eq_ok_iff, SparseMatrix.Source.toMatrix,
    SparseMatrix.ofRows_eq_ok_iff]
  constructor
  · rintro ⟨_, _, ⟨width, rfl⟩, rfl, valid⟩
    exact ⟨width, valid⟩
  · rintro ⟨width, valid⟩
    exact ⟨_, _, ⟨width, rfl⟩, rfl, valid⟩

/-- Dense data are accepted for a linear program if they are of the right shape and finite. -/
theorem LinearProgram.exists_ofSource_dense_iff :
    (∃ p, LinearProgram.ofSource objective (.dense rows) limits = .ok p)
      ↔ DenseData rows limits objective := by
  simp only [denseData_iff, LinearProgram.ofSource_eq_ok_iff, SparseMatrix.Source.toMatrix,
    SparseMatrix.ofRows_eq_ok_iff]
  constructor
  · rintro ⟨_, _, ⟨width, rfl⟩, rfl, valid⟩
    exact ⟨width, LinearProgram.validate_nonnegative_iff.mp valid⟩
  · rintro ⟨width, valid⟩
    exact ⟨_, _, ⟨width, rfl⟩, rfl, LinearProgram.validate_nonnegative_iff.mpr valid⟩

end IntegerProgramming
