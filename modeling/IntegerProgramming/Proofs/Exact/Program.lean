import Mathlib
import IntegerProgramming.Program
import IntegerProgramming.Proofs.Exact.Order
import IntegerProgramming.Proofs.SparseMatrix

/-!
# Exact numbers — programs with rational data

An accepted program has finite data only, so over exact numbers it is the image of a program over
the rationals (`Program.exists_embed`).  On the image of a point the objective, the left-hand sides
and the test of the constraints come out as over the rationals.

* `Program.value_embed`, `Program.activities?_embed`: objective and left-hand sides are sums.
* `Program.satisfies_embed_iff`: the test at tolerance zero says that a point is feasible
  (`Program.Feasible`).
* `lattice`: integer points, as rational ones.
-/

namespace IntegerProgramming

open ExtRat (num innerProd)

/-! ### Points -/

/-- A rational point among the exact ones. -/
def nums (x : List ℚ) : List ExtRat := x.map num

/-- An integer point among the rational ones. -/
def lattice (z : List ℤ) : List ℚ := z.map Int.cast

@[simp] theorem length_nums (x : List ℚ) : (nums x).length = x.length := by simp [nums]

@[simp] theorem length_lattice (z : List ℤ) : (lattice z).length = z.length := by simp [lattice]

theorem nums_injective : Function.Injective nums :=
  List.map_injective_iff.mpr fun _ _ h => ExtRat.num.inj h

theorem getD_nums (x : List ℚ) (j : ℕ) : (nums x).getD j 0 = num (x.getD j 0) := by
  rw [nums, ExtRat.zero_eq, List.getD_map]

theorem total_nums (x : List ℚ) : total (nums x) = num x.sum := ExtRat.total_map_num x

/-- A list of finite values is one of rationals. -/
theorem exists_nums {xs : List ExtRat} (h : xs.all isFinite = true) : ∃ qs, xs = nums qs := by
  induction xs with
  | nil => exact ⟨[], rfl⟩
  | cons a rest ih =>
      rw [List.all_cons, Bool.and_eq_true] at h
      obtain ⟨q, rfl⟩ := ExtRat.isFinite_iff.mp h.1
      obtain ⟨qs, rfl⟩ := ih h.2
      exact ⟨q :: qs, rfl⟩

theorem all_isFinite_nums (x : List ℚ) : (nums x).all isFinite = true := by
  rw [List.all_eq_true, nums, List.forall_mem_map]
  exact fun q _ => ExtRat.isFinite_iff.mpr ⟨q, rfl⟩

/-- `Σ coefficient · x_column` over the entries of a row. -/
def rowValue (x : List ℚ) (row : List (ℕ × ℚ)) : ℚ :=
  (row.map fun entry => entry.2 * x.getD entry.1 0).sum

theorem rowProduct_nums (x : List ℚ) (row : List (ℕ × ℚ)) :
    SparseMatrix.rowProduct (nums x) (SparseMatrix.mapRow num row) = num (rowValue x row) := by
  have terms : (SparseMatrix.mapRow num row).map (fun entry => entry.2 * (nums x).getD entry.1 0)
      = nums (row.map fun entry => entry.2 * x.getD entry.1 0) := by
    simp only [SparseMatrix.mapRow, nums, List.map_map]
    refine List.map_congr_left fun entry _ => ?_
    simp only [Function.comp_apply, ← ExtRat.num_mul, ← getD_nums, nums]
  rw [SparseMatrix.rowProduct, terms, total_nums, rowValue]

/-! ### Programs -/

namespace Program

/-- The shapes of a program agree, and its rows are in order. -/
structure Regular {α : Type} (p : Program α) : Prop where
  rows : p.matrix.rowEntries.length = p.limits.length
  sorted : ∀ row ∈ p.matrix.rowEntries, (row.map Prod.fst).Pairwise (· < ·)
  inRange : ∀ row ∈ p.matrix.rowEntries, ∀ entry ∈ row, entry.1 < p.numVars

/-- An accepted program with a well-formed matrix is regular. -/
theorem regular_of_validate {α : Type} [Scalar α] {p : Program α} (valid : p.validate = .ok ())
    (wf : p.matrix.WellFormed) : p.Regular := by
  obtain ⟨hrows, hcols, -⟩ := p.validate_eq_ok_iff.mp valid
  exact ⟨wf.length_rowEntries.trans hrows, wf.sorted, hcols ▸ wf.inRange⟩

/-- A point with a coordinate for each variable has left-hand sides. -/
theorem Regular.activities?_eq {α : Type} [Arith α] {p : Program α} (h : p.Regular) {x : List α}
    (hx : x.length = p.numVars) :
    p.activities? x = some (p.matrix.rowEntries.map (SparseMatrix.rowProduct x)) :=
  SparseMatrix.product?_eq_some (hx ▸ h.inRange)

/-- The test compares each left-hand side with its limit, the tolerance added. -/
theorem Regular.withinLimits_iff {α : Type} [Arith α] {p : Program α} (h : p.Regular)
    {x activities : List α} {tol : α} (hx : x.length = p.numVars)
    (hactivities : p.activities? x = some activities) :
    p.withinLimits activities tol = true
      ↔ List.Forall₂ (fun a b => a ≤ b + tol) activities p.limits := by
  have length : activities.length = p.limits.length := by
    rw [← Option.some.inj ((h.activities?_eq hx).symm.trans hactivities), List.length_map, h.rows]
  simp only [withinLimits, List.all_eq_true, decide_eq_true_eq]
  rw [List.forall₂_iff_zip]
  exact ⟨fun hall => ⟨length, fun {a b} hmem => hall (a, b) hmem⟩, fun hall _ hmem => hall.2 hmem⟩

/-- At tolerance zero the test compares each left-hand side with its limit. -/
theorem Regular.satisfies_zero_iff {p : Program ExtRat} (h : p.Regular) {x : List ExtRat} :
    p.satisfies x 0 = true ↔ x.length = p.numVars ∧ (∀ v ∈ x, ¬ v < 0)
      ∧ ∃ activities, p.activities? x = some activities
        ∧ List.Forall₂ (· ≤ ·) activities p.limits := by
  have negZero : -(0 : ExtRat) = 0 := rfl
  rw [satisfies_iff, negZero]
  refine and_congr_right fun hx => and_congr_right fun _ => exists_congr fun activities =>
    and_congr_right fun hactivities => ?_
  rw [h.withinLimits_iff hx hactivities]
  simp only [ExtRat.add_zero]

/-- A program over the rationals, as one over exact numbers. -/
def embed (P : Program ℚ) : Program ExtRat :=
  ⟨nums P.objective, P.matrix.map num, nums P.limits⟩

@[simp] theorem numVars_embed (P : Program ℚ) : P.embed.numVars = P.numVars :=
  length_nums P.objective

theorem rowEntries_embed (P : Program ℚ) :
    P.embed.matrix.rowEntries = P.matrix.rowEntries.map (SparseMatrix.mapRow num) :=
  SparseMatrix.rowEntries_map num P.matrix

/-- Finite data are rational. -/
theorem exists_embed {p : Program ExtRat} (h : p.hasFiniteData = true) :
    ∃ P : Program ℚ, p = P.embed := by
  obtain ⟨c, A, b⟩ := p
  simp only [hasFiniteData, Bool.and_eq_true] at h
  obtain ⟨⟨hc, hb⟩, hA⟩ := h
  obtain ⟨c, rfl⟩ := exists_nums hc
  obtain ⟨b, rfl⟩ := exists_nums hb
  obtain ⟨values, hvalues⟩ := exists_nums hA
  exact ⟨⟨c, ⟨A.rows, A.cols, A.starts, A.columns, values⟩, b⟩, by
    simp only [embed, SparseMatrix.map]
    rw [← nums, ← hvalues]⟩

theorem Regular.of_embed {P : Program ℚ} (h : P.embed.Regular) : P.Regular := by
  have hrows := rowEntries_embed P
  refine ⟨?_, fun row hrow => ?_, fun row hrow entry hentry => ?_⟩
  · have := h.rows
    rw [hrows, List.length_map] at this
    exact this.trans (length_nums P.limits)
  · have := h.sorted _ (hrows ▸ List.mem_map_of_mem hrow)
    simpa [SparseMatrix.mapRow, Function.comp_def] using this
  · have hrow' : SparseMatrix.mapRow num row ∈ P.embed.matrix.rowEntries :=
      hrows ▸ List.mem_map_of_mem hrow
    have := h.inRange _ hrow' _ (List.mem_map_of_mem hentry)
    rwa [numVars_embed] at this

/-- An accepted program with a well-formed matrix comes from a regular one over the rationals. -/
theorem exists_regular {p : Program ExtRat} (valid : p.validate = .ok ())
    (wf : p.matrix.WellFormed) : ∃ P : Program ℚ, P.Regular ∧ p = P.embed := by
  obtain ⟨P, rfl⟩ := exists_embed (p.validate_eq_ok_iff.mp valid).2.2
  exact ⟨P, .of_embed (regular_of_validate valid wf), rfl⟩

theorem withZeroObjective_embed (P : Program ℚ) :
    P.embed.withZeroObjective = P.withZeroObjective.embed := by
  simp only [withZeroObjective, embed, numVars, length_nums]
  rw [nums.eq_1 (List.replicate _ 0), List.map_replicate, ExtRat.zero_eq]

theorem Regular.withZeroObjective {P : Program ℚ} (h : P.Regular) :
    P.withZeroObjective.Regular :=
  ⟨h.rows, h.sorted, (numVars_withZeroObjective P).symm ▸ h.inRange⟩

/-! ### Objective and constraints at a point -/

theorem value_embed (P : Program ℚ) (x : List ℚ) :
    P.embed.value (nums x) = num (innerProd P.objective x) :=
  ExtRat.dot_map_num P.objective x

theorem activities?_embed {P : Program ℚ} (h : P.Regular) {x : List ℚ}
    (hx : x.length = P.numVars) :
    P.embed.activities? (nums x) = some (nums (P.matrix.rowEntries.map (rowValue x))) := by
  have inRange : ∀ row ∈ P.embed.matrix.rowEntries, ∀ entry ∈ row,
      entry.1 < (nums x).length := by
    intro row hrow entry hentry
    rw [rowEntries_embed, List.mem_map] at hrow
    obtain ⟨source, hsource, rfl⟩ := hrow
    obtain ⟨origin, horigin, rfl⟩ := List.mem_map.mp hentry
    rw [length_nums, hx]
    exact h.inRange source hsource origin horigin
  rw [activities?, SparseMatrix.product?_eq_some inRange, rowEntries_embed, List.map_map]
  refine congrArg some ((List.map_congr_left fun row _ => rowProduct_nums x row).trans ?_)
  rw [nums, List.map_map]
  rfl

/-- No coordinate is below `-t`, and no row exceeds its limit by more than `t`. -/
structure FeasibleWithin (P : Program ℚ) (t : ℚ) (x : List ℚ) : Prop where
  length : x.length = P.numVars
  lower : ∀ v ∈ x, -t ≤ v
  limits : ∀ row ∈ P.matrix.rowEntries.zip P.limits, rowValue x row.1 ≤ row.2 + t

/-- The points with `x ≥ 0` that satisfy every constraint. -/
abbrev Feasible (P : Program ℚ) (x : List ℚ) : Prop := P.FeasibleWithin 0 x

theorem withinLimits_embed_iff {P : Program ℚ} {activities : List ℚ} {t : ℚ} :
    P.embed.withinLimits (nums activities) (num t) = true
      ↔ ∀ row ∈ activities.zip P.limits, row.1 ≤ row.2 + t := by
  simp only [withinLimits, embed, nums, List.zip_map, List.all_map, List.all_eq_true]
  refine forall₂_congr fun row _ => ?_
  simp only [Function.comp_apply, Prod.map, ExtRat.num_add, ExtRat.num_le, decide_eq_true_eq]

theorem satisfies_embed_iff {P : Program ℚ} (h : P.Regular) {x : List ℚ} {t : ℚ} :
    P.embed.satisfies (nums x) (num t) = true ↔ P.FeasibleWithin t x := by
  have lower : (∀ v ∈ nums x, ¬ v < -num t) ↔ ∀ v ∈ x, -t ≤ v := by
    simp [nums, ExtRat.num_neg, ExtRat.num_lt]
  have limits (hx : x.length = P.numVars) : (∃ activities, P.embed.activities? (nums x)
        = some activities ∧ P.embed.withinLimits activities (num t) = true)
      ↔ ∀ row ∈ P.matrix.rowEntries.zip P.limits, rowValue x row.1 ≤ row.2 + t := by
    rw [activities?_embed h hx]
    simp only [Option.some.injEq, exists_eq_left', withinLimits_embed_iff, List.zip_map_left,
      List.forall_mem_map, Prod.map, id]
  rw [satisfies_iff, length_nums, numVars_embed]
  constructor
  · rintro ⟨hx, hl, hr⟩
    exact ⟨hx, lower.mp hl, (limits hx).mp hr⟩
  · intro hf
    exact ⟨hf.length, lower.mpr hf.lower, (limits hf.length).mpr hf.limits⟩

end Program

end IntegerProgramming
