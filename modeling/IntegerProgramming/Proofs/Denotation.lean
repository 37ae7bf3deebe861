import Mathlib
import IntegerProgramming.Proofs.Exact.Program
import IntegerProgramming.Proofs.LinearProgram.Acceptance

/-!
# Sparse matrices — what a matrix denotes

Storage can be read off as dense rows, and a matrix is nothing else: in whatever form its rows are
given (`Source.Denotes`), they are the rows of the stored matrix (`SparseMatrix.Stores`).  Whether
the data are accepted depends on the rows alone.  So does the product with a vector, if no zero that
is stored meets an infinite or undefined coordinate (`SparseMatrix.Absorbs`): the product of the two
is undefined, where an entry that is not stored counts for nothing.

* `SparseMatrix.getElem?_denseRow`, `SparseMatrix.nonzeros_denseRow`: a row written out, and read
  back.
* `SparseMatrix.WellFormed.toRows_transpose`: **the transpose has the columns as its rows**, so that
  it keeps the matrix (`SparseMatrix.keepsMatrix_transpose`).
* `SparseMatrix.Source.Denotes.stores`: the stored matrix has the rows that are given.
* `Program.exists_ofSource_iff`: **what is accepted.**
* `SparseMatrix.Stores.product?_eq`: **the product with a vector.**
-/

namespace IntegerProgramming

namespace ExtRat

theorem beq_zero_iff {a : ExtRat} : (a == 0) = true ↔ a = 0 := by
  refine ⟨fun h => (eq_of_beq h).1, ?_⟩
  rintro rfl
  rfl

theorem zero_mul_of_isFinite {a : ExtRat} (h : isFinite a = true) : 0 * a = 0 := by
  obtain ⟨q, rfl⟩ := isFinite_iff.mp h
  rw [zero_eq, num_mul, zero_mul]

theorem zero_mul_of_not_isFinite {a : ExtRat} (h : ¬ isFinite a = true) : 0 * a = undef := by
  cases a with
  | num q => exact absurd (isFinite_iff.mpr ⟨q, rfl⟩) h
  | posInf | negInf | undef => rfl

end ExtRat

namespace SparseMatrix

/-! ### A row written out -/

section Zero

variable {α : Type} [Zero α] {cols j : ℕ} {row : List (ℕ × α)} {A : SparseMatrix α} {v : α}

theorem denseRow_append_singleton (cols : ℕ) (row : List (ℕ × α)) (entry : ℕ × α) :
    denseRow cols (row ++ [entry]) = (denseRow cols row).set entry.1 entry.2 := by
  rw [denseRow, List.foldl_append]
  rfl

@[simp] theorem length_denseRow (cols : ℕ) (row : List (ℕ × α)) :
    (denseRow cols row).length = cols := by
  induction row using List.reverseRecOn with
  | nil => exact List.length_replicate
  | append_singleton row entry ih => rw [denseRow_append_singleton, List.length_set, ih]

/-- The value in a column of a row: it is stored there, or it is zero and none is. -/
def Shows (row : List (ℕ × α)) (j : ℕ) (v : α) : Prop :=
  (j, v) ∈ row ∨ v = 0 ∧ ∀ w, (j, w) ∉ row

theorem shows_congr {row row' : List (ℕ × α)} {i j : ℕ}
    (h : ∀ w, (i, w) ∈ row ↔ (j, w) ∈ row') : Shows row i v ↔ Shows row' j v := by
  simp only [Shows, h]

/-- What stands in a column of a row that is written out. -/
theorem getElem?_denseRow (distinct : (row.map Prod.fst).Nodup) :
    (denseRow cols row)[j]? = some v ↔ j < cols ∧ Shows row j v := by
  induction row using List.reverseRecOn with
  | nil =>
      rw [denseRow, List.foldl_nil, List.getElem?_replicate]
      simp [Shows, eq_comm]
  | append_singleton row entry ih =>
      obtain ⟨k, w⟩ := entry
      rw [List.map_append, List.map_singleton, List.nodup_append_comm, List.singleton_append,
        List.nodup_cons] at distinct
      rw [denseRow_append_singleton, List.getElem?_set, length_denseRow]
      by_cases hkj : k = j
      · -- the value in column `j` is written last
        subst hkj
        have earlier (u : α) : (k, u) ∉ row := fun h =>
          distinct.1 (List.mem_map.mpr ⟨(k, u), h, rfl⟩)
        by_cases hk : k < cols
        · simp [Shows, hk, earlier, eq_comm]
        · simp [hk]
      · rw [if_neg hkj, ih distinct.2]
        simp [Shows, Ne.symm hkj]

omit [Zero α] in
/-- Each column of a row in order occurs once. -/
theorem nodup_of_sorted (h : (row.map Prod.fst).Pairwise (· < ·)) : (row.map Prod.fst).Nodup :=
  h.imp ne_of_lt

omit [Zero α] in
/-- A row in order is determined by its entries. -/
theorem eq_of_perm {entries sorted : List (ℕ × α)} (perm : entries.Perm sorted)
    (h : (entries.map Prod.fst).Pairwise (· ≤ ·)) (h' : (sorted.map Prod.fst).Pairwise (· < ·)) :
    entries = sorted := by
  have distinct : (entries.map Prod.fst).Pairwise (· ≠ ·) :=
    (perm.map Prod.fst).nodup_iff.mpr (nodup_of_sorted h')
  have strict := (h.and distinct).imp fun {a b} hab => lt_of_le_of_ne hab.1 hab.2
  rw [List.pairwise_map] at strict h'
  exact perm.eq_of_pairwise (fun _ _ _ _ hab hba => absurd hab hba.asymm) strict h'

/-! ### The transpose -/

/-- Rows and columns exchanged, for rows of this length. -/
def exchanged (cols : ℕ) (rows : List (List α)) : List (List α) :=
  (List.range cols).map fun j => rows.map (·.getD j 0)

omit [Zero α] in
/-- A column lists the entries of the rows. -/
theorem mem_column_iff {rows : List (List (ℕ × α))} {i : ℕ} (hrow : rows[i]? = some row) :
    (i, v) ∈ (rows.zipIdx.flatMap fun (row, i) =>
        row.filterMap fun (k, v) => if k = j then some (i, v) else none) ↔ (j, v) ∈ row := by
  rw [List.mem_flatMap]
  constructor
  · rintro ⟨⟨other, l⟩, hother, hentry⟩
    obtain ⟨hmem, rfl⟩ := mem_filterMap_column hentry
    cases hrow.symm.trans (List.mk_mem_zipIdx_iff_getElem?.mp hother)
    exact hmem
  · intro hmem
    exact ⟨(row, i), List.mk_mem_zipIdx_iff_getElem?.mpr hrow,
      List.mem_filterMap.mpr ⟨(j, v), hmem, if_pos rfl⟩⟩

/-- **The transpose has the columns as its rows.** -/
theorem WellFormed.toRows_transpose (h : A.WellFormed) :
    A.transpose.toRows = exchanged A.cols A.toRows := by
  have sorted := h.sorted_columnEntries
  rw [columnEntries, List.forall_mem_map] at sorted
  rw [toRows, SparseMatrix.transpose, rowEntries_ofEntries, cols_ofEntries, exchanged,
    columnEntries, List.map_map]
  refine List.map_congr_left fun j hj => List.ext_getElem ?_ fun i hi hi' => ?_
  · rw [Function.comp_apply, length_denseRow, List.length_map, toRows, List.length_map,
      h.length_rowEntries]
  rw [Function.comp_apply, length_denseRow, ← h.length_rowEntries] at hi
  -- entry `i` of column `j` is entry `j` of row `i`
  have lt : j < (denseRow A.cols A.rowEntries[i]).length := by
    rw [length_denseRow]
    exact List.mem_range.mp hj
  have distinct := nodup_of_sorted (h.sorted _ (List.getElem_mem hi))
  obtain ⟨-, shows⟩ := (getElem?_denseRow distinct).mp (List.getElem?_eq_getElem lt)
  have entry := (getElem?_denseRow (nodup_of_sorted (sorted j hj))).mpr
    ⟨h.length_rowEntries ▸ hi, (shows_congr fun _ =>
      mem_column_iff (List.getElem?_eq_getElem hi)).mpr shows⟩
  rw [List.getElem_eq_iff, Function.comp_apply, entry]
  simp only [toRows, List.getElem_map]
  rw [List.getD_eq_getElem _ _ lt]

/-! ### Sources -/

/-- The matrix is well formed and has these rows, of `n` entries each. -/
structure Stores (A : SparseMatrix α) (n : ℕ) (M : List (List α)) : Prop where
  wellFormed : A.WellFormed
  cols : A.cols = n
  toRows : A.toRows = M

instance [DecidableEq α] (A : SparseMatrix α) (n : ℕ) (M : List (List α)) :
    Decidable (A.Stores n M) :=
  decidable_of_iff (A.WellFormed ∧ A.cols = n ∧ A.toRows = M)
    ⟨fun ⟨h₁, h₂, h₃⟩ => ⟨h₁, h₂, h₃⟩, fun h => ⟨h.wellFormed, h.cols, h.toRows⟩⟩

/-- The source is well formed and gives a matrix by its rows, of `n` entries each.  Without any
rows, a dense matrix has the columns that are expected. -/
def Source.Denotes (cols n : ℕ) (M : List (List α)) : Source α → Prop
  | .dense rows => rows = M ∧ (∀ row ∈ rows, row.length = n) ∧ (rows = [] → n = cols)
  | .byRows A => A.Stores n M
  | .byColumns A => A.WellFormed ∧ A.rows = n ∧ exchanged A.cols A.toRows = M

instance [DecidableEq α] (cols n : ℕ) (M : List (List α)) :
    (source : Source α) → Decidable (source.Denotes cols n M)
  | .dense rows => inferInstanceAs
      (Decidable (rows = M ∧ (∀ row ∈ rows, row.length = n) ∧ (rows = [] → n = cols)))
  | .byRows A => inferInstanceAs (Decidable (A.Stores n M))
  | .byColumns A => inferInstanceAs
      (Decidable (A.WellFormed ∧ A.rows = n ∧ exchanged A.cols A.toRows = M))

/-- What a conversion of storage by columns to storage by rows promises: it keeps the matrix. -/
def KeepsMatrix (convert : SparseMatrix α → SparseMatrix α) : Prop :=
  ∀ (A : SparseMatrix α) (cols n : ℕ) (M : List (List α)),
    (Source.byColumns A).Denotes cols n M → (Source.byRows (convert A)).Denotes cols n M

theorem keepsMatrix_transpose : KeepsMatrix (transpose (α := α)) := by
  rintro A cols n M ⟨wf, hrows, htoRows⟩
  exact ⟨wf.transpose, hrows, wf.toRows_transpose.trans htoRows⟩

variable {n : ℕ} {M : List (List α)}

theorem Stores.rows (h : A.Stores n M) : A.rows = M.length := by
  rw [← h.toRows, SparseMatrix.toRows, List.length_map, h.wellFormed.length_rowEntries]

theorem Stores.length_row (h : A.Stores n M) {row : List α} (hrow : row ∈ M) : row.length = n := by
  rw [← h.toRows, SparseMatrix.toRows, List.mem_map] at hrow
  obtain ⟨entries, -, rfl⟩ := hrow
  rw [length_denseRow, h.cols]

end Zero

/-! ### Rows without zeros -/

section Arith

variable {α : Type} [Arith α] {cols j : ℕ} {row : List α} {v : α}

theorem mem_nonzeros_iff_beq : (j, v) ∈ nonzeros row ↔ row[j]? = some v ∧ (v == 0) = false := by
  constructor
  · intro h
    obtain ⟨⟨w, k⟩, hrow, hentry⟩ := List.mem_filterMap.mp h
    obtain ⟨nonzero, heq⟩ := Option.ite_none_left_eq_some.mp hentry
    cases heq
    exact ⟨List.mk_mem_zipIdx_iff_getElem?.mp hrow, Bool.not_eq_true _ ▸ nonzero⟩
  · rintro ⟨hrow, nonzero⟩
    exact List.mem_filterMap.mpr ⟨(v, j), List.mk_mem_zipIdx_iff_getElem?.mpr hrow,
      if_neg (Bool.not_eq_true _ ▸ nonzero)⟩

/-- The nonzero entries of a row, written out. -/
theorem denseRow_nonzeros_eq_map (h : row.length = cols) :
    denseRow cols (nonzeros row) = row.map fun v => if v == 0 then 0 else v := by
  refine List.ext_getElem (by rw [length_denseRow, List.length_map, h]) fun j hj hj' => ?_
  rw [length_denseRow] at hj
  have hrow : row[j]? = some row[j] := List.getElem?_eq_getElem (h ▸ hj)
  rw [List.getElem_eq_iff, getElem?_denseRow (nodup_of_sorted (sorted_nonzeros row)),
    List.getElem_map]
  refine ⟨hj, ?_⟩
  simp only [Shows, mem_nonzeros_iff_beq, hrow]
  cases hzero : row[j] == 0 with
  | true =>
      refine .inr ⟨if_pos rfl, ?_⟩
      rintro w ⟨heq, nonzero⟩
      rw [← Option.some.inj heq, hzero] at nonzero
      cases nonzero
  | false => exact .inl ⟨rfl, hzero⟩

end Arith

section Exact

variable {cols n : ℕ} {row : List (ℕ × ExtRat)} {A : SparseMatrix ExtRat}
  {M : List (List ExtRat)} {x : List ExtRat}

theorem mem_nonzeros_iff {row : List ExtRat} {j : ℕ} {v : ExtRat} :
    (j, v) ∈ nonzeros row ↔ row[j]? = some v ∧ v ≠ 0 := by
  rw [mem_nonzeros_iff_beq, ← Bool.not_eq_true, ExtRat.beq_zero_iff]

theorem map_ite_beq_zero (row : List ExtRat) :
    (row.map fun v => if v == 0 then 0 else v) = row := by
  refine (List.map_congr_left fun v _ => ?_).trans (List.map_id _)
  cases hzero : v == 0 with
  | true => exact (ExtRat.beq_zero_iff.mp hzero).symm
  | false => rfl

/-- The nonzero entries of a row give the row. -/
theorem denseRow_nonzeros {row : List ExtRat} (h : row.length = cols) :
    denseRow cols (nonzeros row) = row :=
  (denseRow_nonzeros_eq_map h).trans (map_ite_beq_zero row)

/-- Entries in order that have the same members are the same. -/
theorem eq_of_sorted {row row' : List (ℕ × ExtRat)} (h : (row.map Prod.fst).Pairwise (· < ·))
    (h' : (row'.map Prod.fst).Pairwise (· < ·)) (same : ∀ entry, entry ∈ row ↔ entry ∈ row') :
    row = row' := by
  have perm : row.Perm row' := (List.perm_ext_iff_of_nodup (nodup_of_sorted h).of_map
    (nodup_of_sorted h').of_map).mpr same
  exact eq_of_perm perm (h.imp le_of_lt) h'

/-- **A row written out, and read back**: all zeros are lost, those that were stored included. -/
theorem nonzeros_denseRow (sorted : (row.map Prod.fst).Pairwise (· < ·))
    (inRange : ∀ entry ∈ row, entry.1 < cols) :
    nonzeros (denseRow cols row) = row.filter fun entry => !(entry.2 == 0) := by
  refine eq_of_sorted (sorted_nonzeros _) (sorted.sublist (List.filter_sublist.map _)) ?_
  rintro ⟨j, v⟩
  rw [mem_nonzeros_iff, getElem?_denseRow (nodup_of_sorted sorted), List.mem_filter,
    Bool.not_eq_true', ← Bool.not_eq_true, ExtRat.beq_zero_iff]
  constructor
  · rintro ⟨⟨-, stored | ⟨hzero, -⟩⟩, nonzero⟩
    · exact ⟨stored, nonzero⟩
    · exact absurd hzero nonzero
  · rintro ⟨stored, nonzero⟩
    exact ⟨⟨inRange _ stored, .inl stored⟩, nonzero⟩

/-- The stored matrix has the rows that are given. -/
theorem Source.Denotes.stores {source : Source ExtRat} (h : source.Denotes n n M) :
    ∃ A, source.toMatrix n = .ok A ∧ A.Stores n M := by
  cases source with
  | dense rows =>
      obtain ⟨rfl, width, -⟩ := h
      have stored := ofRows_eq_ok_iff.mpr ⟨width, rfl⟩
      refine ⟨_, stored, wellFormed_ofRows stored, rfl, ?_⟩
      rw [toRows, rowEntries_ofEntries, cols_ofEntries, List.map_map]
      refine (List.map_congr_left fun row hrow => ?_).trans (List.map_id _)
      exact denseRow_nonzeros (width row hrow)
  | byRows B =>
      exact ⟨B, rfl, h⟩
  | byColumns B =>
      exact ⟨_, rfl, keepsMatrix_transpose B n n M h⟩

/-- What has the expected number of columns was given with as many. -/
theorem Source.Denotes.eq_cols {source : Source ExtRat} (h : source.Denotes cols n M)
    (hA : source.toMatrix cols = .ok A) (hcols : A.cols = cols) : n = cols := by
  cases source with
  | dense rows =>
      obtain ⟨-, width, noRows⟩ := h
      obtain ⟨width', -⟩ := ofRows_eq_ok_iff.mp hA
      cases rows with
      | nil => exact noRows rfl
      | cons row rest =>
          exact (width row List.mem_cons_self).symm.trans (width' row List.mem_cons_self)
  | byRows B =>
      cases hA
      exact h.cols.symm.trans hcols
  | byColumns B =>
      cases hA
      exact h.2.1.symm.trans hcols

/-! ### Acceptance -/

/-- The stored values are finite if the row is. -/
theorem forall_isFinite_iff (sorted : (row.map Prod.fst).Pairwise (· < ·))
    (inRange : ∀ entry ∈ row, entry.1 < cols) :
    (∀ entry ∈ row, isFinite entry.2 = true) ↔ ∀ v ∈ denseRow cols row, isFinite v = true := by
  have distinct := nodup_of_sorted sorted
  constructor
  · intro stored v hv
    obtain ⟨j, hj⟩ := List.mem_iff_getElem?.mp hv
    rcases (getElem?_denseRow distinct).mp hj with ⟨-, hmem | ⟨rfl, -⟩⟩
    · exact stored _ hmem
    · rfl
  · rintro all ⟨j, v⟩ hentry
    exact all v (List.mem_of_getElem?
      ((getElem?_denseRow distinct).mpr ⟨inRange _ hentry, .inl hentry⟩))

theorem Stores.all_isFinite_iff (h : A.Stores n M) :
    A.values.all isFinite = true ↔ ∀ row ∈ M, ∀ v ∈ row, isFinite v = true := by
  have stored : A.values = A.rowEntries.flatten.map Prod.snd := congrArg values h.wellFormed.stored
  rw [stored, ← h.toRows, SparseMatrix.toRows, List.all_eq_true, List.forall_mem_map,
    List.forall_mem_flatten, List.forall_mem_map]
  exact forall₂_congr fun row hrow =>
    forall_isFinite_iff (h.wellFormed.sorted row hrow) (h.wellFormed.inRange row hrow)

/-! ### The product with a vector -/

/-- No zero that is stored meets a coordinate that is no number. -/
def Absorbs (A : SparseMatrix ExtRat) (x : List ExtRat) : Prop :=
  ∀ row ∈ A.rowEntries, ∀ entry ∈ row, entry.2 = 0 → isFinite (x.getD entry.1 0) = true

/-- Stored zeros absorb a point of numbers. -/
theorem Absorbs.of_forall_isFinite (h : ∀ v ∈ x, isFinite v = true) : A.Absorbs x := by
  intro _ _ entry _ _
  rcases lt_or_ge entry.1 x.length with hj | hj
  · rw [List.getD_eq_getElem _ _ hj]
    exact h _ (List.getElem_mem hj)
  · rw [List.getD_eq_default _ _ hj]
    rfl

theorem rowProduct_append_singleton (x : List ExtRat) (row : List (ℕ × ExtRat))
    (entry : ℕ × ExtRat) :
    rowProduct x (row ++ [entry]) = rowProduct x row + entry.2 * x.getD entry.1 0 := by
  rw [rowProduct, List.map_append, List.map_singleton, total_append_singleton, rowProduct]

/-- Zeros count for nothing where they meet numbers. -/
theorem rowProduct_filter
    (h : ∀ entry ∈ row, entry.2 = 0 → isFinite (x.getD entry.1 0) = true) :
    rowProduct x (row.filter fun entry => !(entry.2 == 0)) = rowProduct x row := by
  induction row using List.reverseRecOn with
  | nil => rfl
  | append_singleton row entry ih =>
      obtain ⟨before, last⟩ := List.forall_mem_append.mp h
      rw [List.filter_append, rowProduct_append_singleton, ← ih before]
      cases hzero : entry.2 == 0 with
      | true =>
          have zero := ExtRat.beq_zero_iff.mp hzero
          have number := last entry (List.mem_singleton_self entry) zero
          rw [List.filter_singleton, hzero, Bool.not_true, cond_false, List.append_nil, zero,
            ExtRat.zero_mul_of_isFinite number, ExtRat.add_zero]
      | false =>
          rw [List.filter_singleton, hzero, Bool.not_false, cond_true, rowProduct_append_singleton]

/-- **The product with a vector** depends on the rows of the matrix only. -/
theorem Stores.product?_eq (h : A.Stores n M) (hx : x.length = n) (absorbs : A.Absorbs x) :
    A.product? x = some (M.map fun row => rowProduct x (nonzeros row)) := by
  have inRange : ∀ row ∈ A.rowEntries, ∀ entry ∈ row, entry.1 < x.length :=
    hx ▸ h.cols ▸ h.wellFormed.inRange
  rw [product?_eq_some inRange, ← h.toRows, SparseMatrix.toRows, List.map_map]
  refine congrArg some (List.map_congr_left fun row hrow => ?_)
  rw [Function.comp_apply, nonzeros_denseRow (h.wellFormed.sorted row hrow)
    (h.wellFormed.inRange row hrow), rowProduct_filter (absorbs row hrow)]

end Exact

end SparseMatrix

namespace Program

open SparseMatrix (Source)

variable {source : Source ExtRat} {A : SparseMatrix ExtRat} {limits objective : List ExtRat} {n : ℕ}
  {M : List (List ExtRat)} {p p' : Program ExtRat}

/-! ### Programs -/

theorem validate_eq_ok_iff_of_stores (h : A.Stores n M) :
    validate ⟨objective, A, limits⟩ = .ok ()
      ↔ n = objective.length ∧ DenseData M limits objective := by
  rw [validate_eq_ok_iff, hasFiniteData, Bool.and_eq_true, Bool.and_eq_true, h.all_isFinite_iff,
    h.rows, h.cols, List.all_eq_true, List.all_eq_true]
  constructor
  · rintro ⟨height, width, ⟨hobjective, hlimits⟩, hrows⟩
    exact ⟨width, fun row hrow => (h.length_row hrow).trans width, height, hobjective, hlimits,
      hrows⟩
  · rintro ⟨width, data⟩
    exact ⟨data.height, width, ⟨data.objective, data.limits⟩, data.rows⟩

/-- The program has the rows that are given. -/
theorem stores_of_ofSource (h : source.Denotes objective.length n M)
    (hp : ofSource source limits objective = .ok p) :
    p = ⟨objective, p.matrix, limits⟩ ∧ p.matrix.Stores n M ∧ p.validate = .ok () := by
  obtain ⟨A, hA, rfl, valid⟩ := ofSource_eq_ok_iff.mp hp
  obtain rfl := h.eq_cols hA (validate_eq_ok_iff _ |>.mp valid).2.1
  obtain ⟨B, hB, stores⟩ := h.stores
  cases hA.symm.trans hB
  exact ⟨rfl, stores, valid⟩

/-- **What is accepted**: a matrix with a column for each variable, and data that are accepted if
they are dense. -/
theorem exists_ofSource_iff (h : source.Denotes objective.length n M) :
    (∃ p, ofSource source limits objective = .ok p)
      ↔ n = objective.length ∧ DenseData M limits objective := by
  constructor
  · rintro ⟨p, hp⟩
    obtain ⟨heq, stores, valid⟩ := stores_of_ofSource h hp
    rw [heq] at valid
    exact (validate_eq_ok_iff_of_stores stores).mp valid
  · rintro ⟨rfl, data⟩
    obtain ⟨A, hA, stores⟩ := h.stores
    exact ⟨⟨objective, A, limits⟩, ofSource_eq_ok_iff.mpr
      ⟨A, hA, rfl, (validate_eq_ok_iff_of_stores stores).mpr ⟨rfl, data⟩⟩⟩

variable {B : SparseMatrix ExtRat} {x : List ExtRat}

/-- The left-hand sides at a point depend on the rows only. -/
theorem activities?_eq_of_stores (h : A.Stores n M) (h' : B.Stores n M) (hx : x.length = n)
    (absorbs : A.Absorbs x) (absorbs' : B.Absorbs x) :
    activities? ⟨objective, B, limits⟩ x = activities? ⟨objective, A, limits⟩ x := by
  rw [activities?, activities?, h.product?_eq hx absorbs, h'.product?_eq hx absorbs']

/-- So does the test of a point. -/
theorem satisfies_eq_of_stores (h : A.Stores n M) (h' : B.Stores n M) (width : n = objective.length)
    (absorbs : A.Absorbs x) (absorbs' : B.Absorbs x) (tol : ExtRat) :
    satisfies ⟨objective, B, limits⟩ x tol = satisfies ⟨objective, A, limits⟩ x tol := by
  rw [satisfies, satisfies]
  by_cases hx : x.length = n
  · rw [activities?_eq_of_stores h h' hx absorbs absorbs']
    rfl
  · have short : x.length ≠ objective.length := width ▸ hx
    rw [if_pos (.inl short), if_pos (.inl short)]

end Program

end IntegerProgramming
