import Mathlib
import IntegerProgramming.SparseMatrix.Source

/-!
# Sparse matrices — what storage promises

A matrix is *well formed* when its entries are laid end to end row by row, each row lists its
columns in increasing order, and no column lies outside the matrix (`SparseMatrix.WellFormed`).
`SparseMatrix.map` changes the values and nothing else.

* `SparseMatrix.wellFormed_ofRows`, `SparseMatrix.WellFormed.transpose`: **in whatever form a matrix
  is given, it is stored well formed**, if compressed input is.
* `SparseMatrix.rowEntries_map`: the rows of a changed matrix are the changed rows.
* `SparseMatrix.product?_eq_some`: a vector with a coordinate for every column has a product, and
  it is the list of the row products.
-/

namespace IntegerProgramming.SparseMatrix

variable {α β : Type}

/-! ### Well-formed storage -/

/-- The entries are stored row by row without gaps, in increasing columns, inside the matrix. -/
structure WellFormed (A : SparseMatrix α) : Prop where
  /-- The stored data are those of the rows laid end to end. -/
  stored : A = ofEntries A.cols A.rowEntries
  /-- The columns of a row increase. -/
  sorted : ∀ row ∈ A.rowEntries, (row.map Prod.fst).Pairwise (· < ·)
  /-- No entry lies to the right of the last column. -/
  inRange : ∀ row ∈ A.rowEntries, ∀ entry ∈ row, entry.1 < A.cols

instance [DecidableEq α] (A : SparseMatrix α) : Decidable A.WellFormed :=
  decidable_of_iff
    (A = ofEntries A.cols A.rowEntries
      ∧ (∀ row ∈ A.rowEntries, (row.map Prod.fst).Pairwise (· < ·))
      ∧ ∀ row ∈ A.rowEntries, ∀ entry ∈ row, entry.1 < A.cols)
    ⟨fun ⟨h₁, h₂, h₃⟩ => ⟨h₁, h₂, h₃⟩, fun h => ⟨h.stored, h.sorted, h.inRange⟩⟩

/-- There is a row of entries for each row of the matrix. -/
theorem WellFormed.length_rowEntries {A : SparseMatrix α} (h : A.WellFormed) :
    A.rowEntries.length = A.rows :=
  (congrArg rows h.stored).symm

/-! ### Given matrices -/

theorem wellFormed_ofEntries {cols : ℕ} {entries : List (List (ℕ × α))}
    (sorted : ∀ row ∈ entries, (row.map Prod.fst).Pairwise (· < ·))
    (inRange : ∀ row ∈ entries, ∀ entry ∈ row, entry.1 < cols) :
    (ofEntries cols entries).WellFormed where
  stored := by rw [rowEntries_ofEntries, cols_ofEntries]
  sorted := by rwa [rowEntries_ofEntries]
  inRange := by rwa [rowEntries_ofEntries, cols_ofEntries]

/-- Positions in a list increase. -/
theorem pairwise_snd_zipIdx {γ : Type} (xs : List γ) : xs.zipIdx.Pairwise (·.2 < ·.2) := by
  rw [← List.pairwise_map (f := Prod.snd), List.zipIdx_map_snd]
  exact List.pairwise_lt_range'

theorem mem_nonzeros [Arith α] {row : List α} {entry : ℕ × α} (h : entry ∈ nonzeros row) :
    (entry.2, entry.1) ∈ row.zipIdx := by
  obtain ⟨⟨v, j⟩, hv, hentry⟩ := List.mem_filterMap.mp h
  obtain ⟨-, rfl⟩ := by simpa using hentry
  exact hv

theorem sorted_nonzeros [Arith α] (row : List α) :
    ((nonzeros row).map Prod.fst).Pairwise (· < ·) := by
  rw [List.pairwise_map, nonzeros, List.pairwise_filterMap]
  refine (pairwise_snd_zipIdx row).imp fun {a b} hlt entry hentry entry' hentry' => ?_
  obtain ⟨-, rfl⟩ := by simpa using hentry
  obtain ⟨-, rfl⟩ := by simpa using hentry'
  exact hlt

/-- Dense rows are stored well formed. -/
theorem wellFormed_ofRows [Arith α] {cols : ℕ} {rows : List (List α)} {A : SparseMatrix α}
    (h : ofRows cols rows = .ok A) : A.WellFormed := by
  obtain ⟨hlength, rfl⟩ := ofRows_eq_ok_iff.mp h
  refine wellFormed_ofEntries ?_ ?_
  · rw [List.forall_mem_map]
    exact fun row _ => sorted_nonzeros row
  · rw [List.forall_mem_map]
    intro row hrow entry hentry
    have := List.snd_lt_of_mem_zipIdx (mem_nonzeros hentry)
    rwa [hlength row hrow] at this

/-- The entries of row `i` in column `j`, listed with the row. -/
theorem mem_filterMap_column {row : List (ℕ × α)} {i j : ℕ} {entry : ℕ × α}
    (h : entry ∈ row.filterMap fun (k, v) => if k = j then some (i, v) else none) :
    (j, entry.2) ∈ row ∧ entry.1 = i := by
  obtain ⟨⟨k, v⟩, hv, hentry⟩ := List.mem_filterMap.mp h
  obtain ⟨rfl, rfl⟩ := by simpa using hentry
  exact ⟨hv, rfl⟩

/-- A row has at most one entry in each column, and so a column lists its rows in order. -/
theorem WellFormed.sorted_columnEntries {A : SparseMatrix α} (h : A.WellFormed) :
    ∀ column ∈ A.columnEntries, (column.map Prod.fst).Pairwise (· < ·) := by
  rw [columnEntries, List.forall_mem_map]
  intro j _
  rw [List.pairwise_map, List.pairwise_flatMap]
  refine ⟨fun (row, i) hrow => ?_, (pairwise_snd_zipIdx _).imp ?_⟩
  · -- two entries of the row would lie in the same column
    have hsorted := h.sorted row (List.fst_mem_of_mem_zipIdx hrow)
    rw [List.pairwise_map] at hsorted
    rw [List.pairwise_filterMap]
    refine hsorted.imp fun {a b} hlt entry hentry entry' hentry' => ?_
    obtain ⟨ha, -⟩ := by simpa using hentry
    obtain ⟨hb, -⟩ := by simpa using hentry'
    exact absurd hlt (ha.trans hb.symm).not_lt
  · rintro ⟨row, i⟩ ⟨row', i'⟩ hlt entry hentry entry' hentry'
    rw [(mem_filterMap_column hentry).2, (mem_filterMap_column hentry').2]
    exact hlt

theorem WellFormed.transpose {A : SparseMatrix α} (h : A.WellFormed) : A.transpose.WellFormed := by
  refine wellFormed_ofEntries h.sorted_columnEntries ?_
  rw [columnEntries, List.forall_mem_map]
  intro j _ entry hentry
  obtain ⟨⟨row, i⟩, hrow, hentry⟩ := List.mem_flatMap.mp hentry
  rw [(mem_filterMap_column hentry).2, ← h.length_rowEntries]
  exact List.snd_lt_of_mem_zipIdx hrow

/-! ### Other values in the same places -/

/-- The matrix with `f` applied to every stored value. -/
def map (f : α → β) (A : SparseMatrix α) : SparseMatrix β where
  rows := A.rows
  cols := A.cols
  starts := A.starts
  columns := A.columns
  values := A.values.map f

/-- A row of entries with `f` applied to every value. -/
def mapRow (f : α → β) (row : List (ℕ × α)) : List (ℕ × β) :=
  row.map fun entry => (entry.1, f entry.2)

theorem slices_map {γ δ : Type} (g : γ → δ) (cuts : List ℕ) (xs : List γ) :
    slices cuts (xs.map g) = (slices cuts xs).map (List.map g) := by
  rw [slices, slices, List.map_zipWith]
  simp only [List.map_take, List.map_drop]

theorem rowEntries_map (f : α → β) (A : SparseMatrix α) :
    (A.map f).rowEntries = A.rowEntries.map (mapRow f) := by
  have zipped : A.columns.zip (A.values.map f)
      = (A.columns.zip A.values).map fun entry => (entry.1, f entry.2) := by
    rw [List.zip_map_right]
    rfl
  rw [rowEntries, rowEntries, map, zipped, slices_map]
  rfl

/-! ### The product with a vector -/

theorem mapM_eq_some_map {γ δ : Type} {f : γ → Option δ} {g : γ → δ} {xs : List γ}
    (h : ∀ x ∈ xs, f x = some (g x)) : xs.mapM f = some (xs.map g) := by
  induction xs with
  | nil => rfl
  | cons x rest ih =>
      rw [List.mapM_cons, h x (List.mem_cons_self ..),
        ih fun y hy => h y (List.mem_cons_of_mem x hy)]
      rfl

/-- The product of a row with a vector. -/
def rowProduct [Arith α] (x : List α) (row : List (ℕ × α)) : α :=
  total (row.map fun entry => entry.2 * x.getD entry.1 0)

theorem product?_eq_some [Arith α] {A : SparseMatrix α} {x : List α}
    (h : ∀ row ∈ A.rowEntries, ∀ entry ∈ row, entry.1 < x.length) :
    A.product? x = some (A.rowEntries.map (rowProduct x)) := by
  refine mapM_eq_some_map fun row hrow => ?_
  have entries : (row.mapM fun entry => x[entry.1]?.map (entry.2 * ·))
      = some (row.map fun entry => entry.2 * x.getD entry.1 0) :=
    mapM_eq_some_map fun entry hentry => by
      rw [List.getElem?_eq_getElem (h row hrow entry hentry), Option.map_some, List.getD_eq_getElem]
  rw [entries]
  rfl

end IntegerProgramming.SparseMatrix
