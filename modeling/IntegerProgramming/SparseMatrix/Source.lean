import IntegerProgramming.SparseMatrix.Basic

/-!
# Sparse matrices — what a matrix is given as

A matrix is given by its dense rows, or already compressed, by rows or by columns.  All three
become a `SparseMatrix` stored by rows.  Dense rows keep their nonzero entries and must all have
the expected length; compressed input keeps every entry it stores, zeros included.
-/

namespace IntegerProgramming

/-- A dense row whose length is not the number of columns. -/
structure RowLength where
  /-- Position of the row. -/
  row : Nat
  /-- How many entries it has. -/
  entries : Nat
  /-- How many it should have. -/
  expected : Nat
  deriving DecidableEq, Repr

/-- What is wrong with the row, in words. -/
def RowLength.text (e : RowLength) : String :=
  s!"row {e.row} has {e.entries} entries, expected {e.expected}"

namespace SparseMatrix

variable {α : Type}

/-- The nonzero entries of a dense row. -/
def nonzeros [Arith α] (row : List α) : List (Nat × α) :=
  row.zipIdx.filterMap fun (v, j) => if v == 0 then none else some (j, v)

/-- The first row whose length differs from the expected one. -/
def firstMismatch (cols : Nat) (rows : List (List α)) : Option RowLength :=
  (rows.zipIdx.find? fun (row, _) => row.length != cols).map fun (row, i) =>
    ⟨i, row.length, cols⟩

/-- The nonzero entries of dense rows of length `cols`. -/
def ofRows [Arith α] (cols : Nat) (rows : List (List α)) : Except RowLength (SparseMatrix α) :=
  match firstMismatch cols rows with
  | some e => .error e
  | none => .ok (ofEntries cols (rows.map nonzeros))

/-- The ways to give a matrix. -/
inductive Source (α : Type) where
  /-- Dense rows. -/
  | dense (rows : List (List α))
  /-- Compressed by rows. -/
  | byRows (A : SparseMatrix α)
  /-- Compressed by columns: the rows of the transposed matrix. -/
  | byColumns (transposed : SparseMatrix α)

/-- The given matrix, stored by rows; `cols` is the expected length of dense rows. -/
def Source.toMatrix [Arith α] (cols : Nat) : Source α → Except RowLength (SparseMatrix α)
  | .dense rows => ofRows cols rows
  | .byRows A => .ok A
  | .byColumns A => .ok A.transpose

/-! ### Accepting dense rows -/

theorem firstMismatch_eq_none_iff {cols : Nat} {rows : List (List α)} :
    firstMismatch cols rows = none ↔ ∀ row ∈ rows, row.length = cols := by
  simp only [firstMismatch, Option.map_eq_none_iff, List.find?_eq_none, bne_iff_ne, ne_eq,
    Decidable.not_not]
  constructor
  · intro h row hrow
    obtain ⟨i, hi, rfl⟩ := List.mem_iff_getElem.mp hrow
    exact h (rows[i], i) (by simp [List.mem_zipIdx_iff_getElem?])
  · rintro h ⟨row, i⟩ hmem
    exact h row (List.mem_of_getElem? (List.mem_zipIdx_iff_getElem?.mp hmem))

theorem ofRows_eq_ok_iff [Arith α] {cols : Nat} {rows : List (List α)} {A : SparseMatrix α} :
    ofRows cols rows = .ok A ↔
      (∀ row ∈ rows, row.length = cols) ∧ A = ofEntries cols (rows.map nonzeros) := by
  rw [← firstMismatch_eq_none_iff]
  unfold ofRows
  cases firstMismatch cols rows <;> simp [eq_comm]

end SparseMatrix

end IntegerProgramming
