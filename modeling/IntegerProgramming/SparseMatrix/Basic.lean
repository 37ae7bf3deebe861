import IntegerProgramming.Arithmetic.Basic

/-!
# Sparse matrices — compressed rows

A `SparseMatrix` stores its entries row after row: the columns of the stored entries, their
values, and the position at which each row begins.  `rowEntries` is the view that everything
else reads — for each row the list of its stored entries as pairs of column and value — and
`ofEntries` builds a matrix from such rows.

* `rowEntries_ofEntries`: a matrix built from rows of entries shows those rows.
* `starts_ofEntries_sorted`, `getLast?_starts_ofEntries`: the row starts never decrease, and the
  last one is the number of stored entries.
-/

namespace IntegerProgramming

/-- A matrix whose entries are stored row after row. -/
structure SparseMatrix (α : Type) where
  /-- Number of rows. -/
  rows : Nat
  /-- Number of columns. -/
  cols : Nat
  /-- The position of each row's first entry, and after them the number of entries. -/
  starts : List Nat
  /-- The column of each stored entry. -/
  columns : List Nat
  /-- The value of each stored entry. -/
  values : List α
  deriving Inhabited, DecidableEq, Repr

/-! ### Cutting a list into pieces -/

section Slices

variable {β : Type}

/-- Where each piece begins when the pieces are laid end to end from position `first`, and where the
last one ends. -/
def offsets (first : Nat) : List (List β) → List Nat
  | [] => [first]
  | piece :: rest => first :: offsets (first + piece.length) rest

/-- The pieces of a list between consecutive cuts. -/
def slices (cuts : List Nat) (xs : List β) : List (List β) :=
  List.zipWith (fun a b => (xs.drop a).take (b - a)) cuts cuts.tail

theorem offsets_ne_nil (first : Nat) (pieces : List (List β)) : offsets first pieces ≠ [] := by
  cases pieces <;> simp [offsets]

@[simp] theorem length_offsets (first : Nat) (pieces : List (List β)) :
    (offsets first pieces).length = pieces.length + 1 := by
  induction pieces generalizing first with
  | nil => rfl
  | cons piece rest ih => simp [offsets, ih]

@[simp] theorem head?_offsets (first : Nat) (pieces : List (List β)) :
    (offsets first pieces).head? = some first := by
  cases pieces <;> simp [offsets]

theorem getLast?_offsets (first : Nat) (pieces : List (List β)) :
    (offsets first pieces).getLast? = some (first + pieces.flatten.length) := by
  induction pieces generalizing first with
  | nil => simp [offsets]
  | cons piece rest ih =>
    simp [offsets, List.getLast?_cons, ih, Nat.add_assoc]

/-- No offset lies before the position at which the pieces begin. -/
theorem le_of_mem_offsets {first k : Nat} {pieces : List (List β)} (h : k ∈ offsets first pieces) :
    first ≤ k := by
  induction pieces generalizing first with
  | nil => simp [offsets] at h; omega
  | cons piece rest ih =>
    simp only [offsets, List.mem_cons] at h
    rcases h with rfl | h
    · exact Nat.le_refl _
    · have := ih h; omega

theorem pairwise_offsets (first : Nat) (pieces : List (List β)) :
    (offsets first pieces).Pairwise (· ≤ ·) := by
  induction pieces generalizing first with
  | nil => simp [offsets]
  | cons piece rest ih =>
    refine List.pairwise_cons.mpr ⟨fun k hk => ?_, ih _⟩
    have := le_of_mem_offsets hk
    omega

/-- Cutting at the offsets of some pieces gives the pieces back. -/
theorem slices_offsets (before : List β) (pieces : List (List β)) :
    slices (offsets before.length pieces) (before ++ pieces.flatten) = pieces := by
  induction pieces generalizing before with
  | nil => simp [offsets, slices]
  | cons piece rest ih =>
    have hne := offsets_ne_nil (before.length + piece.length) rest
    obtain ⟨cut, cuts, hcuts⟩ := List.exists_cons_of_ne_nil hne
    have hcut : cut = before.length + piece.length := by
      have := head?_offsets (before.length + piece.length) rest
      rw [hcuts] at this
      simpa using this
    have ih' := ih (before ++ piece)
    rw [List.length_append, hcuts] at ih'
    simp only [slices, List.tail_cons, List.append_assoc] at ih'
    simp only [offsets, hcuts, slices, List.tail_cons, List.zipWith_cons_cons, List.flatten_cons]
    rw [ih']
    subst hcut
    simp

end Slices

namespace SparseMatrix

variable {α : Type}

/-- The stored entries of each row, as pairs of column and value. -/
def rowEntries (A : SparseMatrix α) : List (List (Nat × α)) :=
  slices A.starts (A.columns.zip A.values)

/-- The matrix that stores the given entries in each row. -/
def ofEntries (cols : Nat) (rows : List (List (Nat × α))) : SparseMatrix α where
  rows := rows.length
  cols := cols
  starts := offsets 0 rows
  columns := rows.flatten.map Prod.fst
  values := rows.flatten.map Prod.snd

/-- The entries of row `i` in column `j`, as a list of rows for each column `j`. -/
def columnEntries (A : SparseMatrix α) : List (List (Nat × α)) :=
  (List.range A.cols).map fun j =>
    A.rowEntries.zipIdx.flatMap fun (row, i) =>
      row.filterMap fun (k, v) => if k = j then some (i, v) else none

/-- The same entries with rows and columns exchanged. -/
def transpose (A : SparseMatrix α) : SparseMatrix α :=
  ofEntries A.rows A.columnEntries

/-- A row written out: its stored entries, and zero elsewhere. -/
def denseRow [Zero α] (cols : Nat) (entries : List (Nat × α)) : List α :=
  entries.foldl (fun row (j, v) => row.set j v) (List.replicate cols 0)

/-- The matrix written out row by row. -/
def toRows [Zero α] (A : SparseMatrix α) : List (List α) :=
  A.rowEntries.map (denseRow A.cols)

/-- The product with a vector; `none` if an entry lies in a column the vector does not have. -/
def product? [Arith α] (A : SparseMatrix α) (x : List α) : Option (List α) :=
  A.rowEntries.mapM fun row =>
    (row.mapM fun entry => x[entry.1]?.map (entry.2 * ·)).map total

/-! ### The view of a built matrix -/

/-- A list of pairs is its first components beside its second ones. -/
theorem zip_fst_snd (entries : List (Nat × α)) :
    (entries.map Prod.fst).zip (entries.map Prod.snd) = entries := by
  induction entries with
  | nil => rfl
  | cons entry rest ih => simp [ih]

@[simp] theorem rowEntries_ofEntries (cols : Nat) (rows : List (List (Nat × α))) :
    (ofEntries cols rows).rowEntries = rows := by
  have h := slices_offsets [] rows
  simp only [List.length_nil, List.nil_append] at h
  rw [rowEntries, ofEntries, zip_fst_snd, h]

@[simp] theorem rows_ofEntries (cols : Nat) (rows : List (List (Nat × α))) :
    (ofEntries cols rows).rows = rows.length := rfl

@[simp] theorem cols_ofEntries (cols : Nat) (rows : List (List (Nat × α))) :
    (ofEntries cols rows).cols = cols := rfl

@[simp] theorem values_ofEntries (cols : Nat) (rows : List (List (Nat × α))) :
    (ofEntries cols rows).values = rows.flatten.map Prod.snd := rfl

theorem starts_ofEntries_sorted (cols : Nat) (rows : List (List (Nat × α))) :
    (ofEntries cols rows).starts.Pairwise (· ≤ ·) :=
  pairwise_offsets 0 rows

theorem getLast?_starts_ofEntries (cols : Nat) (rows : List (List (Nat × α))) :
    (ofEntries cols rows).starts.getLast? = some (ofEntries cols rows).values.length := by
  rw [values_ofEntries, List.length_map, ofEntries, getLast?_offsets, Nat.zero_add]

end SparseMatrix

end IntegerProgramming
