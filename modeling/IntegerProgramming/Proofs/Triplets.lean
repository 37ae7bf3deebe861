import Mathlib
import IntegerProgramming.Proofs.Denotation

/-!
# Sparse matrices — triplets

Dense rows become a stored matrix by way of their nonzero entries, each with its row and its column
(`Triplets`).  How triplets are compressed is left open: whatever lays the rows end to end, keeps
the entries of each and sorts them by column (`Compresses`) stores dense rows in the one way that
`SparseMatrix.ofRows` stores them (`Compresses.ofRowsBy_eq`).

* `SparseMatrix.firstMismatch_eq_some_iff`: the first row of the wrong length is reported.
* `SparseMatrix.Compact`, `SparseMatrix.compact_ofRows`: **the stored matrix shows the nonzero
  entries of each row, and gives the rows when it is read back.**
* `SparseMatrix.rowProduct_nonzeros`: over exact numbers, the product of a stored row with a vector
  leaves out the zeros of the dense row.
* `SparseMatrix.supportDot_eq_dot`, `SparseMatrix.dot_eq_undef`: that is the product of the dense
  row if the zeros meet numbers, and otherwise the product of the dense row is undefined.
* `dense_roundTrip`: **dense rows are stored without loss**, and multiplied as they were given, but
  for zeros that meet an infinite or undefined coordinate (`activities_ne_products_at_infinity`).
-/

namespace IntegerProgramming.SparseMatrix

/-- Entries with their rows and columns, in the order in which they were added. -/
structure Triplets (α : Type) where
  rows : ℕ
  cols : ℕ
  entries : List (ℕ × ℕ × α)

namespace Triplets

variable {α : Type}

/-- The entries of row `i`. -/
def row (T : Triplets α) (i : ℕ) : List (ℕ × α) :=
  T.entries.filterMap fun (k, entry) => if k = i then some entry else none

/-- Every entry lies inside the matrix. -/
def Inside (T : Triplets α) : Prop :=
  ∀ triplet ∈ T.entries, triplet.1 < T.rows ∧ triplet.2.1 < T.cols

/-- The nonzero entries of dense rows, row by row. -/
def ofRows [Arith α] (cols : ℕ) (rows : List (List α)) : Triplets α where
  rows := rows.length
  cols := cols
  entries := rows.zipIdx.flatMap fun (row, i) => (nonzeros row).map fun entry => (i, entry)

end Triplets

/-- What a conversion of triplets to compressed rows promises.  It lays the rows end to end, and a
row in which no column occurs twice holds its triplets in the order of their columns. -/
structure Compresses {α : Type} (compress : Triplets α → SparseMatrix α) : Prop where
  rows : ∀ T, T.Inside → (compress T).rows = T.rows
  cols : ∀ T, T.Inside → (compress T).cols = T.cols
  stored : ∀ T, T.Inside → compress T = ofEntries (compress T).cols (compress T).rowEntries
  keeps : ∀ T, T.Inside → ∀ (i : ℕ) (row : List (ℕ × α)), (compress T).rowEntries[i]? = some row →
    ((T.row i).map Prod.fst).Nodup → row.Perm (T.row i)
  sorts : ∀ T, T.Inside → ∀ row ∈ (compress T).rowEntries, (row.map Prod.fst).Pairwise (· ≤ ·)

/-- Dense rows, stored by a conversion of triplets. -/
def ofRowsBy {α : Type} [Arith α] (compress : Triplets α → SparseMatrix α) (cols : ℕ)
    (rows : List (List α)) : Except RowLength (SparseMatrix α) :=
  match firstMismatch cols rows with
  | some e => .error e
  | none => .ok (compress (.ofRows cols rows))

/-! ### Rows of the wrong length -/

theorem firstMismatch_eq_some_iff {α : Type} {cols : ℕ} {rows : List (List α)} {e : RowLength} :
    firstMismatch cols rows = some e ↔ ∃ before row after, rows = before ++ row :: after
      ∧ (∀ other ∈ before, other.length = cols) ∧ row.length ≠ cols
      ∧ e = ⟨before.length, row.length, cols⟩ := by
  rw [firstMismatch, Option.map_eq_some_iff]
  constructor
  · rintro ⟨⟨row, i⟩, hfind, rfl⟩
    obtain ⟨misfit, before, after, hsplit, fits⟩ := List.find?_eq_some_iff_append.mp hfind
    have hrows := congrArg (List.map Prod.fst) hsplit
    rw [List.zipIdx_map_fst, List.map_append, List.map_cons] at hrows
    have hposition : i = before.length := by
      have hentry : rows.zipIdx[before.length]? = some (row, i) := by
        rw [hsplit, List.getElem?_append_right le_rfl, Nat.sub_self, List.getElem?_cons_zero]
      rw [List.getElem?_zipIdx, Option.map_eq_some_iff] at hentry
      obtain ⟨_, -, heq⟩ := hentry
      rw [Nat.zero_add] at heq
      exact (congrArg Prod.snd heq).symm
    refine ⟨before.map Prod.fst, row, after.map Prod.fst, hrows, ?_, by simpa using misfit, ?_⟩
    · rw [List.forall_mem_map]
      intro other hother
      simpa using fits other hother
    · rw [List.length_map, hposition]
  · rintro ⟨before, row, after, rfl, fits, misfit, rfl⟩
    refine ⟨(row, before.length), List.find?_eq_some_iff_append.mpr ⟨by simpa using misfit,
      before.zipIdx, after.zipIdx (before.length + 1), ?_, fun other hother => ?_⟩, rfl⟩
    · rw [List.zipIdx_append, List.zipIdx_cons, Nat.zero_add]
    · simpa using fits other.1 (List.fst_mem_of_mem_zipIdx hother)

/-! ### The entries of a row -/

section Rows

variable {α : Type} [Arith α] {cols i j : ℕ} {rows : List (List α)} {row : List α} {v : α}

omit [Arith α] in
/-- Of pieces that carry their positions, the one at a position. -/
theorem flatMap_zipIdx_ite {γ δ : Type} (f : γ → List δ) (xs : List γ) (n i : ℕ) :
    ((xs.zipIdx n).flatMap fun (x, k) => if k = n + i then f x else [])
      = (xs[i]?.map f).getD [] := by
  induction xs generalizing n i with
  | nil => rfl
  | cons x rest ih =>
      rw [List.zipIdx_cons, List.flatMap_cons]
      cases i with
      | zero =>
          have later : ((rest.zipIdx (n + 1)).flatMap fun (x, k) => if k = n + 0 then f x else [])
              = [] := by
            rw [List.flatMap_eq_nil_iff]
            rintro ⟨y, k⟩ hy
            have := List.le_snd_of_mem_zipIdx hy
            exact if_neg (by omega)
          rw [later]
          simp
      | succ i =>
          have := ih (n + 1) i
          rw [Nat.add_right_comm] at this
          simp only [← Nat.add_assoc] at this ⊢
          rw [this, if_neg (by omega)]
          simp

/-- The triplets of a dense row are its nonzero entries. -/
theorem Triplets.row_ofRows (h : rows[i]? = some row) :
    (Triplets.ofRows cols rows).row i = nonzeros row := by
  have pieces := flatMap_zipIdx_ite nonzeros rows 0 i
  rw [h] at pieces
  refine Eq.trans ?_ pieces
  rw [Triplets.row, Triplets.ofRows, List.filterMap_flatMap]
  refine List.flatMap_congr fun (other, k) _ => ?_
  rw [List.filterMap_map, Nat.zero_add]
  by_cases hk : k = i
  · simp only [Function.comp_def, if_pos hk, List.filterMap_some]
  · simp only [Function.comp_def, if_neg hk, List.filterMap_none]

/-- The triplets of rows of one length lie inside the matrix. -/
theorem Triplets.inside_ofRows (h : ∀ row ∈ rows, row.length = cols) :
    (Triplets.ofRows cols rows).Inside := by
  intro triplet htriplet
  obtain ⟨⟨row, i⟩, hrow, htriplet⟩ := List.mem_flatMap.mp htriplet
  obtain ⟨entry, hentry, rfl⟩ := List.mem_map.mp htriplet
  refine ⟨List.snd_lt_of_mem_zipIdx hrow, ?_⟩
  rw [← h row (List.fst_mem_of_mem_zipIdx hrow)]
  exact List.snd_lt_of_mem_zipIdx (mem_nonzeros hentry)

/-- **Dense rows are stored in one way**, however their triplets are compressed. -/
theorem Compresses.eq_ofEntries {compress : Triplets α → SparseMatrix α} (law : Compresses compress)
    (h : ∀ row ∈ rows, row.length = cols) :
    compress (.ofRows cols rows) = ofEntries cols (rows.map nonzeros) := by
  have inside := Triplets.inside_ofRows h
  have stored := law.stored _ inside
  have height : (compress (.ofRows cols rows)).rowEntries.length = rows.length :=
    (congrArg SparseMatrix.rows stored).symm.trans (law.rows _ inside)
  have entries : (compress (.ofRows cols rows)).rowEntries = rows.map nonzeros := by
    refine List.ext_getElem (height.trans (List.length_map _).symm) fun i hi hi' => ?_
    have hrow : rows[i]? = some rows[i] := List.getElem?_eq_getElem (height ▸ hi)
    have perm := law.keeps _ inside i _ (List.getElem?_eq_getElem hi)
    rw [Triplets.row_ofRows hrow] at perm
    rw [List.getElem_map]
    exact eq_of_perm (perm (nodup_of_sorted (sorted_nonzeros _)))
      (law.sorts _ inside _ (List.getElem_mem hi)) (sorted_nonzeros _)
  rw [stored, law.cols _ inside, entries]
  rfl

theorem Compresses.ofRowsBy_eq {compress : Triplets α → SparseMatrix α} (law : Compresses compress)
    (cols : ℕ) (rows : List (List α)) : ofRowsBy compress cols rows = ofRows cols rows := by
  rw [ofRowsBy, SparseMatrix.ofRows]
  cases hmismatch : firstMismatch cols rows with
  | some e => rfl
  | none => exact congrArg Except.ok (law.eq_ofEntries (firstMismatch_eq_none_iff.mp hmismatch))

theorem ofRows_eq_error_iff {e : RowLength} :
    ofRows cols rows = .error e ↔ firstMismatch cols rows = some e := by
  rw [ofRows]
  cases firstMismatch cols rows <;> simp

/-! ### The stored matrix -/

/-- The matrix that shows the nonzero entries of dense rows: a pointer for each row and one more,
from zero to the number of stored entries, and in each row the entries in the order of their
columns.  A zero that is not stored is read back as zero. -/
structure Compact (A : SparseMatrix α) (cols : ℕ) (rows : List (List α)) : Prop where
  height : A.rows = rows.length
  width : A.cols = cols
  pointers : A.starts.length = rows.length + 1
  first : A.starts.head? = some 0
  monotone : A.starts.Pairwise (· ≤ ·)
  last : A.starts.getLast? = some A.values.length
  columns : A.columns.length = A.values.length
  entries : A.rowEntries.length = rows.length
  sorted : ∀ row ∈ A.rowEntries, (row.map Prod.fst).Pairwise (· < ·)
  shows : ∀ (i : ℕ) (row : List α) (stored : List (ℕ × α)), rows[i]? = some row →
    A.rowEntries[i]? = some stored →
      ∀ (j : ℕ) (v : α), (j, v) ∈ stored ↔ row[j]? = some v ∧ (v == 0) = false
  toRows : A.toRows = rows.map fun row => row.map fun v => if v == 0 then 0 else v

/-- **The stored matrix shows the nonzero entries of each row.** -/
theorem compact_ofRows {A : SparseMatrix α} (h : ofRows cols rows = .ok A) :
    A.Compact cols rows := by
  obtain ⟨width, rfl⟩ := ofRows_eq_ok_iff.mp h
  have entries := rowEntries_ofEntries cols (rows.map nonzeros)
  refine ⟨List.length_map _, rfl, ?_, head?_offsets _ _, starts_ofEntries_sorted _ _,
    getLast?_starts_ofEntries _ _, ?_, ?_, (wellFormed_ofRows h).sorted, ?_, ?_⟩
  · exact (length_offsets _ _).trans (congrArg (· + 1) (List.length_map _))
  · rw [values_ofEntries, List.length_map, ofEntries, List.length_map]
  · rw [entries, List.length_map]
  · intro i row stored hrow hstored j v
    rw [entries, List.getElem?_map, hrow, Option.map_some, Option.some.injEq] at hstored
    rw [← hstored, mem_nonzeros_iff_beq]
  · rw [SparseMatrix.toRows, entries, cols_ofEntries, List.map_map]
    exact List.map_congr_left fun row hrow => denseRow_nonzeros_eq_map (width row hrow)

end Rows

/-! ### The product with a vector -/

section Exact

variable {row x : List ExtRat}

/-- The product of a dense row with a vector, in which a coefficient that is zero counts for
nothing, whatever it meets. -/
def supportDot (row x : List ExtRat) : ExtRat :=
  total (List.zipWith (fun a v => if a == 0 then 0 else a * v) row x)

/-- Every coefficient of the row that is zero meets a number. -/
def ZerosMeetNumbers (row x : List ExtRat) : Prop :=
  ∀ pair ∈ row.zip x, pair.1 = 0 → isFinite pair.2 = true

theorem ZerosMeetNumbers.of_forall_isFinite (h : ∀ v ∈ x, isFinite v = true) :
    ZerosMeetNumbers row x :=
  fun pair hpair _ => h pair.2 (List.of_mem_zip hpair).2

/-- A zero that meets a number counts for nothing anyway. -/
theorem supportDot_eq_dot (h : ZerosMeetNumbers row x) : supportDot row x = dot row x := by
  rw [supportDot, dot, ← List.map_uncurry_zip_eq_zipWith, ← List.map_uncurry_zip_eq_zipWith]
  refine congrArg total (List.map_congr_left fun pair hpair => ?_)
  rw [Function.uncurry, Function.uncurry]
  cases hzero : pair.1 == 0 with
  | true =>
      have zero := ExtRat.beq_zero_iff.mp hzero
      rw [if_pos rfl, zero, ExtRat.zero_mul_of_isFinite (h pair hpair zero)]
  | false => exact if_neg Bool.false_ne_true

/-- A sum with an undefined term is undefined. -/
theorem total_eq_undef {xs : List ExtRat} (h : .undef ∈ xs) : total xs = .undef := by
  induction xs using List.reverseRecOn with
  | nil => cases h
  | append_singleton xs v ih =>
      rw [total_append_singleton]
      rcases List.mem_append.mp h with earlier | last
      · rw [ih earlier]
        rfl
      · rw [← List.mem_singleton.mp last]
        cases total xs <;> rfl

/-- A zero that meets no number leaves the product undefined. -/
theorem dot_eq_undef (h : ¬ ZerosMeetNumbers row x) : dot row x = .undef := by
  simp only [ZerosMeetNumbers, not_forall] at h
  obtain ⟨⟨a, v⟩, hpair, rfl, infinite⟩ := h
  rw [dot, ← List.map_uncurry_zip_eq_zipWith]
  exact total_eq_undef (List.mem_map.mpr
    ⟨(0, v), hpair, ExtRat.zero_mul_of_not_isFinite infinite⟩)

/-- What is left out of a sum counts as zero. -/
theorem total_filterMap {γ : Type} (f : γ → Option ExtRat) (ys : List γ) :
    total (ys.filterMap f) = total (ys.map fun y => (f y).getD 0) := by
  induction ys using List.reverseRecOn with
  | nil => rfl
  | append_singleton ys y ih =>
      rw [List.map_append, List.map_singleton, total_append_singleton, ← ih, List.filterMap_append]
      cases hy : f y with
      | none => simp [hy, ExtRat.add_zero]
      | some v => simp [hy, total_append_singleton]

/-- Over exact numbers, the product of a stored row is that of the dense row. -/
theorem rowProduct_nonzeros (h : x.length = row.length) :
    rowProduct x (nonzeros row) = supportDot row x := by
  have paired : row.zip x = row.zipIdx.map fun entry => (entry.1, x.getD entry.2 0) := by
    refine List.ext_getElem (by simp [h]) fun j hj hj' => ?_
    simp only [List.length_zip, h, min_self] at hj
    simp [h, hj]
  rw [rowProduct, nonzeros, List.map_filterMap, total_filterMap, supportDot,
    ← List.map_uncurry_zip_eq_zipWith, paired, List.map_map]
  refine congrArg total (List.map_congr_left fun entry _ => ?_)
  cases hzero : entry.1 == 0 <;> simp [Function.uncurry, hzero]

/-- Reading back exact rows changes nothing. -/
theorem toRows_of_ofRows {cols : ℕ} {rows : List (List ExtRat)} {A : SparseMatrix ExtRat}
    (h : ofRows cols rows = .ok A) : A.toRows = rows := by
  rw [(compact_ofRows h).toRows]
  refine (List.map_congr_left fun row _ => ?_).trans (List.map_id _)
  exact map_ite_beq_zero row

/-- The product of stored rows with a vector. -/
theorem product?_ofRows {cols : ℕ} {rows : List (List ExtRat)} {A : SparseMatrix ExtRat}
    (h : ofRows cols rows = .ok A) (hx : x.length = cols) :
    A.product? x = some (rows.map (supportDot · x)) := by
  subst hx
  obtain ⟨width, rfl⟩ := ofRows_eq_ok_iff.mp h
  rw [product?_eq_some (wellFormed_ofRows h).inRange, rowEntries_ofEntries, List.map_map]
  exact congrArg some (List.map_congr_left fun row hrow =>
    rowProduct_nonzeros (width row hrow).symm)

end Exact

/-! ### A round trip -/

/-- **Dense rows are stored without loss**, however triplets are compressed.  They are accepted if
they all have the expected length, and otherwise the first that has not is reported.  What is stored
shows their nonzero entries and is read back as the rows.  The left-hand sides of an exact program
are then the products of the rows with a point, wherever no zero of a row meets an infinite or
undefined coordinate, and so in all rows at a point of numbers.  Where one does, the product of the
row is undefined, but the zero, which is not stored, counts for nothing. -/
theorem dense_roundTrip {compress : ∀ (α : Type) [Arith α], Triplets α → SparseMatrix α}
    (law : ∀ (α : Type) [Arith α], Compresses (compress α)) :
    (∀ (α : Type) [Arith α] (cols : ℕ) (rows : List (List α)),
      ofRowsBy (compress α) cols rows = ofRows cols rows
        ∧ ((∃ A, ofRowsBy (compress α) cols rows = .ok A) ↔ ∀ row ∈ rows, row.length = cols)
        ∧ (∀ e, ofRowsBy (compress α) cols rows = .error e
          ↔ ∃ (before : List (List α)) (row : List α) (after : List (List α)),
            rows = before ++ row :: after ∧ (∀ other ∈ before, other.length = cols)
              ∧ row.length ≠ cols ∧ e = ⟨before.length, row.length, cols⟩)
        ∧ ∀ A, ofRowsBy (compress α) cols rows = .ok A → A.Compact cols rows)
      ∧ ∀ (rows : List (List ExtRat)) (limits objective : List ExtRat) (p : Program ExtRat),
        Program.ofSource (.dense rows) limits objective = .ok p →
          p.matrix.toRows = rows
          ∧ ∀ x : List ExtRat, x.length = p.numVars →
            p.activities? x = some (rows.map (supportDot · x))
            ∧ (∀ row ∈ rows, (ZerosMeetNumbers row x → supportDot row x = dot row x)
              ∧ (¬ ZerosMeetNumbers row x → dot row x = .undef))
            ∧ ((∀ v ∈ x, isFinite v = true) → p.activities? x = some (rows.map (dot · x))) := by
  constructor
  · intro α _ cols rows
    rw [(law α).ofRowsBy_eq]
    refine ⟨rfl, ?_, fun e => ofRows_eq_error_iff.trans firstMismatch_eq_some_iff,
      fun A h => compact_ofRows h⟩
    constructor
    · rintro ⟨A, hA⟩
      exact (ofRows_eq_ok_iff.mp hA).1
    · exact fun width => ⟨_, ofRows_eq_ok_iff.mpr ⟨width, rfl⟩⟩
  · intro rows limits objective p hp
    obtain ⟨A, stored, rfl, -⟩ := Program.ofSource_eq_ok_iff.mp hp
    refine ⟨toRows_of_ofRows stored, fun x hx => ?_⟩
    have products : Program.activities? ⟨objective, A, limits⟩ x
        = some (rows.map (supportDot · x)) := product?_ofRows stored hx
    refine ⟨products, fun row _ => ⟨supportDot_eq_dot, dot_eq_undef⟩, fun finite => ?_⟩
    refine products.trans (congrArg some (List.map_congr_left fun row _ => ?_))
    exact supportDot_eq_dot (.of_forall_isFinite finite)

/-- Triplets, sorted row by row. -/
def compressSorted {α : Type} (T : Triplets α) : SparseMatrix α :=
  ofEntries T.cols ((List.range T.rows).map fun i =>
    (T.row i).mergeSort fun a b => decide (a.1 ≤ b.1))

theorem compresses_compressSorted (α : Type) : Compresses (compressSorted (α := α)) where
  rows T _ := by rw [compressSorted, rows_ofEntries, List.length_map, List.length_range]
  cols T _ := rfl
  stored T _ := by rw [compressSorted, cols_ofEntries, rowEntries_ofEntries]
  keeps T _ i row h _ := by
    rw [compressSorted, rowEntries_ofEntries, List.getElem?_map, Option.map_eq_some_iff] at h
    obtain ⟨k, hk, rfl⟩ := h
    obtain ⟨-, rfl⟩ := List.getElem?_eq_some_iff.mp hk
    rw [List.getElem_range]
    exact List.mergeSort_perm _ _
  sorts T _ := by
    rw [compressSorted, rowEntries_ofEntries, List.forall_mem_map]
    intro i _
    rw [List.pairwise_map]
    refine (List.pairwise_mergeSort (fun a b c hab hbc => ?_) (fun a b => ?_) _).imp
      of_decide_eq_true
    · exact decide_eq_true ((of_decide_eq_true hab).trans (of_decide_eq_true hbc))
    · simpa using le_total a.1 b.1

/-- A row with an entry, and one without. -/
def gappedRows : List (List ExtRat) := [[.num 3, .num 0], [.num 0, .num 0]]

/-- A row without entries lies between two others, and a third row that is too short is reported.
At a point with an infinite coordinate, a row that has no zero there is multiplied as it was given;
the product of the other is undefined, but nothing of it is stored. -/
theorem dense_roundTrip_gap :
    (∃ A, ofRowsBy compressSorted 2 [[(3 : ℚ), 0], [0, 0], [-1, 2]] = .ok A
        ∧ A.Compact 2 [[3, 0], [0, 0], [-1, 2]])
      ∧ ofRowsBy compressSorted 2 [[(3 : ℚ), 0], [0, 0], [1]] = .error ⟨2, 1, 2⟩
      ∧ ∃ p : Program ExtRat,
        Program.ofSource (.dense gappedRows) [.num 1, .num 1] [.num 1, .num 1] = .ok p
          ∧ p.activities? [.posInf, .num 2] = some [.posInf, .num 0]
          ∧ gappedRows.map (dot · [.posInf, .num 2]) = [.posInf, .undef] := by
  have law (α : Type) [Arith α] : Compresses (compressSorted (α := α)) :=
    compresses_compressSorted α
  obtain ⟨stored, exact⟩ := dense_roundTrip law
  obtain ⟨-, accepted, -, compact⟩ := stored ℚ 2 [[3, 0], [0, 0], [-1, 2]]
  obtain ⟨A, hA⟩ := accepted.mpr (by decide)
  obtain ⟨-, -, rejected, -⟩ := stored ℚ 2 [[3, 0], [0, 0], [1]]
  obtain ⟨products, -⟩ := (exact gappedRows [.num 1, .num 1] [.num 1, .num 1] _ rfl).2
    [.posInf, .num 2] rfl
  exact ⟨⟨A, hA, compact A hA⟩,
    (rejected _).mpr ⟨[[3, 0], [0, 0]], [1], [], rfl, by decide, by decide, rfl⟩, _, rfl,
    products.trans (by decide +kernel), by decide +kernel⟩

/-- Where zeros meet infinity, the left-hand sides are not the products of the rows, which are
undefined. -/
theorem activities_ne_products_at_infinity :
    ∃ p : Program ExtRat,
      Program.ofSource (.dense gappedRows) [.num 1, .num 1] [.num 1, .num 1] = .ok p
        ∧ p.numVars = 2
        ∧ p.activities? [.num 2, .posInf] = some [.num 6, .num 0]
        ∧ gappedRows.map (dot · [.num 2, .posInf]) = [.undef, .undef]
        ∧ p.activities? [.num 2, .posInf] ≠ some (gappedRows.map (dot · [.num 2, .posInf])) :=
  ⟨_, rfl, rfl, by decide +kernel, by decide +kernel, by decide +kernel⟩

end IntegerProgramming.SparseMatrix
