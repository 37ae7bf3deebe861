import Mathlib
import IntegerProgramming.LinearProgram.Simplex

/-!
# Simplex — the table as it is stored

A tableau keeps every equation with its basic variable, and a coefficient that an equation does not
have is zero.  A `Grid` is the same table as it is stored: rows of cells, the last row being the
objective and the last cell of a row its right-hand side, and a list of basic variables beside them.
Whatever is read is read by position, and a position that does not exist is a failure.  Whatever is
written is written by position too, and a grid has its shape by type: to write a row of another
length, or a basic variable that has no column, is a failure as well.

The method is written out here for such grids, one access after the other, so that a run of it that
does not fail (`optimum?`) is one in which every position exists and every row keeps its length.
-/

namespace IntegerProgramming.LinearProgram

/-! ### Lists by position -/

section Lists

variable {β γ : Type} {f : β → γ → β}

/-- Another entry at position `i`, if there is such a position. -/
def write? (xs : List β) (i : ℕ) (x : β) : Option (List β) :=
  if i < xs.length then some (xs.set i x) else none

/-- `f` applied to the entries of the first list, as far as the second one goes; the others are kept
as they are. -/
def mergeInto (f : β → γ → β) : List β → List γ → List β
  | x :: xs, y :: ys => f x y :: mergeInto f xs ys
  | xs, _ => xs

theorem write?_eq_some {xs : List β} {i : ℕ} (h : i < xs.length) (x : β) :
    write? xs i x = some (xs.set i x) := if_pos h

theorem set_append_add {xs ys : List β} {n : ℕ} (h : xs.length = n) (i : ℕ) (x : β) :
    (xs ++ ys).set (n + i) x = xs ++ ys.set i x := by
  rw [List.set_append_right _ _ (by omega), ← h, Nat.add_sub_cancel_left]

/-- The first of some equal entries replaced. -/
theorem set_append_replicate {xs : List β} {n : ℕ} (h : xs.length = n) (k : ℕ) (z x : β) :
    (xs ++ List.replicate (k + 1) z).set n x = xs ++ [x] ++ List.replicate k z := by
  rw [List.append_assoc]
  exact set_append_add h 0 x

theorem mergeInto_eq_zipWith {xs : List β} {ys : List γ} (h : xs.length = ys.length) :
    mergeInto f xs ys = List.zipWith f xs ys := by
  induction xs generalizing ys with
  | nil => rfl
  | cons x xs ih =>
      cases ys with
      | nil => cases h
      | cons y ys => rw [mergeInto, List.zipWith_cons_cons, ih (Nat.succ.inj h)]

/-- Merged into a list of one value, a function of the other list alone. -/
theorem mergeInto_replicate {g : γ → β} {ys : List γ} {n : ℕ} {z : β} (h : ys.length ≤ n) :
    mergeInto (fun _ y => g y) (List.replicate n z) ys
      = ys.map g ++ List.replicate (n - ys.length) z := by
  induction ys generalizing n with
  | nil => cases n <;> rfl
  | cons y ys ih =>
      cases n with
      | zero => cases h
      | succ n =>
          rw [List.replicate_succ, mergeInto, ih (Nat.le_of_succ_le_succ h), List.length_cons,
            Nat.succ_sub_succ]
          rfl

/-- A value written into consecutive places. -/
theorem foldlM_write?_range' (first : List β) (n : ℕ) (z x : β) (last : List β) :
    (List.range' first.length n).foldlM (fun xs j => write? xs j x)
        (first ++ List.replicate n z ++ last)
      = some (first ++ List.replicate n x ++ last) := by
  induction n generalizing first with
  | zero => rfl
  | succ n ih =>
      have written : write? (first ++ List.replicate (n + 1) z ++ last) first.length x
          = some (first ++ [x] ++ List.replicate n z ++ last) := by
        rw [write?_eq_some (by simp), List.set_append_left _ _ (by simp),
          set_append_replicate rfl]
      have ih' := ih (first ++ [x])
      rw [List.length_append, List.length_singleton] at ih'
      rw [List.range'_succ, List.foldlM_cons, written]
      refine ih'.trans ?_
      rw [List.replicate_succ, List.append_assoc first, List.singleton_append]

theorem findM?_eq_some {p : γ → Option Bool} {q : γ → Bool} {xs : List γ}
    (h : ∀ x ∈ xs, p x = some (q x)) : xs.findM? p = some (xs.find? q) := by
  induction xs with
  | nil => rfl
  | cons x xs ih =>
      obtain ⟨hx, hxs⟩ := List.forall_mem_cons.mp h
      rw [List.findM?, hx, List.find?_cons]
      cases q x with
      | true => rfl
      | false => exact ih hxs

theorem find?_range_eq (test : β → Bool) (z : β) (xs : List β) :
    (List.range xs.length).find? (fun j => test (xs.getD j z)) = xs.findIdx? test := by
  induction xs with
  | nil => rfl
  | cons x xs ih =>
      rw [List.length_cons, List.range_succ_eq_map, List.find?_cons, List.findIdx?_cons,
        List.find?_map]
      cases htest : test x with
      | true => simp [htest]
      | false =>
          rw [← ih]
          simp [htest]

end Lists

/-! ### Grids -/

/-- The sizes of a table. -/
structure Layout where
  /-- Number of structural variables. -/
  structural : ℕ
  /-- Number of constraints, and so of slacks. -/
  rows : ℕ
  /-- Number of artificial variables. -/
  artificials : ℕ

namespace Layout

/-- The first column of an artificial variable. -/
def firstArtificial (l : Layout) : ℕ := l.structural + l.rows

/-- The column of the right-hand sides, after those of the variables. -/
def columns (l : Layout) : ℕ := l.firstArtificial + l.artificials

/-- The sizes for some constraints on `n` variables. -/
def ofConstraints {α : Type} [Arith α] (n : ℕ) (cs : List (Constraint α)) : Layout :=
  ⟨n, cs.length, cs.countP fun c => decide (c.limit < 0)⟩

end Layout

/-- A rectangular table with a row for each constraint and one for the objective, and a basic
variable for each constraint. -/
structure Grid (α : Type) (l : Layout) where
  rows : List (List α)
  basis : List ℕ
  length_rows : rows.length = l.rows + 1
  length_row : ∀ row ∈ rows, row.length = l.columns + 1
  length_basis : basis.length = l.rows
  basis_lt : ∀ b ∈ basis, b < l.columns

/-- A phase on a grid: how it ended, after how many pivots, and at which grid. -/
structure GridPhase (α : Type) (l : Layout) where
  ending : Ending
  pivots : ℕ
  grid : Grid α l

namespace Grid

variable {α : Type} {l : Layout}

/-! ### Accesses -/

/-- The cell in column `j` of row `i`. -/
def cell? (g : Grid α l) (i j : ℕ) : Option α := do
  let row ← g.rows[i]?
  row[j]?

/-- Another row at position `i`. -/
def putRow? (g : Grid α l) (i : ℕ) (row : List α) : Option (Grid α l) :=
  if h : i < g.rows.length ∧ row.length = l.columns + 1 then
    some { g with
      rows := g.rows.set i row
      length_rows := List.length_set.trans g.length_rows
      length_row := fun row' h' =>
        (List.mem_or_eq_of_mem_set h').elim (g.length_row row') fun heq => heq ▸ h.2 }
  else none

/-- Another value in column `j` of row `i`. -/
def putCell? (g : Grid α l) (i j : ℕ) (a : α) : Option (Grid α l) := do
  let row ← g.rows[i]?
  let row' ← write? row j a
  g.putRow? i row'

/-- Another basic variable for row `i`. -/
def putBasic? (g : Grid α l) (i j : ℕ) : Option (Grid α l) :=
  if h : i < g.basis.length ∧ j < l.columns then
    some { g with
      basis := g.basis.set i j
      length_basis := List.length_set.trans g.length_basis
      basis_lt := fun b h' =>
        (List.mem_or_eq_of_mem_set h').elim (g.basis_lt b) fun heq => heq ▸ h.2 }
  else none

/-- The first column below `limit` whose cell in row `i` passes a test. -/
def seek? (g : Grid α l) (i : ℕ) (test : α → Bool) (limit : ℕ) : Option (Option ℕ) :=
  (List.range limit).findM? fun j => do
    let a ← g.cell? i j
    return test a

variable [Arith α]

/-! ### The start -/

/-- Zero in every cell. -/
def blank (l : Layout) : Grid α l where
  rows := List.replicate (l.rows + 1) (List.replicate (l.columns + 1) 0)
  basis := List.replicate l.rows 0
  length_rows := List.length_replicate
  length_row row h := by rw [List.eq_of_mem_replicate h, List.length_replicate]
  length_basis := List.length_replicate
  basis_lt b h := by
    obtain ⟨hrows, rfl⟩ := List.mem_replicate.mp h
    rw [Layout.columns, Layout.firstArtificial]
    omega

/-- A constraint written into row `i`, where `a` is the next artificial variable.  Gives the one
after it. -/
def fill? (g : Grid α l) (i a : ℕ) (c : Constraint α) : Option (Grid α l × ℕ) := do
  let sign : α := if c.limit < 0 then -1 else 1
  let g ← c.terms.foldlM (fun g (j, v) => g.putCell? i j (sign * v)) g
  let g ← g.putCell? i (l.structural + i) sign
  let g ← g.putCell? i l.columns (sign * c.limit)
  if c.limit < 0 then
    let g ← g.putCell? i a 1
    let g ← g.putBasic? i a
    return (g, a + 1)
  else
    let g ← g.putBasic? i (l.structural + i)
    return (g, a)

/-- The constraints written into the rows from `i` on. -/
def fillFrom? (i a : ℕ) : List (Constraint α) → Grid α l → Option (Grid α l)
  | [], g => some g
  | c :: rest, g => do
    let (g, a) ← g.fill? i a c
    fillFrom? (i + 1) a rest g

/-- The table of some constraints on `n` variables. -/
def start? (n : ℕ) (cs : List (Constraint α)) : Option (Grid α (.ofConstraints n cs)) :=
  fillFrom? 0 (Layout.ofConstraints n cs).firstArtificial cs (blank _)

/-! ### Objectives -/

/-- The objective `-Σ artificials` so far, without the artificial variable of row `i`. -/
def priceArtificial? (g : Grid α l) (obj : List α) (i : ℕ) : Option (List α) := do
  let b ← g.basis[i]?
  if l.firstArtificial ≤ b then
    let row ← g.rows[i]?
    return mergeInto (· - ·) obj row
  else return obj

/-- The objective `-Σ artificials`, expressed by the nonbasic variables. -/
def withArtificialObjective? (g : Grid α l) : Option (Grid α l) := do
  let plain ← (List.range' l.firstArtificial (l.columns - l.firstArtificial)).foldlM
    (fun obj j => write? obj j 1) (List.replicate (l.columns + 1) (0 : α))
  let priced ← (List.range l.rows).foldlM g.priceArtificial? plain
  g.putRow? l.rows priced

/-- The cost of a variable, which is zero unless it is structural. -/
def cost? (l : Layout) (costs : List α) (b : ℕ) : Option α :=
  if b < l.structural then costs[b]? else some 0

/-- The objective `Σ cⱼ xⱼ` so far, without the basic variable of row `i`. -/
def price? (g : Grid α l) (c : List α) (obj : List α) (i : ℕ) : Option (List α) := do
  let b ← g.basis[i]?
  let cost ← cost? l c b
  if cost == 0 then return obj
  else
    let row ← g.rows[i]?
    return mergeInto (fun o a => o + cost * a) obj row

/-- The objective `Σ cⱼ xⱼ`, expressed by the nonbasic variables. -/
def withObjective? (g : Grid α l) (c : List α) : Option (Grid α l) := do
  let plain : List α := mergeInto (fun _ a => -a) (List.replicate (l.columns + 1) 0) c
  let priced ← (List.range l.rows).foldlM (g.price? c) plain
  g.putRow? l.rows priced

/-! ### Pivots -/

/-- The best row so far and its ratio, after looking at row `i`. -/
def contest? (g : Grid α l) (tol : α) (j : ℕ) (best : Option (ℕ × α)) (i : ℕ) :
    Option (Option (ℕ × α)) := do
  let a ← g.cell? i j
  if a ≤ tol then return best
  else
    let rhs ← g.cell? i l.columns
    let ratio := rhs / a
    match best with
    | none => return some (i, ratio)
    | some (r, least) =>
      if ratio < least - Tableau.tieWidth then return some (i, ratio)
      else if absolute (ratio - least) ≤ Tableau.tieWidth then
        let own ← g.basis[i]?
        let other ← g.basis[r]?
        return if own < other then some (i, ratio) else best
      else return best

/-- The row that leaves when column `j` enters, and its ratio. -/
def leaving? (g : Grid α l) (tol : α) (j : ℕ) : Option (Option (ℕ × α)) :=
  (List.range l.rows).foldlM (g.contest? tol j) none

/-- Column `j` cleared from row `i`, unless that is the row `r` of the pivot. -/
def clearRow? (r j : ℕ) (unit : List α) (g : Grid α l) (i : ℕ) : Option (Grid α l) :=
  if i = r then some g
  else do
    let row ← g.rows[i]?
    let factor ← row[j]?
    if factor == 0 then return g
    else g.putRow? i (mergeInto (fun a u => a - factor * u) row unit)

/-- Column `j` becomes basic at row `r`. -/
def pivot? (g : Grid α l) (r j : ℕ) : Option (Grid α l) := do
  let p ← g.cell? r j
  let row ← g.rows[r]?
  let g ← g.putRow? r (row.map (· / p))
  let unit ← g.rows[r]?
  let g ← (List.range g.rows.length).foldlM (clearRow? r j unit) g
  g.putBasic? r j

/-- Row `r` exchanges an artificial basic variable for another variable, if there is one. -/
def expel? (tol : α) (g : Grid α l) (r : ℕ) : Option (Grid α l) := do
  let b ← g.basis[r]?
  if b < l.firstArtificial then return g
  else
    match ← g.seek? r (fun a => decide (tol < absolute a)) l.firstArtificial with
    | none => return g
    | some j => g.pivot? r j

/-- Artificial variables leave the basis row by row. -/
def expelArtificials? (g : Grid α l) (tol : α) : Option (Grid α l) :=
  (List.range l.rows).foldlM (expel? tol) g

/-- Pivots with the columns below `limit` allowed to enter, until one phase ends or the budget is
spent. -/
def optimize? (tol : α) (limit : ℕ) : (budget : ℕ) → Grid α l → Option (GridPhase α l)
  | 0, g => do
    match ← g.seek? l.rows (fun o => decide (o < -tol)) limit with
    | none => return ⟨.optimal, 0, g⟩
    | some _ => return ⟨.pivotLimit, 0, g⟩
  | budget + 1, g => do
    match ← g.seek? l.rows (fun o => decide (o < -tol)) limit with
    | none => return ⟨.optimal, 0, g⟩
    | some j =>
      match ← g.leaving? tol j with
      | none => return ⟨.unbounded, 0, g⟩
      | some (r, _) =>
        let g ← g.pivot? r j
        let phase ← optimize? tol limit budget g
        return { phase with pivots := phase.pivots + 1 }

/-! ### The result -/

/-- The coordinates so far, with the one that row `i` has for its basic variable. -/
def coordinate? (g : Grid α l) (x : List α) (i : ℕ) : Option (List α) := do
  let b ← g.basis[i]?
  if b < l.structural then
    let rhs ← g.cell? i l.columns
    write? x b (greater rhs 0)
  else return x

/-- The values of the structural variables when the nonbasic variables are zero. -/
def vertex? (g : Grid α l) : Option (List α) :=
  (List.range l.rows).foldlM g.coordinate? (List.replicate l.structural 0)

end Grid

variable {α : Type} {l : Layout} [Scalar α]

/-- Phase one on a grid. -/
def Grid.phaseOne? (s : Settings α) (g : Grid α l) :
    Option (Except (Result α) (Grid α l × ℕ)) :=
  if l.firstArtificial < l.columns then do
    let g ← g.withArtificialObjective?
    let phase ← g.optimize? s.pivotTol l.columns s.pivotLimit
    match phase.ending with
    | .pivotLimit => return .error ⟨.pivotLimit, phase.pivots⟩
    | .unbounded => return .error ⟨.numericalError, phase.pivots⟩
    | .optimal =>
      let value ← phase.grid.cell? l.rows l.columns
      if s.feasTol < -value then return .error ⟨.infeasible (.excess (-value)), phase.pivots⟩
      else
        let g ← phase.grid.expelArtificials? s.pivotTol
        return .ok (g, phase.pivots)
  else some (.ok (g, 0))

/-- Phase two on a grid, and what it found out. -/
def Grid.phaseTwo? (s : Settings α) (c : List α) (g : Grid α l) (spent : ℕ) :
    Option (Result α) := do
  let g ← g.withObjective? c
  let phase ← g.optimize? s.pivotTol l.firstArtificial (s.pivotLimit - spent)
  match phase.ending with
  | .unbounded => return ⟨.unbounded, spent + phase.pivots⟩
  | .pivotLimit => return ⟨.pivotLimit, spent + phase.pivots⟩
  | .optimal =>
    let x ← phase.grid.vertex?
    return ⟨.optimal x (dot c x), spent + phase.pivots⟩

/-- Both phases on an accepted program, with every position looked at before it is used. -/
def optimum? (p : LinearProgram α) (s : Settings α) : Option (Result α) :=
  if p.box.isEmpty then some ⟨.infeasible .box, 0⟩
  else do
    let g ← Grid.start? p.numVars p.constraints
    match ← g.phaseOne? s with
    | .error result => return result
    | .ok (g, spent) => g.phaseTwo? s p.objective spent

end IntegerProgramming.LinearProgram
