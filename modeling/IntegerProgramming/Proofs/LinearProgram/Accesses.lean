import Mathlib
import IntegerProgramming.Proofs.LinearProgram.Bases
import IntegerProgramming.Proofs.LinearProgram.Grid

/-!
# Simplex — one operation on the grid after the other

A grid holds a tableau (`Grid.Shows`) if its cells are those of the equations and its basic
variables are those of the rows.  Every operation on such a grid uses positions that exist and
writes rows that are as long as the others: it does not fail (`Yields`), and it leaves a grid that
holds what the operation on the tableau gives.  Nothing is asked of the arithmetic.

* `Grid.Shows.withArtificialObjective?`, `Grid.Shows.withObjective?`: the two objectives.
* `Grid.Shows.pivot?`: **one pivot**, in a column of a variable.
* `Grid.Shows.expelArtificials?`: the exchanges between the phases.
* `Grid.Shows.optimize?`: **a whole phase**, for every tolerance and budget.
* `Grid.Shows.vertex?`: the vertex is read off.
-/

namespace IntegerProgramming.LinearProgram

open Tableau (Candidate tieWidth)

/-! ### Computations that do not fail -/

section Yields

variable {β γ δ ι : Type}

/-- A computation does not fail, and its result has a property. -/
def Yields (o : Option β) (P : β → Prop) : Prop := ∃ b, o = some b ∧ P b

variable {o : Option β} {b : β} {P : β → Prop} {Q : γ → Prop} {f : β → Option γ}

theorem Yields.pure (h : P b) : Yields (pure b) P := ⟨b, rfl, h⟩

theorem Yields.bind (h : Yields o P) (next : ∀ b, P b → Yields (f b) Q) : Yields (o >>= f) Q := by
  obtain ⟨b, rfl, hb⟩ := h
  exact next b hb

theorem Yields.bind_some (h : o = some b) (next : Yields (f b) Q) : Yields (o >>= f) Q := by
  rw [h]
  exact next

theorem Yields.mono {Q : β → Prop} (h : Yields o P) (imp : ∀ b, P b → Q b) : Yields o Q := by
  obtain ⟨b, rfl, hb⟩ := h
  exact ⟨b, rfl, imp b hb⟩

variable {R : β → δ → Prop} {d : δ}

/-- A loop that follows another one, step by step. -/
theorem Yields.foldlM {xs : List ι} {step : β → ι → Option β} {next : δ → ι → δ}
    (h : ∀ i ∈ xs, ∀ b d, R b d → Yields (step b i) (R · (next d i))) (start : R b d) :
    Yields (xs.foldlM step b) (R · (xs.foldl next d)) := by
  induction xs generalizing b d with
  | nil => exact .pure start
  | cons i rest ih =>
      obtain ⟨hi, hrest⟩ := List.forall_mem_cons.mp h
      rw [List.foldlM_cons, List.foldl_cons]
      exact (hi b d start).bind fun _ hb => ih hrest hb

/-- A loop over the positions of a list follows one over its entries. -/
theorem Yields.foldlM_range {xs : List γ} {n : ℕ} {step : β → ℕ → Option β}
    {next : δ → γ → ℕ → δ} (hn : xs.length = n)
    (h : ∀ i x, xs[i]? = some x → ∀ b d, R b d → Yields (step b i) (R · (next d x i)))
    (start : R b d) :
    Yields ((List.range n).foldlM step b)
      (R · (xs.zipIdx.foldl (fun d e => next d e.1 e.2) d)) := by
  have positions : List.range n = xs.zipIdx.map Prod.snd := by
    rw [List.zipIdx_map_snd, List.range_eq_range', hn]
  rw [positions, List.foldlM_map]
  exact .foldlM (fun e he => h e.2 e.1 (List.mk_mem_zipIdx_iff_getElem?.mp he)) start

theorem foldl_zipIdx_fst (next : δ → γ → δ) (xs : List γ) (d : δ) :
    xs.zipIdx.foldl (fun d e => next d e.1) d = xs.foldl next d := by
  rw [← List.foldl_map, List.zipIdx_map_fst]

theorem Yields.foldlM_entries {xs : List γ} {n : ℕ} {step : β → ℕ → Option β} {next : δ → γ → δ}
    (hn : xs.length = n)
    (h : ∀ i x, xs[i]? = some x → ∀ b d, R b d → Yields (step b i) (R · (next d x)))
    (start : R b d) : Yields ((List.range n).foldlM step b) (R · (xs.foldl next d)) := by
  rw [← foldl_zipIdx_fst]
  exact .foldlM_range hn h start

end Yields

/-! ### Cells of an equation -/

namespace Equation

variable {α : Type} {e e' : Equation α} {j : ℕ}

/-- The coefficients, and the right-hand side after them. -/
def cells (e : Equation α) : List α := e.coeffs ++ [e.rhs]

theorem length_cells (e : Equation α) : e.cells.length = e.coeffs.length + 1 :=
  List.length_append

theorem getElem?_cells_rhs (e : Equation α) : e.cells[e.coeffs.length]? = some e.rhs := by
  rw [cells, List.getElem?_append_right le_rfl, Nat.sub_self]
  rfl

theorem mergeInto_cells {f : α → α → α} (h : e.coeffs.length = e'.coeffs.length) :
    mergeInto f e.cells e'.cells = (e.combine f e').cells := by
  rw [mergeInto_eq_zipWith (by rw [length_cells, length_cells, h]), cells, cells,
    List.zipWith_append h]
  rfl

variable [Arith α]

theorem getElem?_cells (h : j < e.coeffs.length) : e.cells[j]? = some (e.coeff j) := by
  rw [cells, List.getElem?_append_left h, coeff, List.getD_eq_getElem?_getD,
    List.getElem?_eq_getElem h, Option.getD_some]

theorem map_div_cells (e : Equation α) (p : α) : e.cells.map (· / p) = (e.divide p).cells :=
  List.map_append

end Equation

/-! ### The grid of a tableau -/

/-- The equations of a tableau, the objective after the others. -/
def Tableau.equations {α : Type} (t : Tableau α) : List (Equation α) :=
  t.rows.map Row.equation ++ [t.objective]

namespace Grid

variable {α : Type} {l : Layout} {g : Grid α l} {t : Tableau α}

/-- A grid holds a tableau. -/
structure Shows (g : Grid α l) (t : Tableau α) : Prop where
  structural : t.structural = l.structural
  firstArtificial : t.firstArtificial = l.firstArtificial
  columns : t.columns = l.columns
  rows : g.rows = t.equations.map Equation.cells
  basis : g.basis = t.rows.map Row.basic

variable {i j : ℕ} {row : Row α} {e : Equation α}

theorem length_coeffs (h : g.rows[i]? = some e.cells) : e.coeffs.length = l.columns :=
  Nat.succ.inj (e.length_cells.symm.trans (g.length_row _ (List.mem_of_getElem? h)))

theorem cell?_eq_some [Arith α] (h : g.rows[i]? = some e.cells) (hj : j < l.columns) :
    g.cell? i j = some (e.coeff j) := by
  rw [cell?, h]
  exact Equation.getElem?_cells (length_coeffs h ▸ hj)

theorem cell?_columns (h : g.rows[i]? = some e.cells) : g.cell? i l.columns = some e.rhs := by
  rw [cell?, h, ← length_coeffs h]
  exact e.getElem?_cells_rhs

namespace Shows

theorem length_rows (h : Shows g t) : t.rows.length = l.rows := by
  rw [← g.length_basis, h.basis, List.length_map]

theorem getElem?_rows (h : Shows g t) (hrow : t.rows[i]? = some row) :
    g.rows[i]? = some row.equation.cells := by
  have hi := (List.getElem?_eq_some_iff.mp hrow).1
  rw [h.rows, Tableau.equations, List.getElem?_map, List.getElem?_append_left (by simpa using hi),
    List.getElem?_map, hrow]
  rfl

theorem getElem?_objective (h : Shows g t) : g.rows[l.rows]? = some t.objective.cells := by
  have hlength : (t.rows.map Row.equation).length = l.rows := by rw [List.length_map, h.length_rows]
  rw [h.rows, Tableau.equations, List.getElem?_map, ← hlength, List.getElem?_concat_length]
  rfl

theorem getElem?_basis (h : Shows g t) (hrow : t.rows[i]? = some row) :
    g.basis[i]? = some row.basic := by
  rw [h.basis, List.getElem?_map, hrow]
  rfl

end Shows

/-! ### Accesses -/

theorem seek?_eq_some [Arith α] {limit : ℕ} (h : g.rows[i]? = some e.cells)
    (hlimit : limit ≤ l.columns) (test : α → Bool) :
    g.seek? i test limit = some ((e.coeffs.take limit).findIdx? test) := by
  have hlength : (e.coeffs.take limit).length = limit := by
    rw [List.length_take, length_coeffs h, min_eq_left hlimit]
  have reads : ∀ j ∈ List.range limit, (do let a ← g.cell? i j; return test a)
      = some (test ((e.coeffs.take limit).getD j 0)) := by
    intro j hj
    have hlt := List.mem_range.mp hj
    rw [cell?_eq_some h (hlt.trans_le hlimit), Equation.coeff, List.getD_eq_getElem?_getD,
      List.getD_eq_getElem?_getD, List.getElem?_take_of_lt hlt]
    rfl
  rw [seek?, findM?_eq_some reads]
  have found := find?_range_eq test 0 (e.coeffs.take limit)
  rw [hlength] at found
  rw [found]

theorem yields_putRow? {cells : List α} (hi : i < g.rows.length)
    (hcells : cells.length = l.columns + 1) :
    Yields (g.putRow? i cells) fun g' => g'.rows = g.rows.set i cells ∧ g'.basis = g.basis := by
  rw [putRow?, dif_pos ⟨hi, hcells⟩]
  exact .pure ⟨rfl, rfl⟩

theorem yields_putBasic? (hi : i < g.basis.length) (hj : j < l.columns) :
    Yields (g.putBasic? i j) fun g' => g'.basis = g.basis.set i j ∧ g'.rows = g.rows := by
  rw [putBasic?, dif_pos ⟨hi, hj⟩]
  exact .pure ⟨rfl, rfl⟩

/-! ### Objectives -/

/-- The cells of an equation that is as long as the table is wide. -/
def Writes (l : Layout) (cells : List α) (e : Equation α) : Prop :=
  cells = e.cells ∧ e.coeffs.length = l.columns

theorem Writes.mergeInto {cells : List α} {f : α → α → α} {e' : Equation α}
    (h : Writes l cells e) (h' : e'.coeffs.length = l.columns) :
    Writes l (mergeInto f cells e'.cells) (e.combine f e') := by
  obtain ⟨rfl, hlength⟩ := h
  exact ⟨Equation.mergeInto_cells (hlength.trans h'.symm), by simp [hlength, h']⟩

/-- Another objective. -/
theorem Shows.putRow?_rows {cells : List α} (h : Shows g t) (w : Writes l cells e) :
    Yields (g.putRow? l.rows cells) (Shows · { t with objective := e }) := by
  obtain ⟨rfl, hlength⟩ := w
  have hrows : l.rows < g.rows.length := g.length_rows ▸ Nat.lt_succ_self _
  refine (yields_putRow? hrows (by rw [e.length_cells, hlength])).mono fun g' ⟨hg, hbasis⟩ =>
    ⟨h.structural, h.firstArtificial, h.columns, ?_, hbasis.trans h.basis⟩
  have last : (t.rows.map (Equation.cells ∘ Row.equation)).length = l.rows := by
    rw [List.length_map, h.length_rows]
  rw [hg, h.rows, Tableau.equations, Tableau.equations, List.map_append, List.map_append,
    List.map_map, List.map_singleton, List.map_singleton, List.set_append_right _ _ last.le,
    last, Nat.sub_self]
  rfl

variable [Arith α] {tol : α} {r limit : ℕ} {c : List α}

theorem Shows.withArtificialObjective? (h : Shows g t) :
    Yields g.withArtificialObjective? (Shows · t.withArtificialObjective) := by
  have hcolumns : l.firstArtificial + (l.columns - l.firstArtificial) = l.columns :=
    Nat.add_sub_cancel' (Nat.le_add_right ..)
  -- one for every artificial variable
  have plain : (List.range' l.firstArtificial (l.columns - l.firstArtificial)).foldlM
      (fun obj j => write? obj j 1) (List.replicate (l.columns + 1) (0 : α))
      = some (List.replicate l.firstArtificial 0
          ++ List.replicate (l.columns - l.firstArtificial) 1 ++ [0]) := by
    have := foldlM_write?_range' (List.replicate l.firstArtificial (0 : α))
      (l.columns - l.firstArtificial) 0 1 [0]
    rwa [List.length_replicate, List.replicate_append_replicate, hcolumns,
      ← List.replicate_succ'] at this
  -- the basic ones are priced out
  have start : Writes l (List.replicate l.firstArtificial 0
      ++ List.replicate (l.columns - l.firstArtificial) 1 ++ [0])
      (⟨List.replicate t.firstArtificial 0
        ++ List.replicate (t.columns - t.firstArtificial) 1, 0⟩ : Equation α) := by
    rw [h.firstArtificial, h.columns]
    exact ⟨rfl, by simp [hcolumns]⟩
  have step : ∀ i row, t.rows[i]? = some row → ∀ cells e, Writes l cells e →
      Yields (g.priceArtificial? cells i) (Writes l ·
        (if t.isArtificial row.basic then e.minus row.equation else e)) := by
    intro i row hrow cells e he
    refine .bind_some (h.getElem?_basis hrow) ?_
    by_cases hart : l.firstArtificial ≤ row.basic
    · have artificial : t.isArtificial row.basic = true :=
        decide_eq_true (h.firstArtificial.trans_le hart)
      rw [if_pos hart, if_pos artificial]
      exact .bind_some (h.getElem?_rows hrow)
        (.pure (he.mergeInto (length_coeffs (h.getElem?_rows hrow))))
    · have own : ¬ t.isArtificial row.basic = true := fun hart' =>
        hart (h.firstArtificial.symm.trans_le (of_decide_eq_true hart'))
      rw [if_neg hart, if_neg own]
      exact .pure he
  exact .bind_some plain ((Yields.foldlM_entries h.length_rows step start).bind fun _ w =>
    h.putRow?_rows w)

theorem Shows.withObjective? (h : Shows g t) (hc : c.length = l.structural) :
    Yields (g.withObjective? c) (Shows · (t.withObjective c)) := by
  have hstructural : c.length ≤ l.columns := by
    rw [hc, Layout.columns, Layout.firstArtificial]
    omega
  have start : Writes l (mergeInto (fun _ a => -a) (List.replicate (l.columns + 1) 0) c)
      (⟨c.map (- ·) ++ List.replicate (t.columns - c.length) 0, 0⟩ : Equation α) := by
    rw [mergeInto_replicate (hstructural.trans (Nat.le_succ _)), h.columns,
      Nat.succ_sub hstructural, List.replicate_succ', ← List.append_assoc]
    exact ⟨rfl, by simp [hstructural]⟩
  have step : ∀ i row, t.rows[i]? = some row → ∀ cells e, Writes l cells e →
      Yields (g.price? c cells i) (Writes l ·
        (let cost := if row.basic < t.structural then c.getD row.basic 0 else 0
         if cost == 0 then e else e.plusMultiple cost row.equation)) := by
    intro i row hrow cells e he
    have hcost : cost? l c row.basic
        = some (if row.basic < t.structural then c.getD row.basic 0 else 0) := by
      rw [cost?, h.structural]
      split
      · rename_i hlt
        rw [List.getD_eq_getElem?_getD, List.getElem?_eq_getElem (hc.symm ▸ hlt), Option.getD_some]
      · rfl
    generalize (if row.basic < t.structural then c.getD row.basic 0 else 0) = cost at hcost ⊢
    refine .bind_some (h.getElem?_basis hrow) (.bind_some hcost ?_)
    dsimp only
    split
    · exact .pure he
    · exact .bind_some (h.getElem?_rows hrow)
        (.pure (he.mergeInto (length_coeffs (h.getElem?_rows hrow))))
  exact (Yields.foldlM_entries h.length_rows step start).bind fun _ w => h.putRow?_rows w

/-! ### Choices -/

/-- A position and a ratio stand for a candidate, the basic variable being looked up. -/
def Names (g : Grid α l) (best : Option (ℕ × α)) (c : Option (Candidate α)) : Prop :=
  best = c.map (fun c => (c.row, c.ratio)) ∧ ∀ d ∈ c, g.basis[d.row]? = some d.basic

theorem Shows.contest? (h : Shows g t) (hrow : t.rows[i]? = some row) (hj : j < l.columns)
    {best : Option (ℕ × α)} {c : Option (Candidate α)} (hbest : Names g best c) :
    Yields (g.contest? tol j best i) (Names g · (Tableau.contest tol j c row i)) := by
  obtain ⟨rfl, hbasic⟩ := hbest
  have hcells := h.getElem?_rows hrow
  have own := h.getElem?_basis hrow
  refine .bind_some (cell?_eq_some hcells hj) ?_
  rw [Tableau.contest]
  by_cases hcoeff : row.equation.coeff j ≤ tol
  · rw [if_pos hcoeff, if_pos hcoeff]
    exact .pure ⟨rfl, hbasic⟩
  · rw [if_neg hcoeff, if_neg hcoeff]
    refine .bind_some (cell?_columns hcells) ?_
    have new : Names g (some (i, row.equation.rhs / row.equation.coeff j))
        (some ⟨i, row.basic, row.equation.rhs / row.equation.coeff j⟩) :=
      ⟨rfl, by rintro d ⟨⟩; exact own⟩
    cases c with
    | none => exact .pure new
    | some b =>
        have old : Names g (some (b.row, b.ratio)) (some b) := ⟨rfl, hbasic⟩
        dsimp only [Option.map_some]
        rw [Candidate.beats]
        -- the basic variables are looked at only in a tie
        by_cases hless : row.equation.rhs / row.equation.coeff j < b.ratio - tieWidth
        · rw [if_pos hless, decide_eq_true hless, Bool.true_or, if_pos rfl]
          exact .pure new
        rw [if_neg hless, decide_eq_false hless, Bool.false_or]
        by_cases htie : absolute (row.equation.rhs / row.equation.coeff j - b.ratio) ≤ tieWidth
        · rw [if_pos htie, decide_eq_true htie, Bool.true_and]
          refine .bind_some own (.bind_some (hbasic b rfl) ?_)
          by_cases hbasic : row.basic < b.basic
          · rw [if_pos hbasic, decide_eq_true hbasic, if_pos rfl]
            exact .pure new
          · rw [if_neg hbasic, decide_eq_false hbasic, if_neg Bool.false_ne_true]
            exact .pure old
        · rw [if_neg htie, decide_eq_false htie, Bool.false_and, if_neg Bool.false_ne_true]
          exact .pure old

theorem Shows.leaving? (h : Shows g t) (hj : j < l.columns) :
    Yields (g.leaving? tol j) (Names g · (t.leaving? tol j)) := by
  have start : Names g none none := ⟨rfl, fun _ hd => by cases hd⟩
  exact Yields.foldlM_range h.length_rows (fun _ _ hrow _ _ => h.contest? hrow hj) start

/-! ### Pivots -/

omit [Arith α] in
/-- A loop that changes one row after the other changes all of them. -/
theorem yields_foldlM_rows {step : Grid α l → ℕ → Option (Grid α l)}
    {change : ℕ → Equation α → Equation α}
    (h : ∀ (g : Grid α l) (i : ℕ) (e : Equation α), g.rows[i]? = some e.cells →
      Yields (step g i) fun g' =>
        g'.rows = g.rows.set i (change i e).cells ∧ g'.basis = g.basis)
    {es : List (Equation α)} (hes : g.rows = es.map Equation.cells) :
    Yields ((List.range es.length).foldlM step g) fun g' =>
      g'.rows = (es.mapIdx change).map Equation.cells ∧ g'.basis = g.basis := by
  suffices first : ∀ k ≤ es.length, Yields ((List.range k).foldlM step g) fun g' =>
      g'.rows = ((es.take k).mapIdx change ++ es.drop k).map Equation.cells
        ∧ g'.basis = g.basis by
    simpa using first es.length le_rfl
  intro k hk
  induction k with
  | zero => exact .pure ⟨by simpa using hes, rfl⟩
  | succ k ih =>
      rw [List.range_succ, List.foldlM_append]
      refine (ih (Nat.le_of_succ_le hk)).bind fun g₁ ⟨hrows, hbasis⟩ => ?_
      have length : ((es.take k).mapIdx change).length = k := by
        rw [List.length_mapIdx, List.length_take, min_eq_left (Nat.le_of_succ_le hk)]
      have here : g₁.rows[k]? = some es[k].cells := by
        rw [hrows, List.getElem?_map, List.getElem?_append_right length.le, length, Nat.sub_self,
          List.getElem?_drop, Nat.add_zero, List.getElem?_eq_getElem hk, Option.map_some]
      rw [List.foldlM_cons]
      refine (h g₁ k es[k] here).bind fun g₂ ⟨hrows₂, hbasis₂⟩ => .pure ⟨?_, hbasis₂.trans hbasis⟩
      rw [hrows₂, hrows, ← List.map_set, List.set_append_right _ _ length.le, length, Nat.sub_self,
        List.drop_eq_getElem_cons hk, List.set_cons_zero, List.take_succ_eq_append_getElem hk,
        List.mapIdx_concat, List.length_take, min_eq_left (Nat.le_of_succ_le hk),
        List.append_assoc, List.singleton_append]

theorem yields_clearRow? {unit : Equation α} (hunit : unit.coeffs.length = l.columns)
    (hj : j < l.columns) (hi : g.rows[i]? = some e.cells) :
    Yields (clearRow? r j unit.cells g i) fun g' =>
      g'.rows = g.rows.set i (if i = r then e else e.clear j unit).cells
        ∧ g'.basis = g.basis := by
  obtain ⟨hlt, heq⟩ := List.getElem?_eq_some_iff.mp hi
  have same : g.rows = g.rows.set i e.cells := by rw [← heq, List.set_getElem_self]
  rw [clearRow?]
  by_cases hir : i = r
  · rw [if_pos hir, if_pos hir]
    exact .pure ⟨same, rfl⟩
  · rw [if_neg hir, if_neg hir, Equation.clear]
    have hlength := length_coeffs hi
    refine .bind_some hi (.bind_some (Equation.getElem?_cells (hlength.symm ▸ hj)) ?_)
    by_cases hzero : (e.coeff j == 0) = true
    · rw [if_pos hzero, if_pos hzero]
      exact .pure ⟨same, rfl⟩
    · rw [if_neg hzero, if_neg hzero, Equation.mergeInto_cells (hlength.trans hunit.symm)]
      refine yields_putRow? hlt ?_
      rw [Equation.length_cells, Equation.length_combine, hlength, hunit, min_self]

theorem equations_pivot (hrow : t.rows[r]? = some row) (j : ℕ) :
    (t.pivot r j).equations = (t.equations.set r (Tableau.unitRow row j)).mapIdx fun i e =>
      if i = r then e else e.clear j (Tableau.unitRow row j) := by
  have hr := (List.getElem?_eq_some_iff.mp hrow).1
  have hlength : ((t.rows.map Row.equation).set r (Tableau.unitRow row j)).length
      = t.rows.length := by rw [List.length_set, List.length_map]
  rw [Tableau.equations, Tableau.equations, List.set_append_left _ _ (by simpa using hr),
    List.mapIdx_append, hlength, Tableau.objective_pivot hrow]
  refine congrArg₂ _ (List.ext_getElem? fun i => ?_) ?_
  · rw [List.getElem?_map, Tableau.getElem?_rows_pivot hrow, List.getElem?_mapIdx,
      List.getElem?_set, List.getElem?_map, List.length_map]
    by_cases hir : i = r
    · simp [hir, hr]
    · cases t.rows[i]? <;> simp [hir, Ne.symm hir]
  · simp [hr.ne']

theorem basics_pivot (hrow : t.rows[r]? = some row) (j : ℕ) :
    (t.pivot r j).rows.map Row.basic = (t.rows.map Row.basic).set r j := by
  refine List.ext_getElem? fun i => ?_
  rw [List.getElem?_map, Tableau.getElem?_rows_pivot hrow, List.getElem?_set, List.getElem?_map,
    List.length_map]
  by_cases hir : i = r
  · simp [hir, (List.getElem?_eq_some_iff.mp hrow).1]
  · cases t.rows[i]? <;> simp [hir, Ne.symm hir]

theorem Shows.pivot? (h : Shows g t) (hrow : t.rows[r]? = some row) (hj : j < l.columns) :
    Yields (g.pivot? r j) (Shows · (t.pivot r j)) := by
  have hcells := h.getElem?_rows hrow
  have hr := (List.getElem?_eq_some_iff.mp hcells).1
  have hbasic : r < g.basis.length := (List.getElem?_eq_some_iff.mp (h.getElem?_basis hrow)).1
  have hunit : (Tableau.unitRow row j).coeffs.length = l.columns :=
    (Equation.length_divide ..).trans (length_coeffs hcells)
  refine .bind_some (cell?_eq_some hcells hj) (.bind_some hcells ?_)
  rw [Equation.map_div_cells]
  change Yields (g.putRow? r (Tableau.unitRow row j).cells >>= _) _
  refine (yields_putRow? hr (by rw [Equation.length_cells, hunit])).bind fun g₁ hg₁ => ?_
  obtain ⟨hrows₁, hbasis₁⟩ := hg₁
  rw [h.rows, ← List.map_set] at hrows₁
  have here : g₁.rows[r]? = some (Tableau.unitRow row j).cells := by
    rw [hrows₁, List.getElem?_map, List.getElem?_set_self (by simpa [h.rows] using hr),
      Option.map_some]
  refine .bind_some here ?_
  have length : g₁.rows.length = (t.equations.set r (Tableau.unitRow row j)).length := by
    rw [hrows₁, List.length_map]
  rw [length]
  refine (yields_foldlM_rows (fun _ _ _ hi => yields_clearRow? hunit hj hi) hrows₁).bind
    fun g₂ ⟨hrows₂, hbasis₂⟩ => ?_
  rw [← equations_pivot hrow] at hrows₂
  rw [← hbasis₁, ← hbasis₂] at hbasic
  refine (yields_putBasic? hbasic hj).mono fun g₃ ⟨hbasis₃, hrows₃⟩ => ?_
  exact ⟨(Tableau.structural_pivot ..).trans h.structural,
    (Tableau.firstArtificial_pivot ..).trans h.firstArtificial,
    (Tableau.columns_pivot ..).trans h.columns, hrows₃.trans hrows₂,
    by rw [hbasis₃, hbasis₂, hbasis₁, h.basis, basics_pivot hrow]⟩

/-! ### Expelling artificial variables -/

/-- What is found among the first entries of a list has a position among them. -/
theorem findIdx?_take_lt {β : Type} {xs : List β} {n j : ℕ} {test : β → Bool}
    (h : (xs.take n).findIdx? test = some j) : j < n :=
  (List.findIdx?_eq_some_iff_getElem.mp h).1.trans_le (List.length_take_le n xs)

theorem Shows.expel? (h : Shows g t) (hr : r < l.rows) :
    Yields (expel? tol g r) (Shows · (t.expel tol r)) := by
  obtain ⟨row, hrow⟩ : ∃ row, t.rows[r]? = some row :=
    ⟨_, List.getElem?_eq_getElem (h.length_rows.symm ▸ hr)⟩
  rw [Tableau.expel, hrow]
  refine .bind_some (h.getElem?_basis hrow) ?_
  dsimp only
  by_cases hart : row.basic < l.firstArtificial
  · have own : ¬ t.isArtificial row.basic = true := fun hart' =>
      absurd (h.firstArtificial.symm.trans_le (of_decide_eq_true hart')) (not_le.mpr hart)
    rw [if_pos hart, if_neg own]
    exact .pure h
  · have artificial : t.isArtificial row.basic = true :=
      decide_eq_true (h.firstArtificial.trans_le (not_lt.mp hart))
    rw [if_neg hart, if_pos artificial, h.firstArtificial]
    refine .bind_some (seek?_eq_some (h.getElem?_rows hrow) (Nat.le_add_right ..) _) ?_
    cases hfound : (row.equation.coeffs.take l.firstArtificial).findIdx?
        fun a => decide (tol < absolute a) with
    | none => exact .pure h
    | some j => exact h.pivot? hrow ((findIdx?_take_lt hfound).trans_le (Nat.le_add_right ..))

theorem Shows.expelArtificials? (h : Shows g t) (tol : α) :
    Yields (g.expelArtificials? tol) (Shows · (t.expelArtificials tol)) := by
  rw [Tableau.expelArtificials, h.length_rows]
  exact .foldlM (fun r hr _ _ h => h.expel? (List.mem_range.mp hr)) h

end Grid

/-! ### A phase -/

/-- A phase on a grid holds a phase. -/
structure GridPhase.Shows {α : Type} {l : Layout} (q : GridPhase α l) (phase : Phase α) :
    Prop where
  ending : q.ending = phase.ending
  pivots : q.pivots = phase.pivots
  grid : q.grid.Shows phase.tableau

namespace Grid

section Arith

variable {α : Type} [Arith α] {l : Layout} {g : Grid α l} {t : Tableau α} {tol : α} {limit : ℕ}

theorem Shows.entering? (h : Shows g t) (hlimit : limit ≤ l.columns) (tol : α) :
    g.seek? l.rows (fun o => decide (o < -tol)) limit = some (t.entering? tol limit) :=
  seek?_eq_some h.getElem?_objective hlimit _

theorem Shows.optimize? (h : Shows g t) (tol : α) (hlimit : limit ≤ l.columns) (budget : ℕ) :
    Yields (g.optimize? tol limit budget) (GridPhase.Shows · (t.optimize tol limit budget)) := by
  induction budget generalizing g t with
  | zero =>
      refine .bind_some (h.entering? hlimit tol) ?_
      rw [Tableau.optimize]
      cases t.entering? tol limit with
      | none => exact .pure ⟨rfl, rfl, h⟩
      | some j => exact .pure ⟨rfl, rfl, h⟩
  | succ budget ih =>
      refine .bind_some (h.entering? hlimit tol) ?_
      rw [Tableau.optimize, Tableau.move]
      cases hentering : t.entering? tol limit with
      | none => exact .pure ⟨rfl, rfl, h⟩
      | some j =>
          dsimp only
          have hj := (findIdx?_take_lt hentering).trans_le hlimit
          refine (h.leaving? hj).bind fun best hbest => ?_
          obtain ⟨rfl, hbasic⟩ := hbest
          cases hleaving : t.leaving? tol j with
          | none => exact .pure ⟨rfl, rfl, h⟩
          | some c =>
              have hr : c.row < t.rows.length := by
                rw [h.length_rows, ← g.length_basis]
                exact (List.getElem?_eq_some_iff.mp (hbasic c hleaving)).1
              refine (h.pivot? (List.getElem?_eq_getElem hr) hj).bind fun g₁ h₁ => ?_
              exact (ih h₁).bind fun q hq => .pure ⟨hq.ending, congrArg (· + 1) hq.pivots, hq.grid⟩

/-! ### The result -/

theorem Shows.vertex? (h : Shows g t) : g.vertex? = some t.vertex := by
  -- the list of coordinates keeps its length
  have step : ∀ i row, t.rows[i]? = some row → ∀ x y : List α, x = y ∧ y.length = l.structural →
      Yields (g.coordinate? x i) fun x' => x' = (if row.basic < t.structural then
          y.set row.basic (greater row.equation.rhs 0) else y)
        ∧ (if row.basic < t.structural then
          y.set row.basic (greater row.equation.rhs 0) else y).length = l.structural := by
    rintro i row hrow x y ⟨rfl, hlength⟩
    refine .bind_some (h.getElem?_basis hrow) ?_
    rw [h.structural]
    by_cases hlt : row.basic < l.structural
    · rw [if_pos hlt, if_pos hlt]
      refine .bind_some (cell?_columns (h.getElem?_rows hrow)) ?_
      rw [write?_eq_some (hlt.trans_eq hlength.symm)]
      exact .pure ⟨rfl, List.length_set.trans hlength⟩
    · rw [if_neg hlt, if_neg hlt]
      exact .pure ⟨rfl, hlength⟩
  have start : List.replicate l.structural (0 : α) = List.replicate t.structural 0
      ∧ (List.replicate t.structural (0 : α)).length = l.structural := by
    rw [h.structural]
    exact ⟨rfl, List.length_replicate⟩
  obtain ⟨x, hx, rfl, -⟩ := Yields.foldlM_entries h.length_rows step start
  exact hx

end Arith

end Grid

end IntegerProgramming.LinearProgram
