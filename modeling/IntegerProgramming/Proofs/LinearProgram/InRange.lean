import Mathlib
import IntegerProgramming.Proofs.LinearProgram.Accesses
import IntegerProgramming.Proofs.LinearProgram.Verdicts
import IntegerProgramming.Proofs.LinearProgram.Vertices

/-!
# Simplex — every position exists

A program whose matrix is stored well names no variable that does not exist, so that its constraints
can be written into a grid, and from there on one operation follows the other.  The run on the grid,
which looks at every position before it uses it, gives the result of the run on the tableau.  The
tolerances, the budget and the arithmetic do not matter: what they decide is which position comes
next, and not whether it exists.

* `Grid.yields_start?`: the constraints fill the grid.
* `LinearProgram.solve_inRange`: **solving an accepted program uses positions that exist.**
-/

namespace IntegerProgramming.LinearProgram

namespace Grid

/-! ### The start -/

section Arith

/-- Writing into the first part of a list leaves the other part alone. -/
theorem foldl_set_append {β : Type} {terms : List (ℕ × β)} {first : List β} (f : β → β)
    (last : List β) (h : ∀ e ∈ terms, e.1 < first.length) :
    terms.foldl (fun row e => row.set e.1 (f e.2)) (first ++ last)
      = terms.foldl (fun row e => row.set e.1 (f e.2)) first ++ last := by
  induction terms generalizing first with
  | nil => rfl
  | cons e rest ih =>
      obtain ⟨he, hrest⟩ := List.forall_mem_cons.mp h
      rw [List.foldl_cons, List.foldl_cons, List.set_append_left _ _ he]
      exact ih (by simpa using hrest)

variable {α : Type} [Arith α] {l : Layout} {g : Grid α l} {c : Constraint α} {i a : ℕ}

/-- The cells of a row at the start in four parts: after the terms, the slack and the right-hand
side have been written, all but the artificial variables. -/
theorem set_terms_eq (hterms : ∀ e ∈ c.terms, e.1 < l.structural) (hi : i < l.rows) (sign v : α) :
    ((c.terms.foldl (fun row e => row.set e.1 (sign * e.2)) (List.replicate (l.columns + 1) 0)).set
        (l.structural + i) sign).set l.columns v
      = c.terms.foldl (fun row e => row.set e.1 (sign * e.2)) (List.replicate l.structural 0)
        ++ (Tableau.unitVector l.rows i sign ++ (List.replicate l.artificials 0 ++ [v])) := by
  have parts : List.replicate (l.columns + 1) (0 : α) = List.replicate l.structural 0
      ++ (List.replicate l.rows 0 ++ (List.replicate l.artificials 0 ++ [0])) := by
    rw [← List.replicate_succ', List.replicate_append_replicate, List.replicate_append_replicate,
      Layout.columns, Layout.firstArtificial, Nat.add_assoc, Nat.add_assoc]
  have structural : (c.terms.foldl (fun row e => row.set e.1 (sign * e.2))
      (List.replicate l.structural 0)).length = l.structural :=
    (Tableau.length_foldl_set (sign * ·) c.terms _).trans List.length_replicate
  have slack (last : List α) : (List.replicate l.rows 0 ++ last).set i sign
      = Tableau.unitVector l.rows i sign ++ last :=
    List.set_append_left _ _ (by simpa using hi)
  have rhs : (List.replicate l.artificials (0 : α) ++ [0]).set l.artificials v
      = List.replicate l.artificials 0 ++ [v] := set_append_add List.length_replicate 0 v
  rw [parts, foldl_set_append _ _ (by simpa using hterms), set_append_add structural, slack,
    Layout.columns, Layout.firstArtificial, Nat.add_assoc, set_append_add structural,
    set_append_add (Tableau.length_unitVector ..), rhs]

/-- The cells of row `i` at the start, one written after the other. -/
theorem cells_startRow (hterms : ∀ e ∈ c.terms, e.1 < l.structural) (hi : i < l.rows)
    (ha : c.limit < 0 → a < l.artificials) :
    (Tableau.startRow l.structural l.rows l.artificials i a c).equation.cells
      = let sign : α := if c.limit < 0 then -1 else 1
        let cells := ((c.terms.foldl (fun row e => row.set e.1 (sign * e.2))
          (List.replicate (l.columns + 1) 0)).set (l.structural + i) sign).set l.columns
            (sign * c.limit)
        if c.limit < 0 then cells.set (l.firstArtificial + a) 1 else cells := by
  dsimp only
  rw [set_terms_eq hterms hi, Tableau.startRow]
  by_cases hneg : c.limit < 0
  · simp only [if_pos hneg]
    have structural : (c.terms.foldl (fun row e => row.set e.1 ((-1 : α) * e.2))
        (List.replicate l.structural 0)).length = l.structural :=
      (Tableau.length_foldl_set ((-1 : α) * ·) c.terms _).trans List.length_replicate
    rw [Layout.firstArtificial, Nat.add_assoc, set_append_add structural,
      set_append_add (Tableau.length_unitVector ..),
      List.set_append_left _ _ (by simpa using ha hneg)]
    simp [Equation.cells, Tableau.unitVector]
  · simp [hneg, Equation.cells]

/-- A grid that differs from another in row `i` only. -/
structure Replaces (g : Grid α l) (i : ℕ) (g' : Grid α l) (cells : List α) : Prop where
  position : i < g.rows.length
  length : cells.length = l.columns + 1
  rows : g'.rows = g.rows.set i cells
  basis : g'.basis = g.basis

section Replaces

omit [Arith α]

variable {g' : Grid α l} {cells : List α} {j : ℕ}

theorem Replaces.refl (h : g.rows[i]? = some cells) : Replaces g i g cells := by
  obtain ⟨hlt, rfl⟩ := List.getElem?_eq_some_iff.mp h
  exact ⟨hlt, g.length_row _ (List.getElem_mem hlt), by rw [List.set_getElem_self], rfl⟩

theorem Replaces.putCell? (h : Replaces g i g' cells) (hj : j < l.columns + 1) (x : α) :
    Yields (g'.putCell? i j x) (Replaces g i · (cells.set j x)) := by
  have here : g'.rows[i]? = some cells := by rw [h.rows, List.getElem?_set_self h.position]
  have position : i < g'.rows.length := (List.getElem?_eq_some_iff.mp here).1
  have length : (cells.set j x).length = l.columns + 1 := List.length_set.trans h.length
  refine .bind_some here (.bind_some (write?_eq_some (hj.trans_eq h.length.symm) x) ?_)
  refine (yields_putRow? position length).mono fun g'' ⟨hrows, hbasis⟩ =>
    ⟨h.position, length, ?_, hbasis.trans h.basis⟩
  rw [hrows, h.rows, List.set_set]

theorem Replaces.putBasic? (h : Replaces g i g' cells) (hi : i < l.rows) (hj : j < l.columns) :
    Yields (g'.putBasic? i j) fun g'' =>
      g''.rows = g.rows.set i cells ∧ g''.basis = g.basis.set i j :=
  (yields_putBasic? (g'.length_basis.symm ▸ hi) hj).mono fun _ ⟨hbasis, hrows⟩ =>
    ⟨hrows.trans h.rows, by rw [hbasis, h.basis]⟩

end Replaces

/-- A constraint written into a blank row. -/
theorem yields_fill? (hterms : ∀ e ∈ c.terms, e.1 < l.structural)
    (ha : c.limit < 0 → a < l.artificials) (hi : i < l.rows)
    (blank : g.rows[i]? = some (List.replicate (l.columns + 1) 0)) :
    Yields (g.fill? i (l.firstArtificial + a) c) fun filled =>
      let row := Tableau.startRow l.structural l.rows l.artificials i a c
      (filled.1.rows = g.rows.set i row.equation.cells
          ∧ filled.1.basis = g.basis.set i row.basic)
        ∧ filled.2 = l.firstArtificial + if c.limit < 0 then a + 1 else a := by
  have hstructural : l.structural + l.rows = l.firstArtificial := rfl
  have hfirst : l.firstArtificial + l.artificials = l.columns := rfl
  dsimp only
  rw [cells_startRow hterms hi ha, fill?]
  dsimp only
  generalize (if c.limit < 0 then -1 else 1 : α) = sign
  have terms : Yields (c.terms.foldlM (fun g e => g.putCell? i e.1 (sign * e.2)) g)
      (Replaces g i · (c.terms.foldl (fun row e => row.set e.1 (sign * e.2))
        (List.replicate (l.columns + 1) 0))) := by
    refine .foldlM (fun e he g' cells h => h.putCell? ?_ _) (.refl blank)
    have := hterms e he
    omega
  refine terms.bind fun g₁ h₁ => ?_
  refine (h₁.putCell? (by omega) sign).bind fun g₂ h₂ => ?_
  refine (h₂.putCell? (by omega) (sign * c.limit)).bind fun g₃ h₃ => ?_
  by_cases hneg : c.limit < 0
  · have := ha hneg
    simp only [if_pos hneg, Tableau.startRow]
    refine (h₃.putCell? (by omega) 1).bind fun g₄ h₄ => ?_
    exact (h₄.putBasic? hi (by omega)).bind fun g₅ h₅ => .pure ⟨h₅, rfl⟩
  · simp only [if_neg hneg, Tableau.startRow]
    exact (h₃.putBasic? hi (by omega)).bind fun g₄ h₄ => .pure ⟨h₄, rfl⟩

/-- The constraints written into blank rows, after some others. -/
theorem yields_fillFrom? {cs : List (Constraint α)} {doneRows : List (List α)}
    {doneBasis : List ℕ} (hterms : ∀ c ∈ cs, ∀ e ∈ c.terms, e.1 < l.structural)
    (hartificials : a + cs.countP (fun c => decide (c.limit < 0)) = l.artificials)
    (hlength : i + cs.length = l.rows) (hdoneRows : doneRows.length = i)
    (hdoneBasis : doneBasis.length = i)
    (hrows : g.rows = doneRows
      ++ List.replicate (cs.length + 1) (List.replicate (l.columns + 1) 0))
    (hbasis : g.basis = doneBasis ++ List.replicate cs.length 0) :
    Yields (fillFrom? i (l.firstArtificial + a) cs g) fun g' =>
      let filled := Tableau.startRows l.structural l.rows l.artificials i a cs
      g'.rows = doneRows ++ filled.map (fun row => row.equation.cells)
          ++ [List.replicate (l.columns + 1) 0]
        ∧ g'.basis = doneBasis ++ filled.map Row.basic := by
  induction cs generalizing i a g doneRows doneBasis with
  | nil => exact .pure ⟨by simpa [Tableau.startRows] using hrows,
      by simpa [Tableau.startRows] using hbasis⟩
  | cons c rest ih =>
      obtain ⟨hc, hrest⟩ := List.forall_mem_cons.mp hterms
      rw [List.countP_cons] at hartificials
      rw [List.length_cons] at hlength
      have ha : c.limit < 0 → a < l.artificials := fun hneg => by
        rw [decide_eq_true hneg, if_pos rfl] at hartificials
        omega
      have blank : g.rows[i]? = some (List.replicate (l.columns + 1) 0) := by
        rw [hrows, List.getElem?_append_right hdoneRows.le, hdoneRows, Nat.sub_self]
        rfl
      refine (yields_fill? hc ha (by omega) blank).bind fun filled hfilled => ?_
      obtain ⟨g₁, next⟩ := filled
      obtain ⟨⟨hrows₁, hbasis₁⟩, hnext⟩ := hfilled
      dsimp only at hrows₁ hbasis₁ hnext ⊢
      subst hnext
      rw [hrows, List.length_cons, set_append_replicate hdoneRows] at hrows₁
      rw [hbasis, List.length_cons, set_append_replicate hdoneBasis] at hbasis₁
      have counted : (if c.limit < 0 then a + 1 else a)
          + rest.countP (fun c => decide (c.limit < 0)) = l.artificials := by
        by_cases hneg : c.limit < 0
        · rw [decide_eq_true hneg, if_pos rfl] at hartificials
          rw [if_pos hneg]
          omega
        · rw [decide_eq_false hneg, if_neg Bool.false_ne_true] at hartificials
          rw [if_neg hneg]
          omega
      refine (ih hrest counted (by omega) (by simp [hdoneRows]) (by simp [hdoneBasis]) hrows₁
        hbasis₁).mono fun g₂ h₂ => ?_
      simpa [Tableau.startRows] using h₂

theorem yields_start? {n : ℕ} {cs : List (Constraint α)}
    (hterms : ∀ c ∈ cs, ∀ e ∈ c.terms, e.1 < n) :
    Yields (start? n cs) (Shows · (Tableau.start n cs)) := by
  have counted : 0 + cs.countP (fun c => decide (c.limit < 0))
      = (Layout.ofConstraints n cs).artificials := Nat.zero_add _
  have hrows : (blank (.ofConstraints n cs) : Grid α _).rows
      = [] ++ List.replicate (cs.length + 1) (List.replicate _ 0) := rfl
  have hbasis : (blank (.ofConstraints n cs) : Grid α _).basis = [] ++ List.replicate cs.length 0 :=
    rfl
  have filled := yields_fillFrom? hterms counted (Nat.zero_add _) rfl rfl hrows hbasis
  refine filled.mono fun g ⟨hrows, hbasis⟩ => ⟨rfl, rfl, rfl, ?_, hbasis⟩
  rw [hrows, Tableau.equations, List.map_append, List.map_map, List.map_singleton,
    Equation.cells, List.nil_append]
  rw [List.replicate_succ']
  rfl

end Arith

/-! ### The two phases -/

section Scalar

variable {α : Type} [Scalar α] {l : Layout} {g : Grid α l} {t : Tableau α} {c : List α}

/-- Phase one on a grid and on a tableau: the same result, or a grid that holds the tableau, after
the same number of pivots. -/
inductive Agrees : Except (Result α) (Grid α l × ℕ) → Except (Result α) (Tableau α × ℕ) → Prop
  | error (result : Result α) : Agrees (.error result) (.error result)
  | ok {g : Grid α l} {t : Tableau α} (h : Shows g t) (spent : ℕ) :
      Agrees (.ok (g, spent)) (.ok (t, spent))

theorem Shows.phaseOne? (h : Shows g t) (s : Settings α) :
    Yields (g.phaseOne? s) (Agrees · (phaseOne s t)) := by
  rw [Grid.phaseOne?, phaseOne, Tableau.hasArtificials, h.firstArtificial, h.columns]
  by_cases hart : l.firstArtificial < l.columns
  · rw [if_pos hart, if_pos (decide_eq_true hart)]
    refine h.withArtificialObjective?.bind fun g₁ h₁ => ?_
    refine (h₁.optimize? s.pivotTol le_rfl s.pivotLimit).bind fun q hq => ?_
    rw [hq.pivots, hq.ending]
    dsimp only
    cases (t.withArtificialObjective.optimize s.pivotTol l.columns s.pivotLimit).ending with
    | pivotLimit => exact .pure (.error _)
    | unbounded => exact .pure (.error _)
    | optimal =>
        refine .bind_some (cell?_columns hq.grid.getElem?_objective) ?_
        dsimp only
        split
        · exact .pure (.error _)
        · exact (hq.grid.expelArtificials? s.pivotTol).bind fun g₂ h₂ => .pure (.ok h₂ _)
  · rw [if_neg hart, if_neg (by simpa using hart)]
    exact .pure (.ok h 0)

theorem Shows.phaseTwo? (h : Shows g t) (hc : c.length = l.structural) (s : Settings α)
    (spent : ℕ) :
    Yields (g.phaseTwo? s c spent) (· = ⟨(phaseTwo s c t spent).verdict c,
      spent + (phaseTwo s c t spent).pivots⟩) := by
  rw [Grid.phaseTwo?, phaseTwo, h.firstArtificial]
  refine (h.withObjective? hc).bind fun g₁ h₁ => ?_
  refine (h₁.optimize? s.pivotTol (Nat.le_add_right ..) (s.pivotLimit - spent)).bind
    fun q hq => ?_
  rw [hq.pivots, hq.ending, Phase.verdict]
  cases ((t.withObjective c).optimize s.pivotTol l.firstArtificial (s.pivotLimit - spent)).ending
    with
  | pivotLimit => exact .pure rfl
  | unbounded => exact .pure rfl
  | optimal => exact .bind_some hq.grid.vertex? (.pure rfl)

end Scalar

end Grid

/-! ### Programs -/

variable {α : Type} [Scalar α] {p : LinearProgram α}

omit [Scalar α] in
/-- A constraint that is about one end of a box uses the variable of that end. -/
theorem lt_length_of_mem_ends {xs : List α} {make : α × ℕ → Option (Constraint α)}
    (own : ∀ a j c, make (a, j) = some c → ∀ e ∈ c.terms, e.1 = j) :
    ∀ c ∈ xs.zipIdx.filterMap make, ∀ e ∈ c.terms, e.1 < xs.length := by
  intro c hc e he
  obtain ⟨⟨a, j⟩, hmem, hsome⟩ := List.mem_filterMap.mp hc
  rw [own a j c hsome e he]
  exact (List.getElem?_eq_some_iff.mp (List.mk_mem_zipIdx_iff_getElem?.mp hmem)).1

/-- No constraint of an accepted program uses a variable that does not exist. -/
theorem lt_numVars_of_mem_constraints (valid : p.validate = .ok ()) (wf : p.matrix.WellFormed) :
    ∀ c ∈ p.constraints, ∀ e ∈ c.terms, e.1 < p.numVars := by
  obtain ⟨⟨-, hcols⟩, hlower, hupper⟩ :=
    shapeError?_eq_none_iff.mp ((validate_eq_ok_iff p).mp valid).1
  rw [constraints, List.forall_mem_append, List.forall_mem_append]
  refine ⟨⟨fun c hc => ?_, hupper ▸ lt_length_of_mem_ends fun a j c hc => ?_⟩,
    hlower ▸ lt_length_of_mem_ends fun a j c hc => ?_⟩
  · rw [← List.map_uncurry_zip_eq_zipWith] at hc
    obtain ⟨⟨row, limit⟩, hmem, rfl⟩ := List.mem_map.mp hc
    exact hcols ▸ wf.inRange row (List.of_mem_zip hmem).1
  all_goals
    obtain ⟨-, heq⟩ := Option.ite_none_right_eq_some.mp hc
    cases heq
    exact List.forall_mem_singleton.mpr rfl

/-- The method on the grid finds what the method on the tableau finds. -/
theorem optimum?_eq_some (valid : p.validate = .ok ()) (wf : p.matrix.WellFormed)
    (s : Settings α) : p.optimum? s = some (p.optimum s) := by
  rw [optimum?, optimum]
  by_cases empty : p.box.isEmpty = true
  · rw [if_pos empty, if_pos empty]
  rw [if_neg empty, if_neg empty]
  obtain ⟨g, hg, shows⟩ := Grid.yields_start? (lt_numVars_of_mem_constraints valid wf)
  obtain ⟨found, hfound, agrees⟩ := shows.phaseOne? s
  rw [hg, Option.bind_eq_bind, Option.bind_some, hfound, startTableau]
  generalize phaseOne s (.start p.numVars p.constraints) = entered at agrees
  cases agrees with
  | error result => rfl
  | ok h spent =>
      obtain ⟨result, hresult, rfl⟩ := h.phaseTwo? rfl s spent
      exact hresult

/-- What solving a program comes to: no position is used that does not exist, and a vertex has a
coordinate for each variable. -/
structure InRange (p : LinearProgram α) (s : Settings α) (result : Result α) : Prop where
  accesses : p.optimum? s = some result
  optimal : ∀ x objective, result.verdict = .optimal x objective → x.length = p.numVars
  otherwise : (∀ x objective, result.verdict ≠ .optimal x objective) → result.verdict.vertex = []

/-- **Every position exists**, whatever the settings and the arithmetic. -/
theorem solve_inRange (valid : p.validate = .ok ()) (wf : p.matrix.WellFormed) (s : Settings α) :
    ∃ result, p.solve s = .ok result ∧ InRange p s result := by
  refine ⟨p.optimum s, solve_eq_ok valid, optimum?_eq_some valid wf s,
    fun x objective h => length_of_optimum h, fun h => ?_⟩
  cases hverdict : (p.optimum s).verdict with
  | optimal x objective => exact absurd hverdict (h x objective)
  | infeasible | unbounded | pivotLimit | numericalError => rfl

/-- At the segment, with tolerances that are no numbers. -/
theorem solve_inRange_segment :
    segment.validate = .ok () ∧ segment.matrix.WellFormed
      ∧ ∃ result, segment.solve ⟨9, -infinity, undefined⟩ = .ok result
        ∧ InRange segment ⟨9, -infinity, undefined⟩ result := by
  have valid : segment.validate = .ok () := by decide +kernel
  have wf : segment.matrix.WellFormed := by decide +kernel
  exact ⟨valid, wf, solve_inRange valid wf ⟨9, -infinity, undefined⟩⟩

/-- An entry beyond the last column of the table has no place there. -/
example : LinearProgram.optimum? { segment with matrix := .ofEntries 2 [[(8, .num 1)], []] }
    ⟨9, 0, 0⟩ = none := by
  decide +kernel

end IntegerProgramming.LinearProgram
