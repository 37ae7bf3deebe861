import Mathlib
import IntegerProgramming.Proofs.Search.Coverage
import IntegerProgramming.Proofs.Search.Table

/-!
# Search — what an optimum is worth

A record with the status `optimal` carries an integer point that no integer point of the program
beats by more than an *allowance*: the larger of the two gap tolerances and of the distance by which
rounding a vertex to integers may move the objective (`allowance`).

**Optima are optimal** (`Solver.certified_of_optimal`), for every oracle that is exact on the
program, every selector and every heuristic that finds feasible points.  At a fractional root the
final state covers every integer point: one that an open node admits is below the upper bound, and
the gap to the incumbent is closed; any other is matched by the incumbent itself.
-/

namespace IntegerProgramming

open ExtRat (num innerProd reach slack)

/-! ### Nearly satisfied constraints -/

/-- The weight of a row: the sum of the absolute values of its entries. -/
def SparseMatrix.mass {α : Type} [Arith α] (row : List (ℕ × α)) : α :=
  total (row.map fun entry => absolute entry.2)

/-- Every row has an activity, and none exceeds its limit by more than the tolerance times the
weight of the row. -/
def Program.NearlySatisfied (p : Program ExtRat) (tol : ExtRat) (x : List ExtRat) : Prop :=
  ∃ activities, p.activities? x = some activities
    ∧ p.matrix.rowEntries.length = p.numConstraints ∧ activities.length = p.numConstraints
    ∧ ∀ row ∈ p.matrix.rowEntries.zip (activities.zip p.limits),
        row.2.1 ≤ row.2.2 + slack tol (SparseMatrix.mass row.1)

theorem mass_mapRow (row : List (ℕ × ℚ)) :
    SparseMatrix.mass (SparseMatrix.mapRow num row) = num (rowWeight row) := by
  have entries : (SparseMatrix.mapRow num row).map (fun entry => absolute entry.2)
      = nums (row.map fun entry => |entry.2|) := by
    simp only [SparseMatrix.mapRow, nums, List.map_map]
    exact List.map_congr_left fun entry _ => ExtRat.absolute_num entry.2
  rw [SparseMatrix.mass, entries, total_nums, rowWeight]

theorem total_absolute_nums (c : List ℚ) : total ((nums c).map absolute) = num (weight c) := by
  have entries : (nums c).map absolute = nums (c.map fun a => |a|) := by
    simp only [nums, List.map_map]
    exact List.map_congr_left fun a _ => ExtRat.absolute_num a
  rw [entries, total_nums, weight]

/-- Rows beside the results of a function on them and a third list. -/
theorem zip_map_zip {γ δ ι : Type} (g : γ → δ) (rows : List γ) (limits : List ι) :
    rows.zip ((rows.map g).zip limits) = (rows.zip limits).map fun e => (e.1, g e.1, e.2) := by
  induction rows generalizing limits with
  | nil => rfl
  | cons row rest ih =>
      cases limits with
      | nil => rfl
      | cons limit limits => simp [ih]

theorem Search.Candidate.nearlySatisfied {P : Program ℚ} (hP : P.Regular) {tol : ExtRat}
    (ht : 0 ≤ tol) {c : Solution ExtRat} {z : List ℤ} (h : Search.Candidate P (reach tol) c z) :
    P.embed.NearlySatisfied tol c.point := by
  have hz : (lattice z).length = P.numVars := (length_lattice z).trans h.length
  refine ⟨_, h.point ▸ Program.activities?_embed hP hz, ?_, ?_, ?_⟩
  · rw [Program.rowEntries_embed, List.length_map, hP.rows]
    exact (length_nums P.limits).symm
  · rw [length_nums, List.length_map, hP.rows]
    exact (length_nums P.limits).symm
  · rw [Program.rowEntries_embed]
    simp only [Program.embed, nums, List.zip_map, zip_map_zip, List.forall_mem_map, Prod.map]
    intro row hrow
    rw [mass_mapRow]
    have hslack := ExtRat.reach_mul_le ht (rowWeight_nonneg row.1)
    refine ExtRat.num_le_add (ExtRat.num_le_of_le ?_ hslack)
    have := h.limits row hrow
    linarith

end IntegerProgramming

namespace IntegerProgramming.Search

open ExtRat (num innerProd reach slack)

variable {β η ε : Type} {S : Solver ExtRat β η ε} {P : Program ℚ}

/-! ### The allowance -/

/-- By how much an integer point may exceed an optimum: the absolute gap, the relative gap times the
objective, and the tolerance for integers times the weight of the objective, whichever is greatest.
-/
def allowance (settings : Settings ExtRat) (p : Program ExtRat) (value : ExtRat) : ExtRat :=
  greater 0 (greater settings.rule.absoluteGap
    (greater (settings.rule.relativeGap * absolute value)
      (settings.integrality * total (p.objective.map absolute))))

/-- An integer point with its objective, nearly satisfying the constraints, that no integer point of
the program beats by more than the allowance. -/
structure Certified (settings : Settings ExtRat) (p : Program ExtRat) (s : Solution ExtRat) :
    Prop where
  integer : ∃ z : List ℤ, s.point = nums (lattice z) ∧ z.length = p.numVars ∧ ∀ k ∈ z, 0 ≤ k
  value : s.value = p.value s.point
  rows : p.NearlySatisfied settings.integrality s.point
  greatest : ∀ y : List ℤ, p.satisfies (nums (lattice y)) 0 = true →
    p.value (nums (lattice y)) ≤ s.value + allowance settings p s.value

/-- A closed relative gap is a number below the tolerance times the lower bound. -/
theorem num_sub_le_of_relativeGapClosed {b : Bracket ExtRat} {u w : ℚ} (hl : b.lower = num w)
    (hu : b.upper = num u) (h : b.relativeGapClosed = true) :
    num (u - w) ≤ b.rule.relativeGap * absolute (num w) := by
  simp only [Bracket.relativeGapClosed, hl, hu, Bool.and_eq_true, Bool.not_eq_true',
    ExtRat.num_beq_zero, decide_eq_false_iff_not, decide_eq_true_eq] at h
  obtain ⟨⟨-, hw⟩, hgap⟩ := h
  rw [ExtRat.num_sub, ExtRat.num_div hw, ExtRat.absolute_num] at hgap
  have hpos : 0 < |w| := abs_pos.mpr hw
  have hsub : u - w ≤ |(u - w) / w| * |w| := by
    rw [abs_div, div_mul_cancel₀ _ hpos.ne']
    exact le_abs_self (u - w)
  rw [ExtRat.absolute_num]
  rcases ExtRat.num_le_cases hgap with hr | ⟨r, hr, hle⟩
  · rw [hr, ExtRat.posInf_mul_num hpos]
    exact ExtRat.num_le_posInf _
  · rw [hr, ExtRat.num_mul, ExtRat.num_le]
    exact hsub.trans (mul_le_mul_of_nonneg_right hle hpos.le)

theorem num_sub_le_of_absoluteGapClosed {b : Bracket ExtRat} {u w : ℚ} (hl : b.lower = num w)
    (hu : b.upper = num u) (h : b.absoluteGapClosed = true) :
    num (u - w) ≤ b.rule.absoluteGap := by
  simp only [Bracket.absoluteGapClosed, hl, hu, Bool.and_eq_true, decide_eq_true_eq] at h
  have hgap := h.2
  rw [ExtRat.num_sub, ExtRat.absolute_num] at hgap
  exact ExtRat.num_le_of_le (le_abs_self (u - w)) hgap

/-- What the incumbent matches is within the allowance of it. -/
theorem Matched.le_add_allowance {settings : Settings ExtRat} (ht : 0 ≤ settings.integrality)
    {c : Solution ExtRat} {z : List ℤ}
    (h : Matched P (reach settings.integrality) (some c) z) :
    P.embed.value (nums (lattice z)) ≤ c.value + allowance settings P.embed c.value := by
  obtain ⟨c', v, hc, hv, hz⟩ := h
  cases Option.some.inj hc
  rw [hv, Program.value_embed]
  refine ExtRat.num_le_add (ExtRat.num_le_of_le (q := reach settings.integrality
    * weight P.objective) (by linarith) ?_)
  have hslack := ExtRat.reach_mul_le ht (weight_nonneg P.objective)
  rw [← total_absolute_nums, slack, ExtRat.num_le_greater_iff] at hslack
  simp only [allowance, ExtRat.num_le_greater_iff]
  tauto

/-- When the search stops for any reason but its limit, no integer point is beyond the allowance. -/
theorem Settled.certified (hP : P.Regular) (ht : 0 ≤ S.settings.integrality)
    {s : State ExtRat β η ε} (settled : Settled P S s) {reason : Termination}
    (hstop : s.bracket.termination? s.frontier.isEmpty = some reason)
    (hreason : reason ≠ .iterationLimit) {c : Solution ExtRat}
    (hbest : s.incumbent.best = some c) : Certified S.settings P.embed c := by
  obtain ⟨z, hc⟩ := settled.best c hbest
  have hlower : s.bracket.lower = num (innerProd P.objective (lattice z)) := by
    rw [settled.lower, Incumbent.value, hbest]
    exact hc.value
  refine ⟨⟨z, hc.point, hc.length.trans P.numVars_embed.symm, hc.nonneg⟩, ?_,
    hc.nearlySatisfied hP ht, fun y hy => ?_⟩
  · rw [hc.point, hc.value, Program.value_embed]
  · rcases settled.covered y ((Program.satisfies_embed_iff hP).mp hy) with ⟨node, hnode, ha⟩ | hm
    · -- an open node admits the point, so the gap must be closed
      obtain ⟨u, v, hu, hv, hle⟩ := settled.upper node hnode
      obtain ⟨v', hv', hbound⟩ := (settled.nodes node hnode).bound
      cases ExtRat.num.inj (hv.symm.trans hv')
      have hyu := hbound _ (contains_of_feasible hP ((Program.satisfies_embed_iff hP).mp hy) ha)
      rw [Program.value_embed, hc.value]
      refine ExtRat.num_le_add (ExtRat.num_le_of_le (sub_le_sub_right (hyu.trans hle) _) ?_)
      simp only [allowance, ExtRat.num_le_greater_iff, ← settled.rule]
      rcases Bracket.termination?_eq_some hstop with ⟨-, hr⟩ | ⟨-, ha⟩ | ⟨rfl, -⟩ | ⟨-, ho⟩
      · exact .inr (.inr (.inl (num_sub_le_of_relativeGapClosed hlower hu hr)))
      · exact .inr (.inl (num_sub_le_of_absoluteGapClosed hlower hu ha))
      · exact absurd rfl hreason
      · rw [Frontier.isEmpty, List.isEmpty_iff] at ho
        exact absurd (ho ▸ hnode) List.not_mem_nil
    · exact (hbest ▸ hm).le_add_allowance ht

/-! ### Integral roots -/

/-- The nearest integers of an integral vertex of the root. -/
theorem certified_rootSolution (hP : P.Regular) (ht : 0 ≤ S.settings.integrality)
    {bound : ExtRat} {vertex : List ExtRat}
    (exact : Subproblem.SolvedBy ⟨P.embed, []⟩ (.optimal bound vertex))
    (hint : isIntegral vertex S.settings.integrality = true) :
    Certified S.settings P.embed (rootSolution P.embed vertex) := by
  obtain ⟨⟨x, rfl, hx⟩, rfl, greatest⟩ := exact
  obtain ⟨x', hx', near⟩ := exists_nums_of_isIntegral hint
  cases nums_injective hx'
  have hr := ExtRat.reach_nonneg ht
  have hc := candidate_of_snap hr (feasible_of_contains hP hx) near
  refine ⟨⟨snap x, hc.point, hc.length.trans P.numVars_embed.symm, hc.nonneg⟩, rfl,
    hc.nearlySatisfied hP ht, fun y hy => ?_⟩
  refine Matched.le_add_allowance ht ⟨_, _, rfl, hc.value, ?_⟩
  have hyx := greatest _ ⟨hy, fun c hc => absurd hc List.not_mem_nil⟩
  rw [Program.value_embed, Program.value_embed, ExtRat.num_le] at hyx
  have hsnap := (abs_le.mp (abs_innerProd_snap_sub_le hr near P.objective)).1
  linarith

/-! ### The record of a search -/

/-- A search that reports an optimum stopped with an incumbent, and not at its limit. -/
theorem State.report_optimal {s : State ExtRat β η ε} {reason : Termination}
    (h : (s.report reason).status = .optimal) :
    ∃ c, s.incumbent.best = some c ∧ (s.report reason).best = some c
      ∧ reason ≠ .iterationLimit := by
  rw [State.report] at h ⊢
  cases hb : s.incumbent.best with
  | none => simp [hb] at h
  | some c =>
      simp only [hb] at h
      refine ⟨c, rfl, rfl, ?_⟩
      rintro rfl
      cases h

/-- **Optima are optimal.**  The point of a record with the status `optimal` is an integer point
that nearly satisfies the constraints, and no integer point of the program is better by more than
the allowance. -/
theorem Solver.certified_of_optimal {p : Program ExtRat} (sound : S.SoundOn p)
    {session : Session ExtRat β η ε} {record : Record ExtRat}
    (h : (S.solve p session).result = .ok record) (hopt : record.status = .optimal) :
    ∃ s, record.best = some s ∧ Certified S.settings p s := by
  obtain ⟨valid, wf, ht, hS, hH, hO⟩ := sound
  obtain ⟨P, hP, rfl⟩ := Program.exists_regular valid wf
  obtain ⟨root, between, hask, hroot⟩ := Solver.searchProgram_cases (Solver.solve_ok h)
  have exact := hO [] _ root (fun c hc => absurd hc List.not_mem_nil) (Solver.ask_ok hask).1
  rcases hroot with ⟨bound, vertex, rfl, hint, rfl, -⟩ | ⟨bound, vertex, rfl, -, htree⟩
    | ⟨-, rfl, -⟩ | ⟨-, hunbounded⟩
  · exact ⟨_, rfl, certified_rootSolution hP ht exact hint⟩
  · obtain ⟨start, s, reason, hbegin, run, hstop, rfl, -⟩ := Solver.searchTree_ok htree
    obtain ⟨c, hbest, hrecord, hreason⟩ := State.report_optimal hopt
    have settled := (Settled.begin hP hH ht exact hbegin).reaches hP hO ht hS run
    exact ⟨c, hrecord, settled.certified hP ht hstop hreason hbest⟩
  · cases hopt
  · obtain ⟨probe, -, rfl⟩ := Solver.searchUnbounded_ok hunbounded
    rw [afterProbe] at hopt
    split at hopt <;> cases hopt

/-- The search of the square from its origin, with answers from its table. -/
def squareSolver : Solver ExtRat Unit Unit Unit where
  settings := .standard
  oracle := .ofTable square.embed squareTable
  selector := firstFractional
  heuristic := .always (nums (lattice [0, 0]))

theorem soundOn_squareSolver : squareSolver.SoundOn square.embed where
  valid := by decide +kernel
  stored := by decide +kernel
  integrality := by decide +kernel
  selector := firstFractional_inRange
  heuristic := Heuristic.feasibleOn_always (by decide +kernel)
  oracle := Oracle.exactOn_ofTable solvedBy_square square.embed

theorem certified_of_optimal_square :
    squareSolver.SoundOn square.embed ∧ ∃ record s,
      (squareSolver.solve square.embed (.new () ())).result = .ok record
        ∧ record.status = .optimal ∧ record.best = some s
        ∧ Certified squareSolver.settings square.embed s := by
  obtain ⟨record, h, hopt⟩ : ∃ record,
      (squareSolver.solve square.embed (.new () ())).result = .ok record
        ∧ record.status = .optimal := exists_ok_of_toOption (by decide +kernel)
  obtain ⟨s, hs, hc⟩ := Solver.certified_of_optimal soundOn_squareSolver h hopt
  exact ⟨soundOn_squareSolver, record, s, h, hopt, hs, hc⟩

end IntegerProgramming.Search
