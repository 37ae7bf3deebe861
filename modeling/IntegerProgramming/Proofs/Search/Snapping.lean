import Mathlib
import IntegerProgramming.Proofs.LinearProgram.Vertices
import IntegerProgramming.Proofs.Search.Optimality
import IntegerProgramming.Proofs.Search.Origins

/-!
# Search — what rounding a vertex costs

A vertex that counts as integral is reported as its nearest integers, and these may exceed a limit
that the vertex keeps: a row moves by its product with the displacement of the vertex.  The
constraints hold afterwards just when no row moves by more than the room it has at the vertex
(`Program.LeavesRoom`).

* `Program.leavesRoom_of_slack`: light rows always have room.
* `satisfies_of_slack`: where all rows are light, a reported point satisfies the constraints if the
  vertices that it may come from do.
* `satisfies_iff_leavesRoom`: **a reported point satisfies the constraints just when the vertices
  that it may come from leave room for it**; its coordinates are nonnegative integers, if they are
  numbers.
-/

namespace IntegerProgramming

open ExtRat (num reach slack)

/-! ### Displacements -/

/-- By how much each coordinate moves on its way to the nearest integer. -/
def displacement (v : List ExtRat) : List ExtRat := v.map fun a => Scalar.round a - a

/-- No row is moved by rounding the point farther than its limit is above the row there, up to the
tolerance of the test of a rounding. -/
def Program.LeavesRoom (p : Program ExtRat) (v : List ExtRat) : Prop :=
  ∀ row ∈ p.matrix.rowEntries.zip p.limits,
    SparseMatrix.rowProduct (displacement v) row.1
      ≤ row.2 + Rounding.tolerance - SparseMatrix.rowProduct v row.1

/-- By how much each rational coordinate moves. -/
def shift (x : List ℚ) : List ℚ := x.map fun q => ExtRat.nearest q - q

theorem displacement_nums (x : List ℚ) : displacement (nums x) = nums (shift x) := by
  simp only [displacement, shift, nums, List.map_map]
  exact List.map_congr_left fun q _ => ExtRat.num_sub _ _

theorem getD_shift (x : List ℚ) (j : ℕ) :
    (shift x).getD j 0 = (lattice (snap x)).getD j 0 - x.getD j 0 := by
  rcases lt_or_ge j x.length with hj | hj
  · simp [shift, lattice, snap, List.getD_eq_getElem?_getD, hj]
  · rw [List.getD_eq_default _ _ (by simpa [shift] using hj),
      List.getD_eq_default _ _ (by simpa using hj), List.getD_eq_default _ _ hj, sub_zero]

/-- **A row moves by its product with the displacement.** -/
theorem rowValue_shift (x : List ℚ) (row : List (ℕ × ℚ)) :
    rowValue (shift x) row = rowValue (lattice (snap x)) row - rowValue x row := by
  induction row with
  | nil => simp [rowValue]
  | cons entry rest ih =>
      simp only [rowValue, List.map_cons, List.sum_cons] at ih ⊢
      rw [ih, getD_shift]
      ring

theorem tolerance_num : ∃ t : ℚ, (Rounding.tolerance : ExtRat) = num t ∧ 0 ≤ t ∧ t < 1 :=
  ⟨_, rfl, by decide +kernel, by decide +kernel⟩

variable {P : Program ℚ} {x : List ℚ}

/-- Room, row by row. -/
theorem leavesRoom_embed_iff {t : ℚ} (ht : (Rounding.tolerance : ExtRat) = num t) :
    P.embed.LeavesRoom (nums x)
      ↔ ∀ row ∈ P.matrix.rowEntries.zip P.limits,
          rowValue (lattice (snap x)) row.1 ≤ row.2 + t := by
  have limits : P.embed.limits = P.limits.map num := rfl
  rw [Program.LeavesRoom, Program.rowEntries_embed, limits, List.zip_map, List.forall_mem_map]
  refine forall₂_congr fun row _ => ?_
  simp only [Prod.map, displacement_nums, rowProduct_nums, ht, ExtRat.num_add, ExtRat.num_sub,
    ExtRat.num_le, rowValue_shift]
  constructor <;> intro h <;> linarith

/-- Nearest integers that satisfy the constraints had room. -/
theorem leavesRoom_of_satisfies (hP : P.Regular)
    (h : P.embed.satisfies (nums (lattice (snap x))) Rounding.tolerance = true) :
    P.embed.LeavesRoom (nums x) := by
  obtain ⟨t, ht, -, -⟩ := tolerance_num
  rw [ht] at h
  exact (leavesRoom_embed_iff ht).mpr ((Program.satisfies_embed_iff hP).mp h).limits

theorem snap_nonneg (h : ∀ q ∈ x, 0 ≤ q) : ∀ k ∈ snap x, 0 ≤ k := by
  intro k hk
  obtain ⟨q, hq, rfl⟩ := List.mem_map.mp hk
  exact ExtRat.nearest_nonneg (h q hq)

/-- Nearest integers that have room satisfy the constraints. -/
theorem satisfies_of_leavesRoom (hP : P.Regular) (length : x.length = P.numVars)
    (nonneg : ∀ q ∈ x, 0 ≤ q) (h : P.embed.LeavesRoom (nums x)) :
    P.embed.satisfies (nums (lattice (snap x))) Rounding.tolerance = true := by
  obtain ⟨t, ht, ht0, -⟩ := tolerance_num
  rw [ht]
  refine (Program.satisfies_embed_iff hP).mpr ⟨?_, fun v hv => ?_, (leavesRoom_embed_iff ht).mp h⟩
  · rw [length_lattice, length_snap, length]
  · obtain ⟨k, hk, rfl⟩ := List.mem_map.mp hv
    have : (0 : ℚ) ≤ k := Int.cast_nonneg (snap_nonneg nonneg k hk)
    linarith

/-- **Light rows leave room.**  A point that satisfies the constraints and counts as integral may be
rounded if the tolerance for integers moves no row by more than the tolerance of the test. -/
theorem Program.leavesRoom_of_slack {p : Program ExtRat} (valid : p.validate = .ok ())
    (wf : p.matrix.WellFormed) {tol : ExtRat} (ht : 0 ≤ tol) {v : List ExtRat}
    (satisfied : p.satisfies v 0 = true) (integral : isIntegral v tol = true)
    (light : ∀ row ∈ p.matrix.rowEntries, slack tol (SparseMatrix.mass row) ≤ Rounding.tolerance) :
    p.LeavesRoom v := by
  obtain ⟨P, hP, rfl⟩ := Program.exists_regular valid wf
  obtain ⟨x, rfl, near⟩ := exists_nums_of_isIntegral integral
  obtain ⟨t, htol, -, -⟩ := tolerance_num
  have feasible : P.Feasible x := (Program.satisfies_embed_iff hP).mp satisfied
  refine (leavesRoom_embed_iff htol).mpr fun row hrow => ?_
  have hmem : SparseMatrix.mapRow num row.1 ∈ P.embed.matrix.rowEntries := by
    rw [Program.rowEntries_embed]
    exact List.mem_map_of_mem (List.of_mem_zip hrow).1
  have hlight := light _ hmem
  rw [mass_mapRow, htol] at hlight
  have hslack := ExtRat.reach_mul_le ht (rowWeight_nonneg row.1)
  have hmove := (abs_le.mp (abs_rowValue_snap_sub_le (ExtRat.reach_nonneg ht) near row.1)).2
  have hlimit := feasible.limits row hrow
  have hsmall : reach tol * rowWeight row.1 ≤ t := by
    rcases ExtRat.num_le_cases hslack with hinf | ⟨q, hq, hle⟩
    · rw [hinf] at hlight
      exact (nomatch hlight)
    · rw [hq, ExtRat.num_le] at hlight
      exact hle.trans hlight
  linarith

/-! ### Integer points -/

/-- A rounding of a number is an integer. -/
theorem exists_integer {q : ℚ} {b : ExtRat}
    (h : b = Scalar.floor (num q) ∨ b = Scalar.ceil (num q) ∨ b = Scalar.floor (num q) + 1
      ∨ b = 0) : ∃ k : ℤ, b = num k := by
  rcases h with rfl | rfl | rfl | rfl
  · exact ⟨⌊q⌋, ExtRat.floor_num q⟩
  · exact ⟨⌈q⌉, ExtRat.ceil_num q⟩
  · refine ⟨⌊q⌋ + 1, ?_⟩
    rw [ExtRat.floor_num, ExtRat.one_eq, ExtRat.num_add, Int.cast_add, Int.cast_one]
  · exact ⟨0, rfl⟩

/-- A rounding that is a number is an integer: infinities round to infinities. -/
theorem exists_integer_of_isFinite {a b : ExtRat}
    (h : b = Scalar.floor a ∨ b = Scalar.ceil a ∨ b = Scalar.floor a + 1 ∨ b = 0)
    (finite : isFinite b = true) : ∃ k : ℤ, b = num k := by
  obtain ⟨q, rfl⟩ := ExtRat.isFinite_iff.mp finite
  cases a with
  | num r => exact exists_integer h
  | negInf | posInf | undef =>
      rcases h with h | h | h | h
      · exact (nomatch h)
      · exact (nomatch h)
      · exact (nomatch h)
      · exact ⟨0, h⟩

/-- The roundings of numbers are numbers. -/
theorem Rounds.all_isFinite {v y : List ExtRat} (h : Rounds v y) (finite : v.all isFinite = true) :
    y.all isFinite = true := by
  rw [Rounds] at h
  induction h with
  | nil => rfl
  | cons hb _ ih =>
      rw [List.all_cons, Bool.and_eq_true] at finite ⊢
      obtain ⟨q, rfl⟩ := ExtRat.isFinite_iff.mp finite.1
      obtain ⟨k, rfl⟩ := exists_integer hb
      exact ⟨ExtRat.isFinite_iff.mpr ⟨k, rfl⟩, ih finite.2⟩

/-- Roundings that are numbers are an integer point. -/
theorem Rounds.exists_lattice {v y : List ExtRat} (h : Rounds v y)
    (finite : y.all isFinite = true) : ∃ z : List ℤ, y = nums (lattice z) := by
  rw [Rounds] at h
  induction h with
  | nil => exact ⟨[], rfl⟩
  | cons hb _ ih =>
      rw [List.all_cons, Bool.and_eq_true] at finite
      obtain ⟨k, rfl⟩ := exists_integer_of_isFinite hb finite.1
      obtain ⟨z, rfl⟩ := ih finite.2
      exact ⟨k :: z, rfl⟩

/-- An integer point that satisfies the constraints up to a tolerance below one is not negative. -/
theorem nonneg_of_satisfies (hP : P.Regular) {z : List ℤ}
    (h : P.embed.satisfies (nums (lattice z)) Rounding.tolerance = true) :
    z.length = P.numVars ∧ ∀ k ∈ z, 0 ≤ k := by
  obtain ⟨t, ht, -, ht1⟩ := tolerance_num
  rw [ht] at h
  have feasible := (Program.satisfies_embed_iff hP).mp h
  refine ⟨(length_lattice z).symm.trans feasible.length, fun k hk => ?_⟩
  have hlower := feasible.lower k (List.mem_map_of_mem hk)
  have hlt : (-1 : ℚ) < k := by linarith
  have : (-1 : ℤ) < k := by exact_mod_cast hlt
  omega

end IntegerProgramming

namespace IntegerProgramming.Search

open ExtRat (num slack)

/-- The journal of a search. -/
abbrev StandardSession := Session ExtRat Effort Random.Stream (LinearProgram.Error ExtRat)

/-- The journal shows the vertex as an answer for the program, it counts as integral, and these are
its nearest integers. -/
def SnapsTo (p : Program ExtRat) (tol : ExtRat) (session : StandardSession)
    (v x : List ExtRat) : Prop :=
  (∃ changes bound, (⟨p, changes⟩, .ok (.optimal bound v)) ∈ session.journal.calls)
    ∧ isIntegral v tol = true ∧ nearestIntegers v = x

variable {p : Program ExtRat} {settings : Settings ExtRat} {record : Record ExtRat}
  {s : Solution ExtRat}

/-- Every point that the standard solver reports has an origin. -/
theorem origin_of_solve (h : (solve p settings).result = .ok record) (hs : record.best = some s) :
    Origin (Solver.standard settings) p (solve p settings).session s.point := by
  have checks : (Solver.standard settings).heuristic.Checks := Rounding.heuristic_checks _ _
  simp only [solve, Outcome.summarised] at h ⊢
  split at h
  · rename_i hresult
    rw [hresult] at h
    cases h
  · rename_i record' hresult
    rw [hresult] at h
    cases h
    rw [hresult]
    exact (Solver.origin checks hresult hs).extends (Session.extends_noteIf _ _ _)

/-- A vertex that the standard solver was given has a coordinate for each variable, and none is
negative. -/
theorem Answered.standard {session : StandardSession} {v : List ExtRat} (wf : p.matrix.WellFormed)
    (h : Answered (Solver.standard settings) p session v) :
    v.length = p.numVars ∧ (∀ a ∈ v, 0 ≤ a)
      ∧ (¬ settings.relaxation.pivotTol < 0 → ∃ x, v = nums x) := by
  obtain ⟨changes, bound, -, state, hanswer⟩ := h
  obtain ⟨q, hobjective, hmatrix, valid, hverdict⟩ := askSimplex_optimal hanswer
  obtain ⟨hlength, hnonneg⟩ := LinearProgram.vertex_of_optimum hverdict
  refine ⟨?_, hnonneg, fun htol => ?_⟩
  · rw [hlength, LinearProgram.numVars, hobjective]
    rfl
  · have hwf : q.matrix.WellFormed := hmatrix ▸ wf
    exact LinearProgram.exists_nums_vertex valid hwf htol hverdict

/-- A point with an origin satisfies the constraints if each integral vertex that it may have been
rounded from leaves room for that. -/
theorem Origin.satisfies {P : Program ℚ} (hP : P.Regular) (wf : P.embed.matrix.WellFormed)
    {session : StandardSession} {y : List ExtRat}
    (origin : Origin (Solver.standard settings) P.embed session y)
    (room : ∀ v, SnapsTo P.embed settings.integrality session v y → P.embed.LeavesRoom v) :
    P.embed.satisfies y Rounding.tolerance = true := by
  cases origin with
  | rounded _ _ satisfied => exact satisfied
  | snapped answered integral =>
      obtain ⟨hlength, hnonneg, -⟩ := answered.standard wf
      obtain ⟨changes, bound, hcall, -⟩ := answered
      obtain ⟨x, rfl, -⟩ := exists_nums_of_isIntegral integral
      rw [length_nums, Program.numVars_embed] at hlength
      rw [nearestIntegers_nums]
      exact satisfies_of_leavesRoom hP hlength
        (fun q hq => ExtRat.num_le.mp (hnonneg _ (List.mem_map_of_mem hq)))
        (room _ ⟨⟨changes, bound, hcall⟩, integral, rfl⟩)

/-- **Light rows.**  If the tolerance for integers moves no row by more than the tolerance of the
test, the point of a record satisfies the constraints where each integral vertex that it may have
been rounded from does. -/
theorem satisfies_of_slack (valid : p.validate = .ok ()) (wf : p.matrix.WellFormed)
    (ht : 0 ≤ settings.integrality)
    (light : ∀ row ∈ p.matrix.rowEntries,
      slack settings.integrality (SparseMatrix.mass row) ≤ Rounding.tolerance)
    (h : (solve p settings).result = .ok record) (hs : record.best = some s)
    (vertices : ∀ v, SnapsTo p settings.integrality (solve p settings).session v s.point →
      p.satisfies v 0 = true) : p.satisfies s.point Rounding.tolerance = true := by
  have room (v : List ExtRat)
      (hv : SnapsTo p settings.integrality (solve p settings).session v s.point) :
      p.LeavesRoom v := Program.leavesRoom_of_slack valid wf ht (vertices v hv) hv.2.1 light
  obtain ⟨P, hP, rfl⟩ := Program.exists_regular valid wf
  exact (origin_of_solve h hs).satisfies hP wf room

/-- **Reported points.**  The point of a record satisfies the constraints just when each integral
vertex that it may have been rounded from leaves room for that.  It is an integer point without
negative coordinates just when its coordinates are numbers, as they are unless the tolerance for
pivots is negative. -/
theorem satisfies_iff_leavesRoom (valid : p.validate = .ok ()) (wf : p.matrix.WellFormed)
    (h : (solve p settings).result = .ok record) (hs : record.best = some s) :
    (p.satisfies s.point 1e-9 = true
      ↔ ∀ v, SnapsTo p settings.integrality (solve p settings).session v s.point → p.LeavesRoom v)
    ∧ ((∃ z : List ℤ, s.point = nums (lattice z) ∧ z.length = p.numVars ∧ ∀ k ∈ z, 0 ≤ k)
      ↔ s.point.all isFinite = true)
    ∧ (¬ settings.relaxation.pivotTol < 0 → s.point.all isFinite = true) := by
  obtain ⟨P, hP, rfl⟩ := Program.exists_regular valid wf
  have origin := origin_of_solve h hs
  have room (satisfied : P.embed.satisfies s.point 1e-9 = true) (v : List ExtRat)
      (hv : SnapsTo P.embed settings.integrality (solve P.embed settings).session v s.point) :
      P.embed.LeavesRoom v := by
    obtain ⟨-, integral, hpoint⟩ := hv
    obtain ⟨x, rfl, -⟩ := exists_nums_of_isIntegral integral
    rw [← hpoint, nearestIntegers_nums] at satisfied
    exact leavesRoom_of_satisfies hP satisfied
  refine ⟨⟨room, origin.satisfies hP wf⟩, ?_⟩
  -- what the origin of the point says holds of any point with that origin
  generalize s.point = y at origin ⊢
  cases origin with
  | rounded answered near satisfied =>
      refine ⟨⟨?_, fun finite => ?_⟩, fun htol => ?_⟩
      · rintro ⟨z, rfl, -⟩
        exact all_isFinite_nums (lattice z)
      · obtain ⟨z, rfl⟩ := near.exists_lattice finite
        obtain ⟨hlength, hnonneg⟩ := nonneg_of_satisfies hP satisfied
        exact ⟨z, rfl, hlength.trans P.numVars_embed.symm, hnonneg⟩
      · obtain ⟨x, rfl⟩ := (answered.standard wf).2.2 htol
        exact near.all_isFinite (all_isFinite_nums x)
  | snapped answered integral =>
      obtain ⟨hlength, hnonneg, -⟩ := answered.standard wf
      obtain ⟨x, rfl, -⟩ := exists_nums_of_isIntegral integral
      rw [length_nums] at hlength
      have nonneg : ∀ q ∈ x, 0 ≤ q := fun q hq =>
        ExtRat.num_le.mp (hnonneg _ (List.mem_map_of_mem hq))
      have finite : (nearestIntegers (nums x)).all isFinite = true := by
        rw [nearestIntegers_nums]
        exact all_isFinite_nums _
      exact ⟨⟨fun _ => finite, fun _ =>
        ⟨snap x, nearestIntegers_nums x, (length_snap x).trans hlength, snap_nonneg nonneg⟩⟩,
        fun _ => finite⟩

/-- The greatest `x` where `1000000 x ≤ 999999.5`. -/
def steep : Program ℚ := ⟨[1], .ofEntries 1 [[(0, 1000000)]], [1999999 / 2]⟩

theorem exists_best_of_toOption {κ : Type} {result : Except κ (Record ExtRat)}
    {test : Solution ExtRat → Bool} {answer : Bool}
    (h : result.toOption.map (fun record => record.best.map test) = some (some answer)) :
    ∃ record s, result = .ok record ∧ record.best = some s ∧ test s = answer := by
  obtain ⟨record, hrecord, hbest⟩ := exists_ok_of_toOption h
  obtain ⟨s, hs, hanswer⟩ := Option.map_eq_some_iff.mp hbest
  exact ⟨record, s, hrecord, hs, hanswer⟩

/-- At the square. -/
theorem satisfies_iff_leavesRoom_square :
    square.embed.validate = .ok () ∧ square.embed.matrix.WellFormed ∧ ∃ record s,
      (solve square.embed .standard).result = .ok record ∧ record.best = some s
        ∧ ((square.embed.satisfies s.point 1e-9 = true
            ↔ ∀ v, SnapsTo square.embed (Settings.standard : Settings ExtRat).integrality
                (solve square.embed .standard).session v s.point → square.embed.LeavesRoom v)
          ∧ ((∃ z : List ℤ, s.point = nums (lattice z) ∧ z.length = square.embed.numVars
                ∧ ∀ k ∈ z, 0 ≤ k)
            ↔ s.point.all isFinite = true)
          ∧ (¬ (Settings.standard : Settings ExtRat).relaxation.pivotTol < 0 →
            s.point.all isFinite = true)) := by
  have valid : square.embed.validate = .ok () := by decide +kernel
  have wf : square.embed.matrix.WellFormed := by decide +kernel
  obtain ⟨record, s, h, hs, -⟩ : ∃ record s, (solve square.embed .standard).result = .ok record
      ∧ record.best = some s ∧ square.embed.satisfies s.point 1e-9 = true :=
    exists_best_of_toOption (by decide +kernel)
  exact ⟨valid, wf, record, s, h, hs, satisfies_iff_leavesRoom valid wf h hs⟩

/-- The steep program under the standard settings: its vertex counts as an integer, and the integer
that is reported exceeds the limit by one half. -/
theorem unsatisfied_report_of_steep :
    steep.embed.validate = .ok () ∧ steep.embed.matrix.WellFormed
      ∧ (0 : ExtRat) ≤ (Settings.standard : Settings ExtRat).integrality
      ∧ ∃ record s, (solve steep.embed .standard).result = .ok record ∧ record.best = some s
        ∧ steep.embed.satisfies s.point 1e-9 = false :=
  ⟨by decide +kernel, by decide +kernel, by decide +kernel,
    exists_best_of_toOption (by decide +kernel)⟩

end IntegerProgramming.Search
