import Mathlib
import IntegerProgramming.Proofs.LinearProgram.Certificates

/-!
# Simplex — by how much a vertex overruns the constraints

What an optimal result says of its own point when the tolerances are any that are not negative.  The
ratio test passes over the rows whose coefficient is within the tolerance, so a pivot may leave the
basic solution negative there; an artificial variable may stay in the basis with a value of its own,
or be expelled with one; and the vertex has zero for what is negative.  The last tableau still
restates the constraints, and with it the excess of every constraint at the vertex can be read off:
it is its *overrun* (`Tableau.overrun`), what the raised coordinates add to its left-hand side and
its artificial variable to its limit, less its slack.

* `Tableau.Restates.excess_vertex`: **the excess of a constraint at the vertex is its overrun.**
* `LinearProgram.optimal_within_iff`: **the vertex satisfies the constraints within the tolerance
  just when no overrun exceeds it**, and it does so whenever the last basis is feasible
  (`Tableau.FeasibleBasis`).
* `not_feasibleWithin_flat`: with the usual tolerances an optimal result can be far outside.
-/

namespace IntegerProgramming.LinearProgram

open ExtRat (num)
open Tableau (Restates artificialsBefore)

/-! ### Feasible within a tolerance -/

/-- A point that exceeds no limit and leaves no interval by more than a tolerance. -/
structure FeasibleWithin (p : LinearProgram ExtRat) (tol : ExtRat) (x : List ExtRat) : Prop where
  limits : ∃ activities, p.matrix.product? x = some activities
    ∧ List.Forall₂ (fun a b => a ≤ b + tol) activities p.limits
  lower : List.Forall₂ (fun l v => l - tol ≤ v) p.box.lower x
  upper : List.Forall₂ (fun v u => v ≤ u + tol) x p.box.upper

theorem num_le_num_add_iff {a b : ℚ} {tol : ExtRat} : num a ≤ num b + tol ↔ num (a - b) ≤ tol := by
  cases tol with
  | num t =>
      rw [ExtRat.num_add, ExtRat.num_le, ExtRat.num_le]
      exact sub_le_iff_le_add'.symm
  | posInf | negInf | undef => exact Iff.rfl

theorem num_sub_le_num_iff {a b : ℚ} {tol : ExtRat} : num a - tol ≤ num b ↔ num (a - b) ≤ tol := by
  cases tol with
  | num t =>
      rw [ExtRat.num_sub, ExtRat.num_le, ExtRat.num_le]
      exact sub_le_comm
  | posInf | negInf | undef => exact Iff.rfl

/-- A coordinate is below an upper end within a tolerance if its constraint is exceeded by no
more. -/
theorem upperEnd?_within_iff {u tol : ExtRat} (hu : isUndefined u = false) (hu' : u ≠ .negInf)
    (htol : 0 ≤ tol) (j : ℕ) (x : ℕ → ℚ) :
    num (x j) ≤ u + tol ↔ ∀ c, upperEnd? u j = some c → num (c.lhs x - c.limit) ≤ tol := by
  cases u with
  | num q => simp [upperEnd?, Constraint.lhs, num_le_num_add_iff]
  | posInf =>
      have infinite : ExtRat.posInf + tol = .posInf := by
        rcases ExtRat.nonneg_cases htol with rfl | ⟨t, rfl, -⟩ <;> rfl
      simp [upperEnd?, infinite]
  | negInf => exact absurd rfl hu'
  | undef => cases hu

/-- A coordinate that is not negative is above a lower end within a tolerance if its constraint is
exceeded by no more. -/
theorem lowerEnd?_within_iff {q : ℚ} {tol : ExtRat} (hq : 0 ≤ q) (htol : 0 ≤ tol) {j : ℕ}
    {x : ℕ → ℚ} (hx : 0 ≤ x j) :
    num q - tol ≤ num (x j)
      ↔ ∀ c, lowerEnd? (num q) j = some c → num (c.lhs x - c.limit) ≤ tol := by
  rw [num_sub_le_num_iff]
  rcases hq.eq_or_lt with rfl | hpos
  · have holds : num (0 - x j) ≤ tol := ExtRat.num_le_of_le (q := 0) (by linarith) htol
    simpa [lowerEnd?] using holds
  · simp [lowerEnd?, hpos, Constraint.lhs, neg_add_eq_sub]

variable {p : LinearProgram ExtRat} {s : Settings ExtRat} {x : List ℚ} {tol : ExtRat}

/-- **A point that is not negative is feasible within a tolerance** just when it exceeds no
constraint by more. -/
theorem Accepted.feasibleWithin_iff {P : Program ℚ} (h : p.Accepted) (regular : P.Regular)
    (hP : p.program = P.embed) (nonempty : p.box.isEmpty = false) (htol : 0 ≤ tol)
    (hx : x.length = p.numVars) (nonneg : ∀ j, 0 ≤ x.getD j 0) :
    p.FeasibleWithin tol (nums x)
      ↔ ∀ c ∈ allConstraints P p.box, num (c.lhs (x.getD · 0) - c.limit) ≤ tol := by
  have matrix : p.matrix = P.embed.matrix := congrArg Program.matrix hP
  have limits : p.limits = P.embed.limits := congrArg Program.limits hP
  have numVars : P.numVars = p.numVars := (Program.numVars_embed P).symm.trans (hP ▸ rfl)
  have rows : (∃ activities, p.matrix.product? (nums x) = some activities
      ∧ List.Forall₂ (fun a b => a ≤ b + tol) activities p.limits)
        ↔ ∀ c ∈ rowConstraints P, num (c.lhs (x.getD · 0) - c.limit) ≤ tol := by
    rw [matrix, limits, rowConstraints_forall₂ regular (hx.trans numVars.symm)]
    simp only [num_le_num_add_iff]
  have lower : List.Forall₂ (fun l v => l - tol ≤ v) p.box.lower (nums x)
      ↔ ∀ c ∈ endConstraints lowerEnd? p.box.lower, num (c.lhs (x.getD · 0) - c.limit) ≤ tol := by
    rw [forall₂_getElem?, length_nums, hx, h.lowerLength, forall_mem_endConstraints]
    simp only [true_and, getElem?_nums, hx]
    refine forall_congr' fun j => ⟨fun hall l hjl => ?_, fun hall l a hjl ⟨hj, ha⟩ => ?_⟩
    · obtain ⟨q, rfl, hq⟩ := h.lowerEnd hjl
      have hj : j < p.numVars := h.lowerLength ▸ (List.getElem?_eq_some_iff.mp hjl).1
      exact (lowerEnd?_within_iff hq htol (x := (x.getD · 0)) (nonneg j)).mp
        (hall _ _ hjl ⟨hj, rfl⟩)
    · obtain ⟨q, rfl, hq⟩ := h.lowerEnd hjl
      exact ha ▸ (lowerEnd?_within_iff hq htol (x := (x.getD · 0)) (nonneg j)).mpr (hall _ hjl)
  have upper : List.Forall₂ (fun v u => v ≤ u + tol) (nums x) p.box.upper
      ↔ ∀ c ∈ endConstraints upperEnd? p.box.upper, num (c.lhs (x.getD · 0) - c.limit) ≤ tol := by
    rw [forall₂_getElem?, length_nums, hx, h.upperLength, forall_mem_endConstraints]
    simp only [true_and, getElem?_nums, hx]
    refine forall_congr' fun j => ⟨fun hall u hju => ?_, fun hall a u ⟨hj, ha⟩ hju => ?_⟩
    · obtain ⟨defined, hne⟩ := h.upperEnd nonempty hju
      have hj : j < p.numVars := h.upperLength ▸ (List.getElem?_eq_some_iff.mp hju).1
      exact (upperEnd?_within_iff defined hne htol j (x.getD · 0)).mp (hall _ u ⟨hj, rfl⟩ hju)
    · obtain ⟨defined, hne⟩ := h.upperEnd nonempty hju
      exact ha ▸ (upperEnd?_within_iff defined hne htol j (x.getD · 0)).mpr (hall u hju)
  simp only [allConstraints, List.forall_mem_append]
  rw [← rows, ← lower, ← upper]
  exact ⟨fun hf => ⟨⟨hf.limits, hf.upper⟩, hf.lower⟩, fun hf => ⟨hf.1.1, hf.2, hf.1.2⟩⟩

/-! ### Overruns -/

namespace Tableau

section Arith

variable {α : Type} [Arith α]

/-- The value of a variable when the nonbasic variables are zero. -/
def level (t : Tableau α) (j : ℕ) : α :=
  match t.rows.find? fun row => row.basic = j with
  | some row => row.equation.rhs
  | none => 0

/-- What the vertex adds to a variable whose value is negative. -/
def raised (t : Tableau α) (j : ℕ) : α := greater (-t.level j) 0

/-- What the raised variables add to the left-hand side of constraint `i`, and its artificial
variable to its limit, less its slack. -/
def overrun (t : Tableau α) (cs : List (Constraint α)) (i : ℕ) (c : Constraint α) : α :=
  total (c.terms.map fun term => term.2 * t.raised term.1)
    + (if c.limit < 0 then t.level (t.firstArtificial + artificialsBefore cs i) else 0)
    - t.level (t.structural + i)

/-- No basic variable is negative, and no artificial one is above a tolerance. -/
def FeasibleBasis (t : Tableau α) (tol : α) : Prop :=
  ∀ row ∈ t.rows, 0 ≤ row.equation.rhs
    ∧ (t.isArtificial row.basic = true → row.equation.rhs ≤ tol)

end Arith

variable {t : Tableau ℚ} {n i : ℕ} {cs : List (Constraint ℚ)} {c : Constraint ℚ}

theorem level_eq (t : Tableau ℚ) (j : ℕ) : t.level j = t.basicSolution j := by
  rw [level, basicSolution, ray]
  cases t.rows.find? fun row => row.basic = j with
  | none => exact (ite_self 0).symm
  | some row =>
      change row.equation.rhs = row.equation.rhs - row.equation.coeff t.columns * 0
      rw [mul_zero, sub_zero]

theorem level_embed (t : Tableau ℚ) (j : ℕ) : t.embed.level j = num (t.level j) := by
  have find : t.embed.rows.find? (fun row => row.basic = j)
      = (t.rows.find? fun row => row.basic = j).map Row.embed := List.find?_map ..
  rw [level, level, find]
  cases t.rows.find? fun row => row.basic = j <;> rfl

theorem raised_eq (t : Tableau ℚ) (j : ℕ) :
    t.raised j = max (t.basicSolution j) 0 - t.basicSolution j := by
  rw [raised, greater_rat, level_eq]
  rcases le_total (t.basicSolution j) 0 with h | h
  · rw [max_eq_left (neg_nonneg.mpr h), max_eq_right h, zero_sub]
  · rw [max_eq_right (neg_nonpos.mpr h), max_eq_left h, sub_self]

theorem raised_embed (t : Tableau ℚ) (j : ℕ) : t.embed.raised j = num (t.raised j) := by
  rw [raised, raised, level_embed, ExtRat.num_neg, ExtRat.zero_eq, ExtRat.greater_num, greater_rat]

theorem artificialsBefore_embed (cs : List (Constraint ℚ)) (i : ℕ) :
    artificialsBefore (cs.map Constraint.embed) i = artificialsBefore cs i := by
  rw [artificialsBefore, artificialsBefore, ← List.map_take, List.countP_map]
  refine List.countP_congr fun c _ => ?_
  simp only [needsArtificial, Function.comp_apply, decide_eq_true_eq]
  exact ExtRat.num_lt

theorem total_rat (xs : List ℚ) : total xs = xs.sum :=
  List.sum_eq_foldl.symm

theorem overrun_embed (t : Tableau ℚ) (cs : List (Constraint ℚ)) (i : ℕ) (c : Constraint ℚ) :
    t.embed.overrun (cs.map Constraint.embed) i c.embed = num (t.overrun cs i c) := by
  have terms : c.embed.terms.map (fun term => term.2 * t.embed.raised term.1)
      = nums (c.terms.map fun term => term.2 * t.raised term.1) := by
    simp only [Constraint.embed, SparseMatrix.mapRow, nums, List.map_map]
    refine List.map_congr_left fun term _ => ?_
    simp only [Function.comp_apply, raised_embed, ExtRat.num_mul]
  have negative : c.embed.limit < 0 ↔ c.limit < 0 := ExtRat.num_lt
  have artificial : (if c.embed.limit < 0
        then t.embed.level (t.firstArtificial + artificialsBefore cs i) else 0)
      = num (if c.limit < 0 then t.level (t.firstArtificial + artificialsBefore cs i) else 0) := by
    rw [level_embed, apply_ite num]
    exact if_congr negative rfl rfl
  have sizes : t.embed.firstArtificial = t.firstArtificial ∧ t.embed.structural = t.structural :=
    ⟨rfl, rfl⟩
  rw [overrun, overrun, terms, total_nums, total_rat, sizes.1, sizes.2, artificialsBefore_embed,
    artificial, level_embed, ExtRat.num_add, ExtRat.num_sub]

theorem Basis.getD_vertex (b : t.Basis) {j : ℕ} (hj : j < t.structural) :
    t.vertex.getD j 0 = max (t.basicSolution j) 0 := by
  rw [b.vertex_eq_map, List.getD_eq_getElem?_getD, List.getElem?_map, List.getElem?_range hj,
    Option.map_some, Option.getD_some]

theorem Basis.vertex_nonneg (b : t.Basis) (j : ℕ) : 0 ≤ t.vertex.getD j 0 := by
  rcases lt_or_ge j t.structural with hj | hj
  · rw [b.getD_vertex hj]
    exact le_max_right _ _
  · rw [List.getD_eq_default _ _ (by rwa [length_vertex])]

/-- The excess of a constraint at the basic solution: its artificial variable, less its slack. -/
theorem Restates.excess_basicSolution (hcs : ∀ c ∈ cs, c.Proper n) (w : Restates (start n cs) t)
    (hi : cs[i]? = some c) :
    c.lhs t.basicSolution - c.limit
      = (if c.limit < 0 then t.basicSolution (n + cs.length + artificialsBefore cs i) else 0)
        - t.basicSolution (n + i) := by
  obtain ⟨hlt, -⟩ := List.getElem?_eq_some_iff.mp hi
  have holds := (w.solves _).mp w.basis.solves_basicSolution _ (startRow_mem_start hi)
  rw [Equation.Holds, columns_start, lhs_startRow (hcs c (List.mem_of_getElem? hi)) hlt
    (artificialsBefore_lt_countP hi), startRow_eq] at holds
  -- the artificial variable has the sign of the row, which is negated where the limit is negative
  by_cases hc : c.limit < 0
  · simp only [signOf, if_pos hc] at holds ⊢
    linarith
  · simp only [signOf, if_neg hc] at holds ⊢
    linarith

/-- **The excess of a constraint at the vertex is its overrun.** -/
theorem Restates.excess_vertex (hcs : ∀ c ∈ cs, c.Proper n) (w : Restates (start n cs) t)
    (hi : cs[i]? = some c) :
    c.lhs (t.vertex.getD · 0) - c.limit = t.overrun cs i c := by
  have hsize : t.structural = n := w.structural
  have hartificial : t.firstArtificial = n + cs.length := w.firstArtificial
  have raises : c.lhs (t.vertex.getD · 0)
      = c.lhs t.basicSolution + (c.terms.map fun term => term.2 * t.raised term.1).sum := by
    rw [Constraint.lhs, Constraint.lhs, ← List.sum_map_add]
    refine congrArg List.sum (List.map_congr_left fun term hterm => ?_)
    have hj : term.1 < t.structural :=
      hsize.symm ▸ (hcs c (List.mem_of_getElem? hi)).inRange term hterm
    rw [w.basis.getD_vertex hj, raised_eq]
    ring
  have excess := w.excess_basicSolution hcs hi
  rw [overrun, total_rat, level_eq, level_eq, hsize, hartificial, raises]
  linarith

/-- **Over a feasible basis nothing overruns** by more than the tolerance. -/
theorem overrun_le {tol : ExtRat} (htol : 0 ≤ tol) (b : t.Basis)
    (h : t.embed.FeasibleBasis tol) (cs : List (Constraint ℚ)) (i : ℕ) (c : Constraint ℚ) :
    num (t.overrun cs i c) ≤ tol := by
  have rows : ∀ row ∈ t.rows, 0 ≤ row.equation.rhs
      ∧ (t.firstArtificial ≤ row.basic → num row.equation.rhs ≤ tol) := by
    intro row hrow
    obtain ⟨nonneg, artificial⟩ := h row.embed (List.mem_map_of_mem hrow)
    exact ⟨ExtRat.num_le.mp nonneg, fun hart => artificial (decide_eq_true hart)⟩
  have nonneg : ∀ j, 0 ≤ t.basicSolution j :=
    b.basicSolution_nonneg fun row hrow => (rows row hrow).1
  have raised : ∀ j, t.raised j = 0 := fun j => by
    rw [raised_eq, max_eq_left (nonneg j), sub_self]
  have artificial : ∀ j, t.firstArtificial ≤ j → num (t.basicSolution j) ≤ tol := fun j hj => by
    rcases t.basic_or_nonbasic j with ⟨row, hrow, rfl⟩ | hnon
    · rw [b.basicSolution_basic hrow]
      exact (rows row hrow).2 hj
    · rw [basicSolution_nonbasic hnon]
      exact htol
  have hslack := nonneg (t.structural + i)
  simp only [overrun, total_rat, raised, mul_zero, List.map_const', List.sum_replicate, smul_zero,
    zero_add, level_eq]
  split
  · exact ExtRat.num_le_of_le (by linarith) (artificial (t.firstArtificial + artificialsBefore cs i)
      (Nat.le_add_right _ _))
  · exact ExtRat.num_le_of_le (q := 0) (by linarith) htol

end Tableau

/-! ### Optimal results -/

variable {cs : List (Constraint ℚ)} {v : List ExtRat} {objective : ExtRat} {pivots : ℕ}

theorem forall_overrun_iff (hconstraints : p.constraints = cs.map Constraint.embed)
    (t : Tableau ℚ) :
    (∀ i c, p.constraints[i]? = some c → t.embed.overrun p.constraints i c ≤ tol)
      ↔ ∀ i c, cs[i]? = some c → num (t.overrun cs i c) ≤ tol := by
  simp only [hconstraints, List.getElem?_map, Option.map_eq_some_iff, forall_exists_index, and_imp,
    forall_apply_eq_imp_iff₂, Tableau.overrun_embed]

/-- The vertex of a tableau of the system is feasible within a tolerance just when nothing overruns
by more. -/
theorem Accepted.vertex_within_iff {P : Program ℚ} (h : p.Accepted) (regular : P.Regular)
    (hP : p.program = P.embed) (nonempty : p.box.isEmpty = false) (htol : 0 ≤ tol)
    (hconstraints : p.constraints = (allConstraints P p.box).map Constraint.embed)
    (hcs : ∀ c ∈ allConstraints P p.box, c.Proper p.numVars) {t : Tableau ℚ}
    (w : Restates (Tableau.start p.numVars (allConstraints P p.box)) t) :
    p.FeasibleWithin tol t.embed.vertex
      ↔ ∀ i c, p.constraints[i]? = some c → t.embed.overrun p.constraints i c ≤ tol := by
  have hlength : t.vertex.length = p.numVars := (Tableau.length_vertex t).trans w.structural
  rw [Tableau.vertex_embed, forall_overrun_iff hconstraints,
    h.feasibleWithin_iff regular hP nonempty htol hlength w.basis.vertex_nonneg]
  constructor
  · intro hall i c hi
    rw [← w.excess_vertex hcs hi]
    exact hall c (List.mem_of_getElem? hi)
  · intro hall c hc
    obtain ⟨i, hi⟩ := List.mem_iff_getElem?.mp hc
    rw [w.excess_vertex hcs hi]
    exact hall i c hi

/-- **The point of an optimal result** is feasible within the tolerance just when no constraint is
overrun by more at the last tableau, and so it is if the last basis is feasible: whatever the
budget, the tolerances that are not negative, and the ratio tests. -/
theorem optimal_within_iff (valid : p.validate = .ok ()) (wf : p.matrix.WellFormed)
    (pivotTol : 0 ≤ s.pivotTol) (feasTol : 0 ≤ s.feasTol)
    (h : p.solve s = .ok ⟨.optimal v objective, pivots⟩) :
    ∃ t, p.finalTableau? s = some t
      ∧ (p.FeasibleWithin s.feasTol v
        ↔ ∀ i c, p.constraints[i]? = some c → t.overrun p.constraints i c ≤ s.feasTol)
      ∧ (t.FeasibleBasis s.feasTol → p.FeasibleWithin s.feasTol v) := by
  have hverdict : (p.optimum s).verdict = .optimal v objective :=
    congrArg Result.verdict (Except.ok.inj ((solve_eq_ok valid).symm.trans h))
  obtain ⟨nonempty, u, spent, hone, rfl⟩ := optimum_eq_optimal hverdict
  have hfinal : p.finalTableau? s = some (phaseTwo s p.objective u spent).tableau := by
    rw [finalTableau?, hone]
  obtain ⟨P, c, regular, hP, hconstraints, m⟩ := exists_regular_models valid wf nonempty
  obtain ⟨N, -, phase, -, hphase, -, -, d, -⟩ :=
    m.exists_lastPhase hconstraints (ExtRat.not_neg_of_nonneg pivotTol) hone
  rw [hphase] at hfinal ⊢
  have within := (accepted_of_validate valid).vertex_within_iff regular hP nonempty feasTol
    hconstraints m.proper d.toRestates
  refine ⟨_, hfinal, within, fun basis => within.mpr ?_⟩
  exact (forall_overrun_iff hconstraints phase.tableau).mpr fun i c _ =>
    Tableau.overrun_le feasTol d.basis basis _ i c

/-- At the segment, with the usual tolerances. -/
theorem optimal_within_iff_segment :
    segment.validate = .ok () ∧ segment.matrix.WellFormed ∧ (0 : ExtRat) ≤ 1e-9
      ∧ segment.solve ⟨9, 1e-9, 1e-9⟩ = .ok ⟨.optimal [num 1, num 1] (num 3), 3⟩
      ∧ ∃ t, segment.finalTableau? ⟨9, 1e-9, 1e-9⟩ = some t
        ∧ (segment.FeasibleWithin 1e-9 [num 1, num 1]
          ↔ ∀ i c, segment.constraints[i]? = some c → t.overrun segment.constraints i c ≤ 1e-9)
        ∧ (t.FeasibleBasis 1e-9 → segment.FeasibleWithin 1e-9 [num 1, num 1]) := by
  have valid : segment.validate = .ok () := by decide +kernel
  have wf : segment.matrix.WellFormed := by decide +kernel
  have tol : (0 : ExtRat) ≤ 1e-9 := by decide +kernel
  have hsolve : segment.solve ⟨9, 1e-9, 1e-9⟩ = .ok ⟨.optimal [num 1, num 1] (num 3), 3⟩ := by
    decide +kernel
  exact ⟨valid, wf, tol, hsolve, optimal_within_iff valid wf tol tol hsolve⟩

/-- Maximise `x ≥ 0` where `x / 2³³ ≤ 1` and `x ≤ 2⁴⁰`.  The first coefficient is within the usual
tolerance. -/
def flat : LinearProgram ExtRat where
  objective := [num 1]
  matrix := .ofEntries 1 [[(0, num (1 / 2 ^ 33))], [(0, num 1)]]
  limits := [num 1, num (2 ^ 40)]
  box := .nonnegative 1

/-- **An optimal result that is not feasible**: its point exceeds the first limit by 127. -/
theorem not_feasibleWithin_flat :
    flat.validate = .ok () ∧ flat.matrix.WellFormed
      ∧ flat.solve .standard = .ok ⟨.optimal [num (2 ^ 40)] (num (2 ^ 40)), 1⟩
      ∧ ¬ flat.FeasibleWithin (Settings.standard : Settings ExtRat).feasTol [num (2 ^ 40)] := by
  have product : flat.matrix.product? [num (2 ^ 40)] = some [num 128, num (2 ^ 40)] := by
    decide +kernel
  have exceeds : ¬ num 128 ≤ num 1 + (Settings.standard : Settings ExtRat).feasTol := by
    decide +kernel
  refine ⟨by decide +kernel, by decide +kernel, by decide +kernel, fun hfeasible => ?_⟩
  obtain ⟨activities, hactivities, hlimits⟩ := hfeasible.limits
  cases Option.some.inj (product.symm.trans hactivities)
  obtain ⟨hfirst, -⟩ := List.forall₂_cons.mp hlimits
  exact exceeds hfirst

end IntegerProgramming.LinearProgram
