import Mathlib
import IntegerProgramming.Proofs.LinearProgram.Verdicts

/-!
# Linear programs — what a tableau says of its program

A tableau is a system of equations, and an equation for the objective.  With nonnegative slacks and
without artificial variables, the system at the start says of a nonnegative point just that it is
feasible.  From there on the objective may be set and pivots may be made, in any order and at any
entries but zeros (`LinearProgram.Reached`).  Whatever their signs, the system goes on having the
same solutions, its basic columns stay those of a unit matrix, and the objective row says what the
objective that was set last is at each solution (`LinearProgram.Faithful`).

* `Tableau.embed_solvedBy_iff`: the solutions of a tableau of numbers.
* `Models.feasible_iff_solvedBy`: **the points of a program are the solutions at the start** without
  artificial variables.
* `Reached.exists_canonical`: what one step after another keeps.
* `faithful_of_reached`: **every tableau that is reached is faithful to its program.**
-/

namespace IntegerProgramming.LinearProgram

open ExtRat (num innerProd)
open Tableau (worth withSlacks)

/-! ### Solutions -/

namespace Tableau

/-- There is a value for each column, and every row holds. -/
structure SolvedBy (t : Tableau ExtRat) (v : List ℚ) : Prop where
  length : v.length = t.columns
  rows : ∀ row ∈ t.rows, dot row.equation.coeffs (nums v) = row.equation.rhs

/-- The left-hand side of an equation of numbers. -/
theorem dot_embed {e : Equation ℚ} {v : List ℚ} (h : v.length = e.coeffs.length) :
    dot e.embed.coeffs (nums v) = num (e.lhs e.coeffs.length (v.getD · 0)) :=
  (ExtRat.dot_map_num e.coeffs v).trans (congrArg num (innerProd_eq_worth h le_rfl))

variable {t : Tableau ℚ} {v : List ℚ}

theorem Basis.dot_row (b : t.Basis) (h : v.length = t.columns) {row : Row ℚ} (hrow : row ∈ t.rows) :
    dot row.equation.embed.coeffs (nums v) = num (row.equation.lhs t.columns (v.getD · 0)) := by
  rw [← b.length row hrow] at h ⊢
  exact dot_embed h

theorem Basis.dot_objective (b : t.Basis) (h : v.length = t.columns) :
    dot t.objective.embed.coeffs (nums v) = num (t.objective.lhs t.columns (v.getD · 0)) := by
  rw [← b.objective] at h ⊢
  exact dot_embed h

/-- **The solutions of a tableau of numbers.** -/
theorem Basis.embed_solvedBy_iff (b : t.Basis) :
    t.embed.SolvedBy v ↔ v.length = t.columns ∧ t.Solves (v.getD · 0) := by
  have rows (h : v.length = t.columns) : (∀ row ∈ t.embed.rows,
      dot row.equation.coeffs (nums v) = row.equation.rhs) ↔ t.Solves (v.getD · 0) := by
    rw [embed, List.forall_mem_map]
    refine forall₂_congr fun row hrow => ?_
    rw [Row.embed, b.dot_row h hrow, Equation.Holds]
    exact ⟨ExtRat.num.inj, congrArg num⟩
  exact ⟨fun h => ⟨h.length, (rows h.length).mp h.rows⟩, fun h => ⟨h.1, (rows h.1).mpr h.2⟩⟩

/-- Only the values of the columns count. -/
theorem solves_congr {v w : ℕ → ℚ} (h : ∀ j < t.columns, v j = w j) : t.Solves v ↔ t.Solves w := by
  refine forall₂_congr fun row _ => ?_
  have same : row.equation.lhs t.columns v = row.equation.lhs t.columns w :=
    Finset.sum_congr rfl fun j hj => by rw [h j (Finset.mem_range.mp hj)]
  rw [Equation.Holds, Equation.Holds, same]

end Tableau

/-! ### Points -/

section Points

variable {n : ℕ} {cs : List (Constraint ℚ)} {c : List ℚ} {p : LinearProgram ExtRat} {y : List ℚ}

/-- The values of a point with its slacks, block by block. -/
theorem firstCoordinates_withSlacks (hy : y.length = n) (k : ℕ) :
    firstCoordinates (n + cs.length + k) (withSlacks n cs (y.getD · 0))
      = y ++ (List.range cs.length).map (fun i => withSlacks n cs (y.getD · 0) (n + i))
        ++ List.replicate k 0 := by
  have point : (List.range n).map (withSlacks n cs (y.getD · 0)) = y :=
    (eq_firstCoordinates hy fun j hj =>
      (Tableau.withSlacks_of_lt (x := (y.getD · 0)) hj).symm).symm
  have artificials : (List.range k).map
      (fun i => withSlacks n cs (y.getD · 0) (n + cs.length + i)) = List.replicate k 0 := by
    rw [List.eq_replicate_iff, List.length_map, List.length_range, List.forall_mem_map]
    exact ⟨rfl, fun i _ => Tableau.withSlacks_artificial (Nat.le_add_right _ i)⟩
  rw [firstCoordinates, List.range_add, List.range_add, List.map_append, List.map_append,
    List.map_map, List.map_map, point, ← artificials]
  rfl

/-- **The points of a program are the solutions at the start** with nonnegative slacks and without
artificial variables. -/
theorem Models.feasible_iff_solvedBy (m : p.Models n cs c) (hy : y.length = n)
    (nonneg : ∀ a ∈ y, 0 ≤ a) :
    p.Feasible y ↔ ∃ slacks : List ℚ, slacks.length = cs.length ∧ (∀ a ∈ slacks, 0 ≤ a)
      ∧ (Tableau.start n cs).embed.SolvedBy (y ++ slacks
        ++ List.replicate (cs.countP Tableau.needsArtificial) 0) := by
  have columns := Tableau.columns_start n cs
  rw [m.feasible]
  constructor
  · rintro ⟨-, meets⟩
    refine ⟨(List.range cs.length).map fun i => withSlacks n cs (y.getD · 0) (n + i), by simp,
      ?_, ?_⟩
    · rw [List.forall_mem_map]
      exact fun i _ => meets.withSlacks_nonneg (n + i)
    · rw [← firstCoordinates_withSlacks hy, (Tableau.basis_start n cs).embed_solvedBy_iff]
      refine ⟨length_firstCoordinates _ _, ?_⟩
      rw [Tableau.solves_congr fun j hj => getD_firstCoordinates (columns ▸ hj)]
      exact Tableau.solves_withSlacks m.proper _
  · rintro ⟨slacks, hslacks, hnonneg, solved⟩
    obtain ⟨-, solves⟩ := (Tableau.basis_start n cs).embed_solvedBy_iff.mp solved
    have zero : ∀ j, n + cs.length ≤ j → (y ++ slacks
        ++ List.replicate (cs.countP Tableau.needsArtificial) 0).getD j 0 = 0 := fun j hj => by
      rw [List.getD_append_right _ _ _ _ (by simpa [hy, hslacks] using hj),
        List.getD_eq_getElem?_getD, List.getElem?_getD_replicate_default_eq]
    have values : ∀ j, 0 ≤ (y ++ slacks
        ++ List.replicate (cs.countP Tableau.needsArtificial) 0).getD j 0 := fun j => by
      rcases lt_or_ge j (n + cs.length) with hj | hj
      · have hj' : j < (y ++ slacks).length := by simpa [hy, hslacks] using hj
        rw [List.getD_append _ _ _ _ hj', List.getD_eq_getElem _ _ hj']
        exact List.forall_mem_append.mpr ⟨nonneg, hnonneg⟩ _ (List.getElem_mem hj')
      · exact (zero j hj).ge
    refine ⟨hy, (meets_congr m.proper fun j hj => ?_).mpr
      ⟨fun j _ => values j, Tableau.lhs_le_of_solves m.proper zero values solves⟩⟩
    rw [List.append_assoc, List.getD_append _ _ _ _ (hy ▸ hj)]

end Points

/-! ### Objectives -/

/-- What an objective row can be about. -/
inductive Goal where
  /-- Nothing: no objective was set. -/
  | unset
  /-- The negated sum of the artificial variables. -/
  | artificials
  /-- The objective of the program. -/
  | objective

/-- The value of the goal at a solution. -/
def Goal.value (p : LinearProgram ExtRat) (v : List ℚ) : Goal → ExtRat
  | .unset => 0
  | .artificials => -total (nums (v.drop p.startTableau.firstArtificial))
  | .objective => dot p.objective (nums v)

/-- The same over the rationals. -/
def Goal.valuation (s : Tableau ℚ) (c : List ℚ) : Goal → (ℕ → ℚ) → ℚ
  | .unset, _ => 0
  | .artificials, v => -s.artificialSum v
  | .objective, v => worth c s.columns v

/-- The sum of the last values. -/
theorem sum_drop (v : List ℚ) (k : ℕ) :
    (v.drop k).sum = ∑ j ∈ Finset.range v.length, if k ≤ j then v.getD j 0 else 0 := by
  induction v generalizing k with
  | nil => simp
  | cons a v ih =>
      rw [List.length_cons, Finset.sum_range_succ']
      cases k with
      | zero =>
          have rest := ih 0
          simp only [List.drop_zero, Nat.zero_le, if_true] at rest
          simp [rest, add_comm]
      | succ k => simp [ih k]

/-- Values beyond those that have a cost do not count. -/
theorem innerProd_take {c v : List ℚ} (h : c.length ≤ v.length) :
    innerProd c v = innerProd c (v.take c.length) := by
  rw [innerProd, innerProd, List.zipWith_eq_zipWith_take_min, min_eq_left h, List.take_length]

section Reached

variable {n : ℕ} {cs : List (Constraint ℚ)} {c : List ℚ} {p : LinearProgram ExtRat}
  {t : Tableau ExtRat} {goal : Goal}

/-- The value of a goal is that of numbers. -/
theorem Models.goal_value (m : p.Models n cs c)
    (hstart : p.startTableau = (Tableau.start n cs).embed) {v : List ℚ}
    (hv : v.length = (Tableau.start n cs).columns) (goal : Goal) :
    goal.value p v = num (goal.valuation (Tableau.start n cs) c (v.getD · 0)) := by
  cases goal with
  | unset => rfl
  | artificials =>
      rw [Goal.value, hstart, total_nums, sum_drop, hv]
      rfl
  | objective =>
      have width : c.length ≤ v.length := by
        rw [m.cost, hv, Tableau.columns_start]
        omega
      have taken : (v.take c.length).length = c.length := by
        rw [List.length_take, min_eq_left width]
      rw [Goal.value, m.objective]
      refine (ExtRat.dot_map_num c v).trans (congrArg num ?_)
      rw [innerProd_take width, innerProd_eq_worth taken (hv ▸ width), Goal.valuation]
      refine Tableau.worth_congr fun j hj => ?_
      rw [List.getD_eq_getElem _ _ (taken.symm ▸ hj), List.getElem_take,
        List.getD_eq_getElem _ _ (hj.trans_le width)]

/-! ### Steps -/

/-- The tableaus to which a program leads: the one at the start, those with another objective, and
those after a pivot at an entry that is not zero. -/
inductive Reached (p : LinearProgram ExtRat) : Goal → Tableau ExtRat → Prop where
  | start : Reached p .unset p.startTableau
  | artificials {goal : Goal} {t : Tableau ExtRat} (h : Reached p goal t) :
      Reached p .artificials t.withArtificialObjective
  | objective {goal : Goal} {t : Tableau ExtRat} (h : Reached p goal t) :
      Reached p .objective (t.withObjective p.objective)
  | pivot {goal : Goal} {t : Tableau ExtRat} {r j : ℕ} {row : Row ExtRat} (h : Reached p goal t)
      (hrow : t.rows[r]? = some row) (hcolumn : j < t.columns) (hj : row.equation.coeff j ≠ 0) :
      Reached p goal (t.pivot r j)

/-- Before an objective is set, the objective row says nothing. -/
theorem canonical_start (n : ℕ) (cs : List (Constraint ℚ)) :
    (Tableau.start n cs).Canonical (fun _ => 0) (Tableau.start n cs) := by
  have zero (j : ℕ) : (Tableau.start n cs).objective.coeff j = 0 := by
    rw [Equation.coeff, Tableau.start, List.getD_eq_getElem?_getD,
      List.getElem?_getD_replicate_default_eq]
  refine ⟨(Tableau.basis_start n cs).restates, fun row _ => zero row.basic, fun v _ => ?_⟩
  rw [zero_add, Equation.lhs]
  exact Finset.sum_eq_zero fun j _ => by rw [zero, zero_mul]

/-- **What one step after another keeps.** -/
theorem Reached.exists_canonical (m : p.Models n cs c)
    (hstart : p.startTableau = (Tableau.start n cs).embed) (h : p.Reached goal t) :
    ∃ u, t = u.embed
      ∧ (Tableau.start n cs).Canonical (goal.valuation (Tableau.start n cs) c) u := by
  induction h with
  | start => exact ⟨_, hstart, canonical_start n cs⟩
  | artificials _ ih =>
      obtain ⟨u, rfl, canonical⟩ := ih
      have columns : u.firstArtificial ≤ u.columns := by
        rw [canonical.firstArtificial, canonical.columns]
        exact Tableau.firstArtificial_le_columns_start n cs
      have same : (fun v => -u.artificialSum v)
          = Goal.valuation (Tableau.start n cs) c .artificials := by
        simp only [funext_iff, Goal.valuation, Tableau.artificialSum, canonical.firstArtificial,
          canonical.columns, implies_true]
      exact ⟨_, Tableau.withArtificialObjective_embed u,
        same ▸ canonical.toRestates.withArtificialObjective columns⟩
  | objective _ ih =>
      obtain ⟨u, rfl, canonical⟩ := ih
      have structural : u.structural = n := canonical.structural
      have columns : u.columns = n + cs.length + cs.countP Tableau.needsArtificial :=
        canonical.columns
      have same : worth c u.columns = Goal.valuation (Tableau.start n cs) c .objective := by
        rw [canonical.columns]
        rfl
      rw [m.objective]
      exact ⟨_, Tableau.withObjective_embed u c, same ▸ canonical.toRestates.withObjective
        (m.cost.trans structural.symm) (by omega)⟩
  | pivot _ hrow _ hj ih =>
      obtain ⟨u, rfl, canonical⟩ := ih
      rw [Tableau.getElem?_rows_embed, Option.map_eq_some_iff] at hrow
      obtain ⟨row, hrow, rfl⟩ := hrow
      rw [Row.embed, Equation.coeff_embed, ExtRat.zero_eq, Ne, ExtRat.num.injEq] at hj
      refine ⟨_, Tableau.pivot_embed fun other hother => ?_, canonical.pivot hrow hj⟩
      cases Option.some.inj (hrow.symm.trans hother)
      exact hj

/-- **A tableau that is faithful to its program.**  It has the variables and the solutions of the
tableau at the start; its basic variables are distinct, and their columns those of a unit matrix;
and its objective row says, without using them, what the goal is at each solution. -/
structure Faithful (p : LinearProgram ExtRat) (goal : Goal) (t : Tableau ExtRat) : Prop where
  structural : t.structural = p.numVars
  firstArtificial : t.firstArtificial = p.numVars + t.rows.length
  columns : t.columns = p.startTableau.columns
  height : t.rows.length = p.startTableau.rows.length
  widths : ∀ row ∈ t.rows, row.equation.coeffs.length = t.columns
  objective : t.objective.coeffs.length = t.columns
  solutions : ∀ v : List ℚ, t.SolvedBy v ↔ p.startTableau.SolvedBy v
  basic : ∀ row ∈ t.rows, row.basic < t.columns
  distinct : (t.rows.map Row.basic).Nodup
  unit : ∀ (i k : ℕ) (row other : Row ExtRat), t.rows[i]? = some row → t.rows[k]? = some other →
    row.equation.coeff other.basic = if i = k then 1 else 0
  priced : ∀ row ∈ t.rows, t.objective.coeff row.basic = 0
  value : ∀ v : List ℚ, t.SolvedBy v →
    goal.value p v = t.objective.rhs - dot t.objective.coeffs (nums v)

/-- What is canonical for a goal over the rationals is faithful to the program. -/
theorem Models.faithful (m : p.Models p.numVars cs c)
    (hstart : p.startTableau = (Tableau.start p.numVars cs).embed) {u : Tableau ℚ}
    (canonical : (Tableau.start p.numVars cs).Canonical
      (goal.valuation (Tableau.start p.numVars cs) c) u) : p.Faithful goal u.embed where
  structural := canonical.structural
  firstArtificial := by
    have length : u.embed.rows.length = cs.length := by
      rw [Tableau.embed, List.length_map, canonical.length]
      exact Tableau.length_startRows ..
    rw [length]
    exact canonical.firstArtificial
  columns := by
    rw [hstart]
    exact canonical.columns
  height := by
    rw [hstart, Tableau.embed, Tableau.embed, List.length_map, List.length_map, canonical.length]
  widths := by
    rw [Tableau.embed, List.forall_mem_map]
    exact fun row hrow => (length_nums _).trans (canonical.basis.length row hrow)
  objective := (length_nums _).trans canonical.basis.objective
  solutions v := by
    rw [hstart, canonical.basis.embed_solvedBy_iff,
      (Tableau.basis_start p.numVars cs).embed_solvedBy_iff, canonical.columns, canonical.solves]
  basic := by
    rw [Tableau.embed, List.forall_mem_map]
    exact canonical.basis.basic
  distinct := by
    rw [Tableau.embed, List.map_map, List.nodup_iff_pairwise_ne, List.pairwise_map]
    exact canonical.basis.pairwise_basic
  unit i k row other hi hk := by
    rw [Tableau.getElem?_rows_embed, Option.map_eq_some_iff] at hi hk
    obtain ⟨row, hi, rfl⟩ := hi
    obtain ⟨other, hk, rfl⟩ := hk
    rw [Row.embed, Row.embed, Equation.coeff_embed, canonical.basis.unit i k row other hi hk]
    exact apply_ite num _ _ _
  priced := by
    rw [Tableau.embed, List.forall_mem_map]
    intro row hrow
    rw [Equation.coeff_embed, Row.embed, canonical.priced row hrow, ExtRat.zero_eq]
  value v hv := by
    obtain ⟨length, solves⟩ := canonical.basis.embed_solvedBy_iff.mp hv
    have means := canonical.means _ solves
    have rhs : u.embed.objective.rhs = num u.objective.rhs := rfl
    rw [m.goal_value hstart (length.trans canonical.columns), rhs, ← means]
    change _ = _ - dot u.objective.embed.coeffs (nums v)
    rw [canonical.basis.dot_objective length, ExtRat.num_sub, add_sub_cancel_right]

/-- **Tableaus are faithful to their program.**  At the start, the solutions without artificial
variables whose slacks are not negative are the feasible points, among the points that are not
negative.  Whatever objectives are then set and whatever pivots are made, the tableau is faithful to
the program. -/
theorem faithful_of_reached (valid : p.validate = .ok ()) (wf : p.matrix.WellFormed)
    (nonempty : p.box.isEmpty = false) :
    (∀ y : List ℚ, y.length = p.numVars → (∀ a ∈ y, 0 ≤ a) →
      (p.Feasible y ↔ ∃ slacks : List ℚ, slacks.length = p.startTableau.rows.length
        ∧ (∀ a ∈ slacks, 0 ≤ a)
        ∧ p.startTableau.SolvedBy (y ++ slacks ++ List.replicate
          (p.startTableau.columns - p.startTableau.firstArtificial) 0)))
      ∧ ∀ goal t, p.Reached goal t → p.Faithful goal t := by
  obtain ⟨cs, c, hconstraints, m⟩ := exists_models valid wf nonempty
  have hstart := startTableau_embed hconstraints
  have rows : (Tableau.start p.numVars cs).embed.rows.length = cs.length :=
    (List.length_map _).trans (Tableau.length_startRows ..)
  have artificials : (Tableau.start p.numVars cs).embed.columns
      - (Tableau.start p.numVars cs).embed.firstArtificial = cs.countP Tableau.needsArtificial :=
    Nat.add_sub_cancel_left ..
  constructor
  · intro y hy nonneg
    rw [hstart, rows, artificials]
    exact m.feasible_iff_solvedBy hy nonneg
  · intro goal t reached
    obtain ⟨u, rfl, canonical⟩ := reached.exists_canonical m hstart
    exact m.faithful hstart canonical

end Reached

/-- At the segment: its point has slacks, and an artificial variable may enter again, at a negative
entry, between the one objective and the other. -/
theorem faithful_of_reached_segment :
    segment.validate = .ok () ∧ segment.matrix.WellFormed ∧ segment.box.isEmpty = false
      ∧ (∃ slacks : List ℚ, slacks.length = 3 ∧ (∀ a ∈ slacks, 0 ≤ a)
        ∧ segment.startTableau.SolvedBy ([1, 1] ++ slacks ++ [0, 0]))
      ∧ segment.Faithful .objective (((segment.startTableau.withArtificialObjective.pivot 2 0).pivot
        0 6).withObjective segment.objective) := by
  have valid : segment.validate = .ok () := by decide +kernel
  have wf : segment.matrix.WellFormed := by decide +kernel
  have nonempty : segment.box.isEmpty = false := by decide +kernel
  obtain ⟨points, faithful⟩ := faithful_of_reached valid wf nonempty
  have feasible : segment.Feasible [1, 1] :=
    ⟨⟨_, rfl, by decide +kernel⟩, by decide +kernel, by decide +kernel⟩
  have entered : segment.Reached .artificials (segment.startTableau.withArtificialObjective.pivot
      2 0) :=
    .pivot (.artificials .start) rfl (by decide +kernel) (by decide +kernel)
  have returned : segment.Reached .artificials ((segment.startTableau.withArtificialObjective.pivot
      2 0).pivot 0 6) :=
    .pivot entered rfl (by decide +kernel) (by decide +kernel)
  exact ⟨valid, wf, nonempty, (points [1, 1] rfl (by decide)).mp feasible,
    faithful _ _ (.objective returned)⟩

end IntegerProgramming.LinearProgram
