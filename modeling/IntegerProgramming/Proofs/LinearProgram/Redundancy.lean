import Mathlib
import IntegerProgramming.Proofs.LinearProgram.Certificates

/-!
# Simplex — rows that keep an artificial variable

Between the phases every artificial variable is expelled for which its row has another column to
offer.  A row that keeps one has nothing but artificial columns (`Tableau.Redundant`): it is a
combination of other constraints, and says nothing about the program.  It goes on saying nothing.
A column that enters in phase two is not artificial, so such a row has no coefficient there; it does
not limit the column, and there is nothing to clear from it.

* `Tableau.Redundant.spares`: **one pivot of phase two** leaves the rows with an artificial basic
  variable as they are, in both directions: it makes no row one of them.
* `Tableau.Redundant.spares_run`: **any number of them** does.
* `Tableau.IdleBelow.redundant_embed`: without a tolerance, what cannot be expelled is redundant.
* `LinearProgram.keepsRedundant`: **the two phases of an accepted program.**
* `LinearProgram.isArtificial_eq_false_of_pivots`: as every constraint has a slack, its artificial
  variable can always be expelled, and **no row of phase two has one**.  What is said of rows that
  keep one does not rest on this: it holds of any tableau with redundant rows.
-/

namespace IntegerProgramming.LinearProgram

open ExtRat (num)

namespace Tableau

/-! ### Pivots that spare a row -/

section Arith

variable {α : Type} {t u w : Tableau α} {tol : α} {r j n : ℕ} {row : Row α}

/-- The same columns are artificial, and the same rows at the same places have an artificial basic
variable. -/
structure Spares (t u : Tableau α) : Prop where
  firstArtificial : u.firstArtificial = t.firstArtificial
  rows : ∀ (i : ℕ) (row : Row α), t.isArtificial row.basic = true →
    (u.rows[i]? = some row ↔ t.rows[i]? = some row)

theorem Spares.refl (t : Tableau α) : Spares t t := ⟨rfl, fun _ _ _ => Iff.rfl⟩

theorem Spares.isArtificial (h : Spares t u) (k : ℕ) : u.isArtificial k = t.isArtificial k := by
  rw [Tableau.isArtificial, Tableau.isArtificial, h.firstArtificial]

/-- Where no row has an artificial basic variable, none has one afterwards. -/
theorem Spares.isArtificial_eq_false (h : Spares t u)
    (expelled : ∀ row ∈ t.rows, t.isArtificial row.basic = false) :
    ∀ row ∈ u.rows, u.isArtificial row.basic = false := by
  intro row hrow
  by_contra hart
  rw [Bool.not_eq_false, h.isArtificial] at hart
  obtain ⟨i, hi⟩ := List.mem_iff_getElem?.mp hrow
  have before := List.mem_of_getElem? ((h.rows i row hart).mp hi)
  exact absurd (hart.symm.trans (expelled row before)) (by decide)

theorem Spares.trans (first : Spares t u) (second : Spares u w) : Spares t w :=
  ⟨second.firstArtificial.trans first.firstArtificial, fun i row hart =>
    (second.rows i row ((first.isArtificial _).trans hart)).trans (first.rows i row hart)⟩

variable [Arith α]

/-- A row with an artificial basic variable has zero in every column that is not artificial. -/
def Redundant (t : Tableau α) : Prop :=
  ∀ row ∈ t.rows, t.isArtificial row.basic = true →
    row.equation.coeffs.take t.firstArtificial = List.replicate t.firstArtificial 0

/-- Rows that are spared stay redundant. -/
theorem Redundant.of_spares (red : t.Redundant) (h : Spares t u) : u.Redundant := by
  intro row hrow hart
  obtain ⟨i, hi⟩ := List.mem_iff_getElem?.mp hrow
  have hart' := (h.isArtificial row.basic).symm.trans hart
  rw [h.firstArtificial]
  exact red row (List.mem_of_getElem? ((h.rows i row hart').mp hi)) hart'

theorem Redundant.coeff_eq_zero (red : t.Redundant) (hrow : row ∈ t.rows)
    (hart : t.isArtificial row.basic = true) (hj : j < t.firstArtificial) :
    row.equation.coeff j = 0 := by
  have entry : (row.equation.coeffs.take t.firstArtificial)[j]? = some 0 := by
    rw [red row hrow hart, List.getElem?_replicate, if_pos hj]
  rw [List.getElem?_take, if_pos hj] at entry
  rw [Equation.coeff, List.getD_eq_getElem?_getD, entry, Option.getD_some]

/-- **A pivot of phase two.**  The column that enters is not artificial, the row that leaves has no
artificial basic variable, and the rows that have one are spared. -/
theorem Redundant.spares (red : t.Redundant) (self : ((0 : α) == 0) = true) (htol : (0 : α) ≤ tol)
    (h : t.move tol t.firstArtificial = .pivot r j) :
    j < t.firstArtificial ∧ (∀ row, t.rows[r]? = some row → t.isArtificial row.basic = false)
      ∧ Spares t (t.pivot r j) := by
  obtain ⟨hj, c, hc, rfl⟩ := move_eq_pivot h
  obtain ⟨own, hown, hcoeff, -⟩ := leaving?_eq_some hc
  have hlimit := (entering?_eq_some hj).1
  -- the row that leaves limits the column, and a redundant row does not
  have leaves : t.isArtificial own.basic = false := by
    by_contra hart
    rw [red.coeff_eq_zero (List.mem_of_getElem? hown) (Bool.not_eq_false _ ▸ hart) hlimit] at hcoeff
    exact hcoeff htol
  have column : t.isArtificial j = false := decide_eq_false (not_le.mpr hlimit)
  refine ⟨hlimit, fun row hrow => Option.some.inj (hown.symm.trans hrow) ▸ leaves,
    firstArtificial_pivot .., fun i row hart => ?_⟩
  rw [getElem?_rows_pivot hown, Option.map_eq_some_iff]
  constructor
  · rintro ⟨old, hold, rfl⟩
    by_cases hi : i = c.row
    · rw [if_pos hi] at hart
      exact absurd (column.symm.trans hart) Bool.false_ne_true
    · rw [if_neg hi] at hart ⊢
      have hzero := red.coeff_eq_zero (List.mem_of_getElem? hold) hart hlimit
      rw [hold, Equation.clear, hzero, if_pos self]
  · intro hrow
    refine ⟨row, hrow, ?_⟩
    have hi : i ≠ c.row := by
      rintro rfl
      cases Option.some.inj (hown.symm.trans hrow)
      exact absurd (leaves.symm.trans hart) Bool.false_ne_true
    rw [if_neg hi, Equation.clear,
      red.coeff_eq_zero (List.mem_of_getElem? hrow) hart hlimit, if_pos self]

/-- The first row limits the column that enters, and the second one is redundant. -/
example :
    let t : Tableau ℚ :=
      ⟨1, 2, 3, [⟨1, [1, 1, 0], 1⟩, ⟨2, [0, 0, 1], 0⟩], ⟨[-1, 0, 0], 0⟩⟩
    t.move 0 t.firstArtificial = .pivot 0 0 ∧ (t.pivot 0 0).rows[1]? = t.rows[1]? := by
  decide +kernel

/-- **Any number of pivots of phase two** spare the rows with an artificial basic variable. -/
theorem Redundant.spares_run (red : t.Redundant) (self : ((0 : α) == 0) = true)
    (htol : (0 : α) ≤ tol) (run : Pivots tol t.firstArtificial t n u) : Spares t u := by
  refine run.invariant (P := fun u => Spares t u) (fun u r j hu hmove => ?_) (.refl t)
  rw [← hu.firstArtificial] at hmove
  exact hu.trans ((red.of_spares hu).spares self htol hmove).2.2

end Arith

/-! ### What cannot be expelled -/

/-- Without a tolerance, what cannot be expelled is redundant. -/
theorem IdleBelow.redundant_embed {t : Tableau ℚ} (below : t.IdleBelow t.rows.length) (b : t.Basis)
    (hcols : t.firstArtificial ≤ t.columns) : t.embed.Redundant := by
  rw [Redundant, embed, List.forall_mem_map]
  intro row hrow hart
  obtain ⟨i, hi⟩ := List.mem_iff_getElem?.mp hrow
  have zero := below i row (List.getElem?_eq_some_iff.mp hi).1 hi (of_decide_eq_true hart)
  have taken : row.equation.coeffs.take t.firstArtificial = List.replicate t.firstArtificial 0 := by
    refine List.ext_getElem (by simp [b.length row hrow, hcols]) fun k hk _ => ?_
    rw [List.length_take] at hk
    rw [List.getElem_take, List.getElem_replicate, ← zero k (by omega), Equation.coeff,
      List.getD_eq_getElem]
  change (nums row.equation.coeffs).take t.firstArtificial = _
  rw [nums, ← List.map_take, taken, List.map_replicate]
  rfl

/-! ### What can be expelled -/

variable {n : ℕ} {cs : List (Constraint ℚ)} {t : Tableau ℚ} {w : ℕ → ℚ} {j : ℕ}

/-- A solution of the start for any values of the artificial variables: the slack of a constraint
makes up for what its artificial variable adds. -/
def withArtificials (n : ℕ) (cs : List (Constraint ℚ)) (w : ℕ → ℚ) (j : ℕ) : ℚ :=
  if j < n then 0
  else
    match cs[j - n]? with
    | some c =>
        c.limit + if c.limit < 0 then w (n + cs.length + artificialsBefore cs (j - n)) else 0
    | none => w j

theorem withArtificials_of_lt (h : j < n) : withArtificials n cs w j = 0 := if_pos h

theorem withArtificials_of_le (h : n + cs.length ≤ j) : withArtificials n cs w j = w j := by
  rw [withArtificials, if_neg (by omega), List.getElem?_eq_none (by omega)]

theorem solves_withArtificials (hcs : ∀ c ∈ cs, c.Proper n) (w : ℕ → ℚ) :
    (start n cs).Solves (withArtificials n cs w) := by
  intro row hrow
  obtain ⟨i, c, hi, hlt, ha, rfl⟩ := mem_rows_start hrow
  have origin : c.lhs (withArtificials n cs w) = 0 := by
    rw [Constraint.lhs_congr (hcs c (List.mem_of_getElem? hi)) (w := fun _ => 0)
      fun j hj => withArtificials_of_lt hj]
    simp [Constraint.lhs]
  have slack : withArtificials n cs w (n + i)
      = c.limit + if c.limit < 0 then w (n + cs.length + artificialsBefore cs i) else 0 := by
    rw [withArtificials, if_neg (by omega), Nat.add_sub_cancel_left, hi]
  rw [Equation.Holds, columns_start, lhs_startRow (hcs c (List.mem_of_getElem? hi)) hlt ha, origin,
    slack, withArtificials_of_le (Nat.le_add_right ..), startRow_eq, signOf]
  by_cases hneg : c.limit < 0
  · simp only [if_pos hneg]
    ring
  · simp only [if_neg hneg]
    ring

/-- **Every artificial variable can be expelled.**  A tableau for the constraints in which no row
with an artificial basic variable has another column has no such row. -/
theorem IdleBelow.isArtificial_eq_false (below : t.IdleBelow t.rows.length)
    (hcs : ∀ c ∈ cs, c.Proper n) (w : Restates (start n cs) t) :
    ∀ row ∈ t.rows, t.isArtificial row.basic = false := by
  intro row hrow
  refine decide_eq_false fun hart => ?_
  obtain ⟨i, hi⟩ := List.mem_iff_getElem?.mp hrow
  have zero := below i row (List.getElem?_eq_some_iff.mp hi).1 hi hart
  -- the row says what the value of its basic variable is, whatever the other ones are
  have value (x : ℕ → ℚ) (hx : ∀ k, k ≠ row.basic → x k = 0) : x row.basic = row.equation.rhs := by
    have holds := (w.solves _).mpr (solves_withArtificials hcs x) row hrow
    rw [Equation.Holds, Equation.lhs, Finset.sum_eq_single row.basic] at holds
    · rwa [w.basis.coeff_basic hrow, one_mul,
        withArtificials_of_le (w.firstArtificial.symm.trans_le hart)] at holds
    · intro k _ hk
      rcases lt_or_ge k t.firstArtificial with hlt | hge
      · rw [zero k hlt, zero_mul]
      · rw [withArtificials_of_le (w.firstArtificial.symm.trans_le hge), hx k hk, mul_zero]
    · exact fun hnot => absurd (Finset.mem_range.mpr (w.basis.basic row hrow)) hnot
  have one := value (fun k => if k = row.basic then 1 else 0) fun k hk => if_neg hk
  have none := value (fun _ => 0) fun _ _ => rfl
  rw [if_pos rfl] at one
  exact one_ne_zero (one.trans none.symm)

end Tableau

/-! ### The two phases -/

variable {p : LinearProgram ExtRat} {s : Settings ExtRat} {t : Tableau ExtRat} {spent : ℕ}

/-- Without a tolerance for pivots, the tableau that phase one hands on. -/
theorem exists_idle_of_phaseOne (valid : p.validate = .ok ()) (wf : p.matrix.WellFormed)
    (nonempty : p.box.isEmpty = false) (pivotTol : s.pivotTol = 0)
    (h : phaseOne s p.startTableau = .ok (t, spent)) :
    ∃ (cs : List (Constraint ℚ)) (v : Tableau ℚ), (∀ c ∈ cs, c.Proper p.numVars) ∧ t = v.embed
      ∧ Tableau.Restates (.start p.numVars cs) v ∧ v.IdleBelow v.rows.length := by
  have htol : ¬ s.pivotTol < 0 := by
    rw [pivotTol]
    exact ExtRat.not_neg_of_nonneg (ExtRat.num_le.mpr le_rfl)
  obtain ⟨cs, c, hconstraints, m⟩ := exists_models valid wf nonempty
  rw [startTableau_embed hconstraints] at h
  obtain ⟨v, rfl, w, below⟩ := exists_restates_of_phaseOne htol h
  exact ⟨cs, v, m.proper, rfl, w, below pivotTol⟩

/-- **What a tableau keeps to in phase two.**  The rows with an artificial basic variable have zero
in every other column; every tableau of the phase has the same ones, unchanged; and no pivot of the
phase takes an artificial variable into the basis or happens in one of these rows. -/
structure KeepsRedundant (tol : ExtRat) (c : List ExtRat) (t : Tableau ExtRat) : Prop where
  redundant : t.Redundant
  spares : ∀ n u, Pivots tol t.firstArtificial (t.withObjective c) n u → t.Spares u
  pivots : ∀ n u r j, Pivots tol t.firstArtificial (t.withObjective c) n u →
    u.move tol t.firstArtificial = .pivot r j →
      j < t.firstArtificial ∧ ∀ row, u.rows[r]? = some row → t.isArtificial row.basic = false

/-- Redundant rows are kept at every tolerance that is not negative. -/
theorem Tableau.Redundant.keeps {tol : ExtRat} (red : t.Redundant) (htol : 0 ≤ tol)
    (c : List ExtRat) : KeepsRedundant tol c t := by
  -- the objective changes no row
  have red' : (t.withObjective c).Redundant := red
  have spares : ∀ n u, Pivots tol t.firstArtificial (t.withObjective c) n u → t.Spares u :=
    fun n u run =>
      have h := red'.spares_run rfl htol run
      ⟨h.firstArtificial, h.rows⟩
  refine ⟨red, spares, fun n u r j run hmove => ?_⟩
  have hu := spares n u run
  rw [← hu.firstArtificial] at hmove ⊢
  obtain ⟨hj, leaves, -⟩ := (red.of_spares hu).spares rfl htol hmove
  exact ⟨hj, fun row hrow => (hu.isArtificial row.basic).symm.trans (leaves row hrow)⟩

/-- At tolerance zero for pivots, what phase one hands on is redundant where it has an artificial
basic variable. -/
theorem redundant_of_phaseOne (valid : p.validate = .ok ()) (wf : p.matrix.WellFormed)
    (nonempty : p.box.isEmpty = false) (pivotTol : s.pivotTol = 0)
    (h : phaseOne s p.startTableau = .ok (t, spent)) : t.Redundant := by
  obtain ⟨cs, v, -, rfl, w, below⟩ := exists_idle_of_phaseOne valid wf nonempty pivotTol h
  refine below.redundant_embed w.basis ?_
  rw [w.firstArtificial, w.columns]
  exact Tableau.firstArtificial_le_columns_start p.numVars cs

/-- **No artificial variable is left.**  At tolerance zero for pivots, no row of any tableau of
phase two has an artificial basic variable. -/
theorem isArtificial_eq_false_of_pivots (valid : p.validate = .ok ()) (wf : p.matrix.WellFormed)
    (nonempty : p.box.isEmpty = false) (pivotTol : s.pivotTol = 0)
    (h : phaseOne s p.startTableau = .ok (t, spent)) {n : ℕ} {u : Tableau ExtRat}
    (run : Pivots s.pivotTol t.firstArtificial (t.withObjective p.objective) n u) :
    ∀ row ∈ u.rows, u.isArtificial row.basic = false := by
  have red := redundant_of_phaseOne valid wf nonempty pivotTol h
  obtain ⟨cs, v, hcs, rfl, w, below⟩ := exists_idle_of_phaseOne valid wf nonempty pivotTol h
  have expelled : ∀ row ∈ v.embed.rows, v.embed.isArtificial row.basic = false := by
    rw [Tableau.embed, List.forall_mem_map]
    exact below.isArtificial_eq_false hcs w
  have nonneg : (0 : ExtRat) ≤ s.pivotTol := pivotTol.symm ▸ ExtRat.num_le.mpr le_rfl
  exact ((red.keeps nonneg p.objective).spares n u run).isArtificial_eq_false expelled

/-- **Redundant rows stay redundant.**  At tolerance zero for pivots, and whatever the budget and
the other tolerance, the tableau that phase one hands on to phase two has rows with an artificial
basic variable only where it has no other column, and phase two leaves them alone.  In fact there is
no such row at this tolerance (`isArtificial_eq_false_of_pivots`); `Tableau.Redundant.keeps` says
the same of redundant rows at any tolerance that is not negative. -/
theorem keepsRedundant (valid : p.validate = .ok ()) (wf : p.matrix.WellFormed)
    (nonempty : p.box.isEmpty = false) (pivotTol : s.pivotTol = 0)
    (h : phaseOne s p.startTableau = .ok (t, spent)) :
    KeepsRedundant s.pivotTol p.objective t := by
  have nonneg : (0 : ExtRat) ≤ s.pivotTol := pivotTol.symm ▸ ExtRat.num_le.mpr le_rfl
  exact (redundant_of_phaseOne valid wf nonempty pivotTol h).keeps nonneg p.objective

/-- Maximise `2x + y` on the line `x + y = 1`, with one side of it asked for twice. -/
def doubled : LinearProgram ExtRat where
  objective := [num 2, num 1]
  matrix := .ofEntries 2 [[(0, num (-1)), (1, num (-1))], [(0, num (-1)), (1, num (-1))],
    [(0, num 1), (1, num 1)]]
  limits := [num (-1), num (-1), num 1]
  box := .nonnegative 2

/-- The two equal rows need an artificial variable each. -/
theorem keepsRedundant_doubled :
    doubled.validate = .ok () ∧ doubled.matrix.WellFormed ∧ doubled.box.isEmpty = false
      ∧ ∃ t spent, phaseOne ⟨9, 0, 0⟩ doubled.startTableau = .ok (t, spent)
        ∧ KeepsRedundant 0 doubled.objective t := by
  have valid : doubled.validate = .ok () := by decide +kernel
  have wf : doubled.matrix.WellFormed := by decide +kernel
  have nonempty : doubled.box.isEmpty = false := by decide +kernel
  have reached : (phaseOne ⟨9, 0, 0⟩ doubled.startTableau).isOk = true := by decide +kernel
  cases h : phaseOne ⟨9, 0, 0⟩ doubled.startTableau with
  | error result =>
      rw [h] at reached
      cases reached
  | ok found =>
      exact ⟨valid, wf, nonempty, found.1, found.2, rfl,
        keepsRedundant (s := ⟨9, 0, 0⟩) valid wf nonempty rfl h⟩

end IntegerProgramming.LinearProgram
