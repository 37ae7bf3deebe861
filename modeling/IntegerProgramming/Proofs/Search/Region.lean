import Mathlib
import IntegerProgramming.Relaxation
import IntegerProgramming.Rounding
import IntegerProgramming.Branching
import IntegerProgramming.Proofs.Exact.Program

/-!
# Search — regions and exact answers

The region of a subproblem holds the points `x ≥ 0` that satisfy the constraints of its program and
that every bound change admits.  An answer to the subproblem is *exact* when it says the truth about
this region (`Subproblem.SolvedBy`), and an oracle is exact on a program when all its answers to
subproblems of the program are (`Oracle.ExactOn`).

* `BoundChange.down_or_up_admits`: a split loses no integer point.
* `abs_rowValue_snap_sub_le`, `abs_innerProd_snap_sub_le`: rounding a point that is within a
  distance of the integers moves a weighted sum of its coordinates by no more than the distance
  times the total weight.
-/

namespace IntegerProgramming

open ExtRat (num innerProd reach)

/-! ### Regions -/

/-- A change bounds a variable among the first `n` by a number. -/
structure BoundChange.Proper (n : ℕ) (change : BoundChange ExtRat) : Prop where
  var : change.var < n
  value : isFinite change.value = true

/-- Every change admits the point. -/
def Admits (changes : List (BoundChange ExtRat)) (x : List ℚ) : Prop :=
  ∀ change ∈ changes, change.admits? (nums x) = some true

/-- The point satisfies the constraints of the program, and every change admits it. -/
structure Subproblem.Contains (sub : Subproblem ExtRat) (x : List ℚ) : Prop where
  satisfies : sub.program.satisfies (nums x) 0 = true
  admits : Admits sub.changes x

theorem admits_append_singleton {changes : List (BoundChange ExtRat)}
    {change : BoundChange ExtRat} {x : List ℚ} :
    Admits (changes ++ [change]) x ↔ Admits changes x ∧ change.admits? (nums x) = some true := by
  simp [Admits, or_imp, forall_and]

/-- One more change makes the region smaller. -/
theorem Subproblem.Contains.of_append {p : Program ExtRat} {changes : List (BoundChange ExtRat)}
    {change : BoundChange ExtRat} {x : List ℚ}
    (h : Subproblem.Contains ⟨p, changes ++ [change]⟩ x) : Subproblem.Contains ⟨p, changes⟩ x :=
  ⟨h.satisfies, (admits_append_singleton.mp h.admits).1⟩

/-! ### Exact answers -/

/-- The answer is true of the region: a point of it that attains the greatest objective, the
absence of points, or points of any objective.  An oracle that gives up says nothing false. -/
def Subproblem.SolvedBy (sub : Subproblem ExtRat) : Relaxation ExtRat → Prop
  | .optimal value vertex =>
    (∃ x, vertex = nums x ∧ sub.Contains x) ∧ value = sub.program.value vertex
      ∧ ∀ x, sub.Contains x → sub.program.value (nums x) ≤ value
  | .infeasible => ∀ x, ¬ sub.Contains x
  | .unbounded => ∀ m : ℚ, ∃ x, sub.Contains x ∧ num m < sub.program.value (nums x)
  | .iterationLimit | .numericalError => True

/-- Every answer to a subproblem of the program is exact, whatever was asked before. -/
def Oracle.ExactOn {β ε : Type} (oracle : Oracle ExtRat β ε) (p : Program ExtRat) : Prop :=
  ∀ (changes : List (BoundChange ExtRat)) (state : β) (relaxation : Relaxation ExtRat),
    (∀ change ∈ changes, change.Proper p.numVars) →
    (oracle.ask ⟨p, changes⟩ state).answer = .ok relaxation →
    Subproblem.SolvedBy ⟨p, changes⟩ relaxation

/-- The heuristic finds nothing but integer points that satisfy the constraints of the program. -/
def Heuristic.FeasibleOn {η : Type} (heuristic : Heuristic ExtRat η) (p : Program ExtRat) : Prop :=
  ∀ (vertex : List ExtRat) (state : η) (x : List ExtRat),
    (heuristic.find p vertex state).point = .ok (some x) →
    (∃ z : List ℤ, x = nums (lattice z)) ∧ p.satisfies x 0 = true

/-- The selector names no coordinate that the vertex does not have. -/
def Selector.InRange {α : Type} (select : Selector α) : Prop :=
  ∀ (x : List α) (tol : α) (var : ℕ), select x tol = some var → var < x.length

theorem Heuristic.feasibleOn_never (p : Program ExtRat) :
    (Heuristic.never : Heuristic ExtRat Unit).FeasibleOn p :=
  fun _ _ _ h => nomatch h

theorem Heuristic.feasibleOn_always {p : Program ExtRat} {z : List ℤ}
    (h : p.satisfies (nums (lattice z)) 0 = true) :
    (Heuristic.always (nums (lattice z))).FeasibleOn p := by
  intro vertex state x hx
  cases hx
  exact ⟨⟨z, rfl⟩, h⟩

theorem firstFractional_inRange {α : Type} [Scalar α] :
    Selector.InRange (firstFractional : Selector α) := by
  intro x tol var h
  obtain ⟨hvar, -⟩ := List.findIdx?_eq_some_iff_getElem.mp h
  exact hvar

/-! ### Splitting -/

namespace BoundChange

theorem admits?_down_iff {var : ℕ} {q : ℚ} {x : List ℚ} (h : var < x.length) :
    (down var (num q)).admits? (nums x) = some true ↔ x[var] ≤ ⌊q⌋ := by
  simp only [admits?, down, allows, ExtRat.floor_num, nums, List.getElem?_map,
    List.getElem?_eq_getElem h, Option.map_some, Option.some.injEq, decide_eq_true_eq,
    ExtRat.num_le]

theorem admits?_up_iff {var : ℕ} {q : ℚ} {x : List ℚ} (h : var < x.length) :
    (up var (num q)).admits? (nums x) = some true ↔ ⌈q⌉ ≤ x[var] := by
  simp only [admits?, up, allows, ExtRat.ceil_num, nums, List.getElem?_map,
    List.getElem?_eq_getElem h, Option.map_some, Option.some.injEq, decide_eq_true_eq,
    ExtRat.num_le]

/-- No integer lies strictly between the integers next to a number. -/
theorem down_or_up_admits {var : ℕ} (q : ℚ) {z : List ℤ} (h : var < z.length) :
    (down var (num q)).admits? (nums (lattice z)) = some true
      ∨ (up var (num q)).admits? (nums (lattice z)) = some true := by
  have hvar : var < (lattice z).length := by rwa [length_lattice]
  have coord : (lattice z)[var] = (z[var] : ℚ) := by simp [lattice]
  rw [admits?_down_iff hvar, admits?_up_iff hvar, coord, Int.cast_le, Int.cast_le]
  have := Int.ceil_le_floor_add_one q
  omega

theorem proper_down {n var : ℕ} (h : var < n) (q : ℚ) : (down var (num q)).Proper n :=
  ⟨h, ExtRat.isFinite_iff.mpr ⟨⌊q⌋, ExtRat.floor_num q⟩⟩

theorem proper_up {n var : ℕ} (h : var < n) (q : ℚ) : (up var (num q)).Proper n :=
  ⟨h, ExtRat.isFinite_iff.mpr ⟨⌈q⌉, ExtRat.ceil_num q⟩⟩

end BoundChange

/-! ### Rounding to the nearest integers -/

/-- The nearest integers of a rational point. -/
def snap (x : List ℚ) : List ℤ := x.map ExtRat.nearest

@[simp] theorem length_snap (x : List ℚ) : (snap x).length = x.length := by simp [snap]

theorem nearestIntegers_nums (x : List ℚ) : nearestIntegers (nums x) = nums (lattice (snap x)) := by
  simp only [nearestIntegers, nums, lattice, snap, List.map_map]
  rfl

/-- A point that counts as integral has a rational coordinate within reach of an integer each. -/
theorem exists_nums_of_isIntegral {xs : List ExtRat} {tol : ExtRat}
    (h : isIntegral xs tol = true) :
    ∃ x, xs = nums x ∧ ∀ v ∈ x, |v - ExtRat.nearest v| ≤ reach tol := by
  induction xs with
  | nil => exact ⟨[], rfl, by simp⟩
  | cons a rest ih =>
      simp only [isIntegral, List.all_cons, Bool.and_eq_true, decide_eq_true_eq] at h
      obtain ⟨q, rfl, hq⟩ := ExtRat.exists_num_of_fractionality_le h.1
      obtain ⟨x, rfl, hx⟩ := ih h.2
      exact ⟨q :: x, rfl, List.forall_mem_cons.mpr ⟨hq, hx⟩⟩

/-- The total weight of a row. -/
def rowWeight (row : List (ℕ × ℚ)) : ℚ := (row.map fun entry => |entry.2|).sum

/-- The total weight of a list of coefficients. -/
def weight (c : List ℚ) : ℚ := (c.map fun a => |a|).sum

theorem rowWeight_nonneg (row : List (ℕ × ℚ)) : 0 ≤ rowWeight row :=
  List.sum_nonneg fun a ha => by
    obtain ⟨entry, -, rfl⟩ := List.mem_map.mp ha
    exact abs_nonneg entry.2

theorem weight_nonneg (c : List ℚ) : 0 ≤ weight c :=
  List.sum_nonneg fun a ha => by
    obtain ⟨q, -, rfl⟩ := List.mem_map.mp ha
    exact abs_nonneg q

theorem abs_getD_snap_sub_le {x : List ℚ} {t : ℚ} (ht : 0 ≤ t)
    (h : ∀ v ∈ x, |v - ExtRat.nearest v| ≤ t) (j : ℕ) :
    |(lattice (snap x)).getD j 0 - x.getD j 0| ≤ t := by
  rcases lt_or_ge j x.length with hj | hj
  · have hsnap : (lattice (snap x)).getD j 0 = ExtRat.nearest x[j] := by
      simp [lattice, snap, List.getD_eq_getElem?_getD, hj]
    rw [hsnap, List.getD_eq_getElem _ _ hj, abs_sub_comm]
    exact h x[j] (List.getElem_mem hj)
  · rw [List.getD_eq_default _ _ (by simpa using hj), List.getD_eq_default _ _ hj]
    simpa using ht

theorem abs_rowValue_snap_sub_le {x : List ℚ} {t : ℚ} (ht : 0 ≤ t)
    (h : ∀ v ∈ x, |v - ExtRat.nearest v| ≤ t) (row : List (ℕ × ℚ)) :
    |rowValue (lattice (snap x)) row - rowValue x row| ≤ t * rowWeight row := by
  induction row with
  | nil => simp [rowValue, rowWeight]
  | cons entry rest ih =>
      have step : |entry.2 * ((lattice (snap x)).getD entry.1 0 - x.getD entry.1 0)|
          ≤ t * |entry.2| := by
        rw [abs_mul, mul_comm t]
        exact mul_le_mul_of_nonneg_left (abs_getD_snap_sub_le ht h entry.1) (abs_nonneg _)
      simp only [rowValue, rowWeight, List.map_cons, List.sum_cons] at ih ⊢
      rw [abs_le] at step ih ⊢
      constructor <;> linarith

theorem abs_innerProd_snap_sub_le {x : List ℚ} {t : ℚ} (ht : 0 ≤ t)
    (h : ∀ v ∈ x, |v - ExtRat.nearest v| ≤ t) (c : List ℚ) :
    |innerProd c (lattice (snap x)) - innerProd c x| ≤ t * weight c := by
  induction x generalizing c with
  | nil => simpa [innerProd, lattice, snap] using mul_nonneg ht (weight_nonneg c)
  | cons v rest ih =>
      obtain ⟨hv, hrest⟩ := List.forall_mem_cons.mp h
      cases c with
      | nil => simp [innerProd, weight]
      | cons a c =>
          have step : |a * ((ExtRat.nearest v : ℚ) - v)| ≤ t * |a| := by
            rw [abs_mul, mul_comm t, abs_sub_comm]
            exact mul_le_mul_of_nonneg_left hv (abs_nonneg _)
          have tail := ih hrest c
          simp only [innerProd, lattice, snap, weight, List.map_cons, List.zipWith_cons_cons,
            List.sum_cons] at tail ⊢
          rw [abs_le] at step tail ⊢
          constructor <;> linarith

end IntegerProgramming
