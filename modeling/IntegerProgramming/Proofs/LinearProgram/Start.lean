import Mathlib
import IntegerProgramming.Proofs.LinearProgram.Artificials

/-!
# Simplex — the tableau at the start

The tableau of some constraints has the slack variables and the artificial ones as a basis
(`Tableau.basis_start`), and its basic solution is not negative.  With the artificial variables at
zero, its solutions are the points together with their slacks (`Tableau.solves_start_iff`),
so that a solution is determined by its point (`Tableau.eq_of_solves_start`).

* `Tableau.getElem?_startRows`: the row of a constraint knows how many artificial variables were
  taken before it.
* `Tableau.lhs_startRow`: the left-hand side of a row is that of its constraint with the slack,
  negated where the limit is negative, and with the artificial variable in that case.
-/

namespace IntegerProgramming.LinearProgram

/-! ### Constraints at a valuation -/

/-- `Σ coefficient · v_column` over the terms. -/
def Constraint.lhs (c : Constraint ℚ) (v : ℕ → ℚ) : ℚ :=
  (c.terms.map fun term => term.2 * v term.1).sum

/-- Each of the first `n` variables occurs at most once, and no other does. -/
structure Constraint.Proper (n : ℕ) (c : Constraint ℚ) : Prop where
  distinct : (c.terms.map Prod.fst).Nodup
  inRange : ∀ term ∈ c.terms, term.1 < n

theorem Constraint.lhs_congr {n : ℕ} {c : Constraint ℚ} (hc : c.Proper n) {v w : ℕ → ℚ}
    (h : ∀ j < n, v j = w j) : c.lhs v = c.lhs w :=
  congrArg List.sum (List.map_congr_left fun term hterm => by rw [h _ (hc.inRange term hterm)])

namespace Tableau

variable {n m k i a : ℕ} {c : Constraint ℚ} {cs : List (Constraint ℚ)} {v : ℕ → ℚ}

/-! ### Rows of the start -/

/-- The right-hand side of the constraint is negative. -/
abbrev needsArtificial {α : Type} [Arith α] (c : Constraint α) : Bool := decide (c.limit < 0)

/-- How many of the first `i` constraints have an artificial variable. -/
def artificialsBefore {α : Type} [Arith α] (cs : List (Constraint α)) (i : ℕ) : ℕ :=
  (cs.take i).countP needsArtificial

theorem getElem?_startRows {α : Type} [Arith α] (n m k i a : ℕ) (cs : List (Constraint α)) (l : ℕ) :
    (startRows n m k i a cs)[l]? =
      cs[l]?.map (startRow n m k (i + l) (a + artificialsBefore cs l)) := by
  induction cs generalizing i a l with
  | nil => rfl
  | cons c rest ih =>
      cases l with
      | zero => rfl
      | succ l =>
          rw [startRows, List.getElem?_cons_succ, List.getElem?_cons_succ, ih]
          simp only [artificialsBefore, List.take_succ_cons, List.countP_cons]
          by_cases hc : c.limit < 0 <;> simp [hc, Nat.add_comm, Nat.add_left_comm, Nat.add_assoc]

theorem artificialsBefore_lt {i l : ℕ} (hi : cs[i]? = some c) (hc : c.limit < 0) (hil : i < l) :
    artificialsBefore cs i < artificialsBefore cs l := by
  have hnext : artificialsBefore cs (i + 1) = artificialsBefore cs i + 1 := by
    rw [artificialsBefore, List.take_add_one, hi, List.countP_append]
    simp [artificialsBefore, hc]
  have hle : artificialsBefore cs (i + 1) ≤ artificialsBefore cs l :=
    (List.take_prefix_take_left (by omega)).sublist.countP_le
  omega

theorem artificialsBefore_lt_countP (hi : cs[i]? = some c) (hc : c.limit < 0) :
    artificialsBefore cs i < cs.countP needsArtificial := by
  obtain ⟨hlt, -⟩ := List.getElem?_eq_some_iff.mp hi
  have := artificialsBefore_lt hi hc hlt
  rwa [artificialsBefore.eq_1 cs cs.length, List.take_length] at this

/-- The sign by which a constraint is multiplied. -/
def signOf (c : Constraint ℚ) : ℚ := if c.limit < 0 then -1 else 1

/-- The coefficients of the structural variables. -/
def structuralPart (n : ℕ) (c : Constraint ℚ) : List ℚ :=
  c.terms.foldl (fun row term => row.set term.1 (signOf c * term.2)) (List.replicate n 0)

/-- The coefficients of the artificial variables. -/
def artificialPart (k a : ℕ) (c : Constraint ℚ) : List ℚ :=
  if c.limit < 0 then unitVector k a 1 else List.replicate k 0

theorem startRow_eq (n m k i a : ℕ) (c : Constraint ℚ) :
    startRow n m k i a c = ⟨if c.limit < 0 then n + m + a else n + i,
      ⟨structuralPart n c ++ unitVector m i (signOf c) ++ artificialPart k a c,
        signOf c * c.limit⟩⟩ := by
  by_cases hc : c.limit < 0
  · simp only [startRow, structuralPart, artificialPart, signOf, if_pos hc]
  · simp only [startRow, structuralPart, artificialPart, signOf, if_neg hc]

theorem length_unitVector {α : Type} [Arith α] (n i : ℕ) (w : α) :
    (unitVector n i w).length = n := by
  simp [unitVector]

theorem getD_unitVector {n i : ℕ} (hi : i < n) (w : ℚ) (j : ℕ) :
    (unitVector n i w).getD j 0 = if j = i then w else 0 := by
  rw [unitVector, List.getD_eq_getElem?_getD, List.getElem?_set, List.length_replicate]
  by_cases hji : i = j
  · rw [if_pos hji, if_pos hi, if_pos hji.symm]
    rfl
  · rw [if_neg hji, if_neg (Ne.symm hji), List.getElem?_replicate]
    split <;> rfl

theorem length_artificialPart (k a : ℕ) (c : Constraint ℚ) : (artificialPart k a c).length = k := by
  rw [artificialPart]
  split
  · exact length_unitVector k a 1
  · exact List.length_replicate

theorem getD_artificialPart (ha : c.limit < 0 → a < k) (j : ℕ) :
    (artificialPart k a c).getD j 0 = if c.limit < 0 ∧ j = a then 1 else 0 := by
  rw [artificialPart]
  by_cases hc : c.limit < 0
  · rw [if_pos hc, getD_unitVector (ha hc)]
    simp [hc]
  · rw [if_neg hc, List.getD_eq_getElem?_getD, List.getElem?_replicate]
    simp only [hc, false_and, if_false]
    split <;> rfl

/-! ### Writing terms into a row -/

/-- Writing a value into a column that is zero adds it to a weighted sum. -/
theorem sum_getD_set {x : List ℚ} {j : ℕ} (hj : j < n) (hx : x.length = n) (hzero : x.getD j 0 = 0)
    (w : ℚ) : (∑ l ∈ Finset.range n, (x.set j w).getD l 0 * v l)
      = (∑ l ∈ Finset.range n, x.getD l 0 * v l) + w * v j := by
  have terms : ∀ l ∈ Finset.range n, (x.set j w).getD l 0 * v l
      = x.getD l 0 * v l + if l = j then w * v j else 0 := by
    intro l _
    rw [List.getD_eq_getElem?_getD, List.getElem?_set]
    by_cases hlj : j = l
    · rw [if_pos hlj, if_pos (by omega), if_pos hlj.symm, Option.getD_some, ← hlj, hzero]
      ring
    · rw [if_neg hlj, if_neg (Ne.symm hlj), List.getD_eq_getElem?_getD, add_zero]
  rw [Finset.sum_congr rfl terms, Finset.sum_add_distrib, Finset.sum_ite_eq',
    if_pos (Finset.mem_range.mpr hj)]

/-- Writing terms of different columns into a row that is zero there. -/
theorem sum_getD_foldl_set (f : ℚ → ℚ) {terms : List (ℕ × ℚ)} {x : List ℚ}
    (distinct : (terms.map Prod.fst).Nodup) (inRange : ∀ term ∈ terms, term.1 < n)
    (hx : x.length = n) (zero : ∀ term ∈ terms, x.getD term.1 0 = 0) :
    (∑ l ∈ Finset.range n,
        (terms.foldl (fun row term => row.set term.1 (f term.2)) x).getD l 0 * v l)
      = (∑ l ∈ Finset.range n, x.getD l 0 * v l)
        + (terms.map fun term => f term.2 * v term.1).sum := by
  induction terms generalizing x with
  | nil => simp
  | cons term rest ih =>
      obtain ⟨hterm, hrest⟩ := List.forall_mem_cons.mp inRange
      obtain ⟨hzero, hzeros⟩ := List.forall_mem_cons.mp zero
      rw [List.map_cons, List.nodup_cons] at distinct
      have stays : ∀ other ∈ rest, (x.set term.1 (f term.2)).getD other.1 0 = 0 := by
        intro other hother
        have hne : term.1 ≠ other.1 := fun h =>
          distinct.1 (h ▸ List.mem_map_of_mem hother)
        rw [List.getD_eq_getElem?_getD, List.getElem?_set_ne hne, ← List.getD_eq_getElem?_getD]
        exact hzeros other hother
      rw [List.foldl_cons, ih distinct.2 hrest (by rw [List.length_set, hx]) stays,
        sum_getD_set hterm hx hzero, List.map_cons, List.sum_cons]
      ring

theorem length_foldl_set {α : Type} (f : α → α) (terms : List (ℕ × α)) (x : List α) :
    (terms.foldl (fun row term => row.set term.1 (f term.2)) x).length = x.length := by
  induction terms generalizing x with
  | nil => rfl
  | cons term rest ih => rw [List.foldl_cons, ih, List.length_set]

theorem length_structuralPart (n : ℕ) (c : Constraint ℚ) : (structuralPart n c).length = n :=
  (length_foldl_set (signOf c * ·) c.terms _).trans List.length_replicate

theorem sum_structuralPart (hc : c.Proper n) :
    (∑ l ∈ Finset.range n, (structuralPart n c).getD l 0 * v l) = signOf c * c.lhs v := by
  have zero (l : ℕ) : (List.replicate n (0 : ℚ)).getD l 0 = 0 := by
    rw [List.getD_eq_getElem?_getD, List.getElem?_replicate]
    split <;> rfl
  rw [structuralPart, sum_getD_foldl_set (fun q => signOf c * q) hc.distinct hc.inRange
    List.length_replicate fun term _ => zero term.1]
  simp only [zero, zero_mul, Finset.sum_const_zero, zero_add, Constraint.lhs,
    ← List.sum_map_mul_left]
  exact congrArg List.sum (List.map_congr_left fun term _ => by ring)

/-! ### The three blocks of columns -/

theorem coeff_append_left {A B C : List ℚ} {z : ℚ} {j : ℕ} (h : j < A.length) :
    (⟨A ++ B ++ C, z⟩ : Equation ℚ).coeff j = A.getD j 0 := by
  rw [Equation.coeff, List.append_assoc]
  exact List.getD_append _ _ _ _ h

theorem coeff_append_middle {A B C : List ℚ} {z : ℚ} {j : ℕ} (h : j < B.length) :
    (⟨A ++ B ++ C, z⟩ : Equation ℚ).coeff (A.length + j) = B.getD j 0 := by
  rw [Equation.coeff, List.append_assoc]
  refine (List.getD_append_right _ _ _ _ (by omega)).trans ?_
  rw [Nat.add_sub_cancel_left]
  exact List.getD_append _ _ _ _ h

theorem coeff_append_right {A B C : List ℚ} {z : ℚ} {j : ℕ} :
    (⟨A ++ B ++ C, z⟩ : Equation ℚ).coeff (A.length + B.length + j) = C.getD j 0 := by
  rw [Equation.coeff, ← List.length_append]
  refine (List.getD_append_right _ _ _ _ (by omega)).trans ?_
  rw [Nat.add_sub_cancel_left]

/-- The equation of a constraint with its slack and its artificial variable. -/
theorem lhs_startRow (hc : c.Proper n) (hi : i < m) (ha : c.limit < 0 → a < k) :
    (startRow n m k i a c).equation.lhs (n + m + k) v
      = signOf c * (c.lhs v + v (n + i)) + if c.limit < 0 then v (n + m + a) else 0 := by
  -- the three groups of columns: structural variables, slacks and artificial variables
  have hslack : (unitVector m i (signOf c)).length = m := length_unitVector ..
  have first : ∀ l ∈ Finset.range n, (startRow n m k i a c).equation.coeff l * v l
      = (structuralPart n c).getD l 0 * v l := by
    intro l hl
    rw [Finset.mem_range] at hl
    rw [startRow_eq, coeff_append_left (by rwa [length_structuralPart])]
  have second : ∀ l ∈ Finset.range m, (startRow n m k i a c).equation.coeff (n + l) * v (n + l)
      = if l = i then signOf c * v (n + i) else 0 := by
    intro l hl
    rw [Finset.mem_range] at hl
    have := coeff_append_middle (A := structuralPart n c) (C := artificialPart k a c)
      (z := signOf c * c.limit) (j := l) (hslack.symm ▸ hl)
    rw [length_structuralPart] at this
    rw [startRow_eq, this, getD_unitVector hi]
    split
    · rename_i h; rw [h]
    · exact zero_mul _
  have third : ∀ l ∈ Finset.range k,
      (startRow n m k i a c).equation.coeff (n + m + l) * v (n + m + l)
        = if l = a then (if c.limit < 0 then v (n + m + a) else 0) else 0 := by
    intro l _
    have := coeff_append_right (A := structuralPart n c) (B := unitVector m i (signOf c))
      (C := artificialPart k a c) (z := signOf c * c.limit) (j := l)
    rw [length_structuralPart, hslack] at this
    rw [startRow_eq, this, getD_artificialPart ha]
    by_cases hla : l = a
    · by_cases hneg : c.limit < 0 <;> simp [hla, hneg]
    · simp [hla]
  rw [Equation.lhs, Finset.sum_range_add, Finset.sum_range_add, Finset.sum_congr rfl first,
    Finset.sum_congr rfl second, Finset.sum_congr rfl third, sum_structuralPart hc,
    Finset.sum_ite_eq', Finset.sum_ite_eq', if_pos (Finset.mem_range.mpr hi)]
  have hlast : (if a ∈ Finset.range k then (if c.limit < 0 then v (n + m + a) else 0) else 0)
      = if c.limit < 0 then v (n + m + a) else 0 := by
    by_cases hneg : c.limit < 0
    · rw [if_pos (Finset.mem_range.mpr (ha hneg))]
    · simp [hneg]
  rw [hlast]
  ring

/-! ### The tableau at the start -/

theorem signOf_mul_limit_nonneg (c : Constraint ℚ) : 0 ≤ signOf c * c.limit := by
  rw [signOf]
  split
  · rename_i h
    linarith
  · rename_i h
    rw [one_mul]
    exact not_lt.mp h

theorem signOf_ne_zero (c : Constraint ℚ) : signOf c ≠ 0 := by
  rw [signOf]
  split <;> norm_num

/-- The row of a constraint. -/
theorem getElem?_rows_start (n : ℕ) (cs : List (Constraint ℚ)) (i : ℕ) :
    (start n cs).rows[i]? = cs[i]?.map
      (startRow n cs.length (cs.countP needsArtificial) i (artificialsBefore cs i)) := by
  have := getElem?_startRows n cs.length (cs.countP needsArtificial) 0 0 cs i
  rwa [Nat.zero_add, Nat.zero_add] at this

/-- The row of a constraint is one of the start. -/
theorem startRow_mem_start (hi : cs[i]? = some c) :
    startRow n cs.length (cs.countP needsArtificial) i (artificialsBefore cs i) c
      ∈ (start n cs).rows := by
  refine List.mem_of_getElem? (i := i) ?_
  rw [getElem?_rows_start, hi, Option.map_some]

/-- A row of the start comes from a constraint. -/
theorem mem_rows_start {row : Row ℚ} (h : row ∈ (start n cs).rows) :
    ∃ i c, cs[i]? = some c ∧ i < cs.length
      ∧ (c.limit < 0 → artificialsBefore cs i < cs.countP needsArtificial)
      ∧ row = startRow n cs.length (cs.countP needsArtificial) i (artificialsBefore cs i) c := by
  obtain ⟨i, hi⟩ := List.mem_iff_getElem?.mp h
  rw [getElem?_rows_start, Option.map_eq_some_iff] at hi
  obtain ⟨c, hc, rfl⟩ := hi
  obtain ⟨hlt, -⟩ := List.getElem?_eq_some_iff.mp hc
  exact ⟨i, c, hc, hlt, artificialsBefore_lt_countP hc, rfl⟩

theorem columns_start (n : ℕ) (cs : List (Constraint ℚ)) :
    (start n cs).columns = n + cs.length + cs.countP needsArtificial := rfl

/-- Two rows of the start at the basic variable of the second. -/
theorem coeff_basic_start {i l : ℕ} {c d : Constraint ℚ} (hi : cs[i]? = some c)
    (hl : cs[l]? = some d) :
    (startRow n cs.length (cs.countP needsArtificial) i (artificialsBefore cs i) c).equation.coeff
        (startRow n cs.length (cs.countP needsArtificial) l (artificialsBefore cs l) d).basic
      = if i = l then 1 else 0 := by
  obtain ⟨hil, -⟩ := List.getElem?_eq_some_iff.mp hi
  obtain ⟨hll, -⟩ := List.getElem?_eq_some_iff.mp hl
  have hslack : (unitVector cs.length i (signOf c)).length = cs.length := length_unitVector ..
  rw [startRow_eq, startRow_eq]
  by_cases hd : d.limit < 0
  · -- an artificial variable: it tells the rows with a negative limit apart
    have := coeff_append_right (A := structuralPart n c) (B := unitVector cs.length i (signOf c))
      (C := artificialPart (cs.countP needsArtificial) (artificialsBefore cs i) c)
      (z := signOf c * c.limit) (j := artificialsBefore cs l)
    rw [length_structuralPart, hslack] at this
    simp only [if_pos hd]
    rw [this, getD_artificialPart (artificialsBefore_lt_countP hi)]
    refine if_congr ⟨fun ⟨hc, heq⟩ => ?_, ?_⟩ rfl rfl
    · rcases lt_trichotomy i l with hlt | heq' | hgt
      · have := artificialsBefore_lt hi hc hlt
        omega
      · exact heq'
      · have := artificialsBefore_lt hl hd hgt
        omega
    · rintro rfl
      exact ⟨Option.some.inj (hl.symm.trans hi) ▸ hd, rfl⟩
  · -- a slack variable: it belongs to one row
    have := coeff_append_middle (A := structuralPart n c)
      (C := artificialPart (cs.countP needsArtificial) (artificialsBefore cs i) c)
      (z := signOf c * c.limit) (j := l) (hslack.symm ▸ hll)
    rw [length_structuralPart] at this
    simp only [if_neg hd]
    rw [this, getD_unitVector hil]
    by_cases heq : l = i
    · subst heq
      cases Option.some.inj (hi.symm.trans hl)
      rw [if_pos rfl, if_pos rfl, signOf, if_neg hd]
    · rw [if_neg heq, if_neg (Ne.symm heq)]

/-- **The start has a basis.** -/
theorem basis_start (n : ℕ) (cs : List (Constraint ℚ)) : (start n cs).Basis where
  length row hrow := by
    obtain ⟨i, c, -, -, -, rfl⟩ := mem_rows_start hrow
    rw [startRow_eq, List.length_append, List.length_append, length_structuralPart,
      length_unitVector, length_artificialPart, columns_start]
  objective := List.length_replicate
  basic row hrow := by
    obtain ⟨i, c, -, hlt, ha, rfl⟩ := mem_rows_start hrow
    rw [startRow_eq, columns_start]
    by_cases hc : c.limit < 0
    · have := ha hc
      simp only [if_pos hc]
      omega
    · simp only [if_neg hc]
      omega
  unit i l row other hi hl := by
    rw [getElem?_rows_start, Option.map_eq_some_iff] at hi hl
    obtain ⟨c, hc, rfl⟩ := hi
    obtain ⟨d, hd, rfl⟩ := hl
    exact coeff_basic_start hc hd

theorem nonnegative_start (n : ℕ) (cs : List (Constraint ℚ)) : (start n cs).Nonnegative := by
  intro row hrow
  obtain ⟨i, c, -, -, -, rfl⟩ := mem_rows_start hrow
  rw [startRow_eq]
  exact signOf_mul_limit_nonneg c

/-- Nothing was rewritten yet. -/
theorem rewrites_start (n : ℕ) (cs : List (Constraint ℚ)) :
    Rewrites (start n cs) (start n cs) :=
  ⟨(basis_start n cs).restates, nonnegative_start n cs⟩

/-! ### Points and solutions -/

/-- The equation of a constraint where the artificial variables are zero. -/
theorem lhs_row_start (hcs : ∀ c ∈ cs, c.Proper n) (zero : ∀ j, n + cs.length ≤ j → v j = 0)
    (hi : cs[i]? = some c) :
    (startRow n cs.length (cs.countP needsArtificial) i (artificialsBefore cs i) c).equation.lhs
      (start n cs).columns v = signOf c * (c.lhs v + v (n + i)) := by
  obtain ⟨hlt, -⟩ := List.getElem?_eq_some_iff.mp hi
  have hartificial :
      (if c.limit < 0 then v (n + cs.length + artificialsBefore cs i) else 0) = 0 := by
    rw [zero _ (by omega), ite_self]
  rw [columns_start, lhs_startRow (hcs c (List.mem_of_getElem? hi)) hlt
    (artificialsBefore_lt_countP hi), hartificial, add_zero]

/-- **Solutions are points with their slacks**, where the artificial variables are zero. -/
theorem solves_start_iff (hcs : ∀ c ∈ cs, c.Proper n) (zero : ∀ j, n + cs.length ≤ j → v j = 0) :
    (start n cs).Solves v ↔ ∀ i c, cs[i]? = some c → c.lhs v + v (n + i) = c.limit := by
  have equation {i : ℕ} {c : Constraint ℚ} (hi : cs[i]? = some c) :
      (startRow n cs.length (cs.countP needsArtificial) i (artificialsBefore cs i) c).equation.Holds
        (start n cs).columns v ↔ c.lhs v + v (n + i) = c.limit := by
    rw [Equation.Holds, lhs_row_start hcs zero hi, startRow_eq]
    exact mul_right_inj' (signOf_ne_zero c)
  constructor
  · intro h i c hi
    exact (equation hi).mp (h _ (startRow_mem_start hi))
  · intro h row hrow
    obtain ⟨i, c, hi, -, -, rfl⟩ := mem_rows_start hrow
    exact (equation hi).mpr (h i c hi)

/-- Without artificial variables, a solution is determined by its point. -/
theorem eq_of_solves_start (hcs : ∀ c ∈ cs, c.Proper n) {w : ℕ → ℚ}
    (hv : (start n cs).Solves v) (hw : (start n cs).Solves w)
    (zero : ∀ j, n + cs.length ≤ j → v j = 0) (zero' : ∀ j, n + cs.length ≤ j → w j = 0)
    (h : ∀ j < n, v j = w j) (j : ℕ) : v j = w j := by
  rcases lt_or_ge j n with hj | hj
  · exact h j hj
  · rcases lt_or_ge j (n + cs.length) with hj' | hj'
    · have hi : cs[j - n]? = some cs[j - n] := List.getElem?_eq_getElem (by omega)
      have first := (solves_start_iff hcs zero).mp hv (j - n) _ hi
      have second := (solves_start_iff hcs zero').mp hw (j - n) _ hi
      rw [Constraint.lhs_congr (hcs _ (List.getElem_mem _)) h] at first
      rw [show n + (j - n) = j by omega] at first second
      linarith
    · rw [zero j hj', zero' j hj']

/-- A point with its slacks, and zero for the artificial variables. -/
def withSlacks (n : ℕ) (cs : List (Constraint ℚ)) (x : ℕ → ℚ) (j : ℕ) : ℚ :=
  if j < n then x j
  else
    match cs[j - n]? with
    | some c => c.limit - c.lhs x
    | none => 0

theorem withSlacks_of_lt {x : ℕ → ℚ} {j : ℕ} (h : j < n) : withSlacks n cs x j = x j := if_pos h

theorem withSlacks_slack {x : ℕ → ℚ} {i : ℕ} (hi : cs[i]? = some c) :
    withSlacks n cs x (n + i) = c.limit - c.lhs x := by
  rw [withSlacks, if_neg (by omega), Nat.add_sub_cancel_left, hi]

theorem withSlacks_artificial {x : ℕ → ℚ} {j : ℕ} (h : n + cs.length ≤ j) :
    withSlacks n cs x j = 0 := by
  rw [withSlacks, if_neg (by omega), List.getElem?_eq_none (by omega)]

/-- A point that satisfies the constraints makes a solution that is not negative. -/
theorem solves_withSlacks (hcs : ∀ c ∈ cs, c.Proper n) (x : ℕ → ℚ) :
    (start n cs).Solves (withSlacks n cs x) := by
  rw [solves_start_iff hcs fun j hj => withSlacks_artificial hj]
  intro i c hi
  have hlhs : c.lhs (withSlacks n cs x) = c.lhs x :=
    Constraint.lhs_congr (hcs c (List.mem_of_getElem? hi)) fun j hj => withSlacks_of_lt hj
  rw [hlhs, withSlacks_slack hi, add_sub_cancel]

theorem withSlacks_nonneg {x : ℕ → ℚ} (hx : ∀ j < n, 0 ≤ x j)
    (hcs : ∀ c ∈ cs, c.lhs x ≤ c.limit) (j : ℕ) : 0 ≤ withSlacks n cs x j := by
  rw [withSlacks]
  split
  · rename_i hj
    exact hx j hj
  · split
    · rename_i c hc
      exact sub_nonneg.mpr (hcs c (List.mem_of_getElem? hc))
    · exact le_rfl

/-- A solution that is not negative, without artificial variables, satisfies the constraints. -/
theorem lhs_le_of_solves (hcs : ∀ c ∈ cs, c.Proper n) (zero : ∀ j, n + cs.length ≤ j → v j = 0)
    (nonneg : ∀ j, 0 ≤ v j) (h : (start n cs).Solves v) : ∀ c ∈ cs, c.lhs v ≤ c.limit := by
  intro c hc
  obtain ⟨i, hi⟩ := List.mem_iff_getElem?.mp hc
  have := (solves_start_iff hcs zero).mp h i c hi
  have := nonneg (n + i)
  linarith

end Tableau

end IntegerProgramming.LinearProgram
