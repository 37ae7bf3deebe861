import Mathlib
import IntegerProgramming.Proofs.Exact.Program
import IntegerProgramming.Proofs.LinearProgram.Artificials

/-!
# Simplex — tableaus with rational entries

A tableau over the rationals, read as one over exact numbers (`Tableau.embed`).  A pivot divides by
its coefficient only, so on a coefficient other than zero it comes out as over the rationals
(`Tableau.pivot_embed`), and everything else does without a division.  The ratio test agrees at
every tolerance that is not negative (`Tableau.leaving?_embed`); at tolerance zero so do the other
choices of the method, and with them a whole phase (`Tableau.optimize_embed`).
-/

namespace IntegerProgramming.LinearProgram

open ExtRat (num)

/-! ### Equations -/

namespace Equation

/-- An equation over the rationals, as one over exact numbers. -/
def embed (e : Equation ℚ) : Equation ExtRat := ⟨nums e.coeffs, num e.rhs⟩

theorem coeff_embed (e : Equation ℚ) (j : ℕ) : e.embed.coeff j = num (e.coeff j) :=
  getD_nums e.coeffs j

theorem divide_embed (e : Equation ℚ) {p : ℚ} (hp : p ≠ 0) :
    e.embed.divide (num p) = (e.divide p).embed := by
  simp only [divide, embed, nums, List.map_map, mk.injEq]
  exact ⟨List.map_congr_left fun a _ => ExtRat.num_div hp, ExtRat.num_div hp⟩

theorem combine_embed {f : ExtRat → ExtRat → ExtRat} {g : ℚ → ℚ → ℚ}
    (h : ∀ a b, f (num a) (num b) = num (g a b)) (e e' : Equation ℚ) :
    e.embed.combine f e'.embed = (e.combine g e').embed := by
  simp only [combine, embed, nums, List.zipWith_map, List.map_zipWith, h]

theorem minus_embed (e e' : Equation ℚ) : e.embed.minus e'.embed = (e.minus e').embed :=
  combine_embed ExtRat.num_sub e e'

theorem plusMultiple_embed (e : Equation ℚ) (k : ℚ) (e' : Equation ℚ) :
    e.embed.plusMultiple (num k) e'.embed = (e.plusMultiple k e').embed :=
  combine_embed (fun a b => by rw [ExtRat.num_mul, ExtRat.num_add]) e e'

theorem minusMultiple_embed (e : Equation ℚ) (k : ℚ) (e' : Equation ℚ) :
    e.embed.minusMultiple (num k) e'.embed = (e.minusMultiple k e').embed :=
  combine_embed (fun a b => by rw [ExtRat.num_mul, ExtRat.num_sub]) e e'

theorem clear_embed (e : Equation ℚ) (j : ℕ) (unit : Equation ℚ) :
    e.embed.clear j unit.embed = (e.clear j unit).embed := by
  rw [clear, clear, coeff_embed, ExtRat.num_beq_zero, minusMultiple_embed]
  exact (apply_ite embed _ _ _).symm

end Equation

/-! ### Tableaus -/

/-- A row over the rationals, as one over exact numbers. -/
def Row.embed (row : Row ℚ) : Row ExtRat := ⟨row.basic, row.equation.embed⟩

/-- A constraint over the rationals, as one over exact numbers. -/
def Constraint.embed (c : Constraint ℚ) : Constraint ExtRat :=
  ⟨SparseMatrix.mapRow num c.terms, num c.limit⟩

namespace Tableau

/-- A tableau over the rationals, as one over exact numbers. -/
def embed (t : Tableau ℚ) : Tableau ExtRat :=
  ⟨t.structural, t.firstArtificial, t.columns, t.rows.map Row.embed, t.objective.embed⟩

end Tableau

/-- A phase over the rationals, as one over exact numbers. -/
def Phase.embed (phase : Phase ℚ) : Phase ExtRat :=
  ⟨phase.ending, phase.pivots, phase.tableau.embed⟩

namespace Tableau

variable {t : Tableau ℚ} {r j limit : ℕ} {row : Row ℚ}

theorem getElem?_rows_embed (t : Tableau ℚ) (r : ℕ) :
    t.embed.rows[r]? = t.rows[r]?.map Row.embed :=
  List.getElem?_map

/-- **A pivot comes out as over the rationals**, unless it divides by zero. -/
theorem pivot_embed (h : ∀ row, t.rows[r]? = some row → row.equation.coeff j ≠ 0) :
    t.embed.pivot r j = (t.pivot r j).embed := by
  rw [pivot, pivot, getElem?_rows_embed]
  cases hrow : t.rows[r]? with
  | none => rfl
  | some row =>
      have hunit : row.embed.equation.divide (row.embed.equation.coeff j)
          = (unitRow row j).embed := by
        rw [Row.embed, Equation.coeff_embed, Equation.divide_embed _ (h row hrow), unitRow]
      simp only [Option.map_some, hunit]
      simp only [embed, Equation.clear_embed, mk.injEq, true_and]
      refine ⟨List.ext_getElem? fun i => ?_, rfl⟩
      rw [List.getElem?_mapIdx, List.getElem?_map, List.getElem?_map, List.getElem?_mapIdx]
      cases t.rows[i]? with
      | none => rfl
      | some other =>
          simp only [Option.map_some, Option.some.injEq]
          split
          · rfl
          · simp only [Row.embed, Equation.clear_embed]
            rfl

theorem foldl_embed {γ : Type} {f : Equation ExtRat → γ → Equation ExtRat}
    {g : Equation ℚ → Row ℚ → Equation ℚ} {emb : Row ℚ → γ}
    (h : ∀ e row, f e.embed (emb row) = (g e row).embed) (rows : List (Row ℚ)) (e : Equation ℚ) :
    (rows.map emb).foldl f e.embed = (rows.foldl g e).embed := by
  induction rows generalizing e with
  | nil => rfl
  | cons row rest ih => rw [List.map_cons, List.foldl_cons, List.foldl_cons, h, ih]

theorem withArtificialObjective_embed (t : Tableau ℚ) :
    t.embed.withArtificialObjective = t.withArtificialObjective.embed := by
  have plain : (⟨List.replicate t.firstArtificial 0
      ++ List.replicate (t.columns - t.firstArtificial) 1, 0⟩ : Equation ExtRat)
        = Equation.embed ⟨List.replicate t.firstArtificial 0
          ++ List.replicate (t.columns - t.firstArtificial) 1, 0⟩ := by
    simp only [Equation.embed, nums, List.map_append, List.map_replicate]
    rfl
  have step (e : Equation ℚ) (row : Row ℚ) :
      t.embed.dropArtificial e.embed row.embed = (t.dropArtificial e row).embed := by
    simp only [dropArtificial, Row.embed, isArtificial, Equation.minus_embed]
    exact (apply_ite Equation.embed _ _ _).symm
  simp only [withArtificialObjective, embed, plain, mk.injEq, true_and]
  exact foldl_embed step t.rows _

theorem plainObjective_embed (columns : ℕ) (c : List ℚ) :
    plainObjective columns (nums c) = (plainObjective columns c).embed := by
  simp only [plainObjective, Equation.embed, nums, List.map_append, List.map_replicate,
    List.map_map, List.length_map]
  rfl

theorem addCost_embed (n : ℕ) (c : List ℚ) (e : Equation ℚ) (row : Row ℚ) :
    addCost n (nums c) e.embed row.embed = (addCost n c e row).embed := by
  have cost : basicCost n (nums c) row.embed = num (basicCost n c row) := by
    rw [basicCost, getD_nums]
    exact (apply_ite num _ _ _).symm
  have equation : row.embed.equation = row.equation.embed := rfl
  simp only [addCost, cost, equation, ExtRat.num_beq_zero, Equation.plusMultiple_embed]
  exact (apply_ite Equation.embed _ _ _).symm

theorem withObjective_embed (t : Tableau ℚ) (c : List ℚ) :
    t.embed.withObjective (nums c) = (t.withObjective c).embed := by
  rw [withObjective_eq, withObjective_eq, plainObjective_embed]
  exact congrArg (Tableau.mk t.structural t.firstArtificial t.columns (t.rows.map Row.embed))
    (foldl_embed (addCost_embed t.structural c) t.rows _)

theorem vertex_embed (t : Tableau ℚ) : t.embed.vertex = nums t.vertex := by
  have step (rows : List (Row ℚ)) (x : List ℚ) :
      (rows.map Row.embed).foldl (fun x row => if row.basic < t.structural
          then x.set row.basic (greater row.equation.rhs 0) else x) (nums x)
        = nums (rows.foldl (writeBasic t.structural) x) := by
    induction rows generalizing x with
    | nil => rfl
    | cons row rest ih =>
        have first : (if row.embed.basic < t.structural
            then (nums x).set row.embed.basic (greater row.embed.equation.rhs 0) else nums x)
              = nums (writeBasic t.structural x row) := by
          rw [writeBasic, greater_rat, apply_ite nums, nums.eq_1 (x.set _ _), List.map_set]
          simp only [Row.embed, Equation.embed, ExtRat.zero_eq, ExtRat.greater_num]
          rfl
        rw [List.map_cons, List.foldl_cons, List.foldl_cons, ← ih, first]
  have zeros : List.replicate t.structural (0 : ExtRat) = nums (List.replicate t.structural 0) := by
    rw [nums, List.map_replicate, ExtRat.zero_eq]
  rw [vertex, vertex_eq_foldl, ← step, ← zeros]
  rfl

/-! ### The start -/

theorem nums_append (x y : List ℚ) : nums (x ++ y) = nums x ++ nums y := List.map_append

theorem zeros_embed (n : ℕ) : List.replicate n (0 : ExtRat) = nums (List.replicate n 0) := by
  rw [nums, List.map_replicate, ExtRat.zero_eq]

theorem unitVector_embed (n i : ℕ) (w : ℚ) :
    unitVector n i (num w) = nums (unitVector n i w) := by
  rw [unitVector, unitVector, zeros_embed, nums, nums, List.map_set]

theorem foldl_set_embed (s : ℚ) (terms : List (ℕ × ℚ)) (x : List ℚ) :
    (SparseMatrix.mapRow num terms).foldl (fun row term => row.set term.1 (num s * term.2)) (nums x)
      = nums (terms.foldl (fun row term => row.set term.1 (s * term.2)) x) := by
  induction terms generalizing x with
  | nil => rfl
  | cons term rest ih =>
      have first : (nums x).set term.1 (num s * num term.2) = nums (x.set term.1 (s * term.2)) := by
        rw [ExtRat.num_mul, nums, nums, List.map_set]
      rw [List.foldl_cons, ← ih, ← first]
      rfl

theorem startRow_embed (n m k i a : ℕ) (c : Constraint ℚ) :
    startRow n m k i a c.embed = (startRow n m k i a c).embed := by
  have negative : c.embed.limit < 0 ↔ c.limit < 0 := ExtRat.num_lt
  have limit (s : ℚ) : num s * c.embed.limit = num (s * c.limit) := rfl
  have terms : c.embed.terms = SparseMatrix.mapRow num c.terms := rfl
  have minusOne : (-1 : ExtRat) = num (-1) := rfl
  have one : unitVector k a (1 : ExtRat) = nums (unitVector k a 1) := unitVector_embed k a 1
  by_cases hc : c.limit < 0
  · have hc' := negative.mpr hc
    simp only [startRow, if_pos hc, if_pos hc', minusOne, terms, zeros_embed, foldl_set_embed, one,
      unitVector_embed, limit, Row.embed, Equation.embed, nums_append]
  · have hc' := fun h => hc (negative.mp h)
    simp only [startRow, if_neg hc, if_neg hc', terms, zeros_embed, ExtRat.one_eq, foldl_set_embed,
      unitVector_embed, limit, Row.embed, Equation.embed, nums_append]

theorem start_embed (n : ℕ) (cs : List (Constraint ℚ)) :
    start n (cs.map Constraint.embed) = (start n cs).embed := by
  have count (cs : List (Constraint ℚ)) : (cs.map Constraint.embed).countP
      (fun c => decide (c.limit < 0)) = cs.countP fun c => decide (c.limit < 0) := by
    rw [List.countP_map]
    exact List.countP_congr fun c _ => by
      simp only [Function.comp_apply, decide_eq_true_eq]
      exact ExtRat.num_lt
  have rows (m k i a : ℕ) (cs : List (Constraint ℚ)) :
      startRows n m k i a (cs.map Constraint.embed) = (startRows n m k i a cs).map Row.embed := by
    induction cs generalizing i a with
    | nil => rfl
    | cons c rest ih =>
        have negative : c.embed.limit < 0 ↔ c.limit < 0 := ExtRat.num_lt
        rw [List.map_cons, startRows, startRows, List.map_cons, startRow_embed, ih]
        simp only [negative]
  rw [start, start]
  simp only [embed, List.length_map, count, rows, Equation.embed, nums, List.map_replicate]
  rfl

/-! ### Choices -/

theorem entering?_embed (t : Tableau ℚ) (limit : ℕ) :
    t.embed.entering? 0 limit = t.entering? 0 limit := by
  rw [entering?, entering?]
  simp only [embed, Equation.embed, nums, ← List.map_take, List.findIdx?_map]
  refine congrArg (List.findIdx? · _) (funext fun o => ?_)
  simp only [Function.comp_apply, ExtRat.zero_eq, ExtRat.num_neg, ExtRat.num_lt]

/-- A candidate over the rationals, as one over exact numbers. -/
def Candidate.embed (c : Candidate ℚ) : Candidate ExtRat := ⟨c.row, c.basic, num c.ratio⟩

/-- The ratio of a row is one of numbers, unless it divides by zero. -/
theorem ratio_embed (h : row.equation.coeff j ≠ 0) :
    row.embed.equation.rhs / row.embed.equation.coeff j
      = num (row.equation.rhs / row.equation.coeff j) := by
  rw [Row.embed, Equation.coeff_embed]
  exact ExtRat.num_div h

theorem ofRow_embed (h : row.equation.coeff j ≠ 0) (i : ℕ) :
    Candidate.ofRow j row.embed i = (Candidate.ofRow j row i).embed :=
  congrArg (Candidate.mk i row.basic) (ratio_embed h)

theorem tieWidth_num : (tieWidth : ExtRat) = num tieWidth := rfl

theorem beats_embed (c b : Candidate ℚ) : c.embed.beats b.embed = c.beats b := by
  simp only [Candidate.beats, Candidate.embed, tieWidth_num, ExtRat.num_sub, ExtRat.absolute_num,
    ExtRat.num_lt, ExtRat.num_le, absolute_rat]
  rfl

/-- At a tolerance that is not negative a contest compares ratios of numbers. -/
theorem contest_embed {τ : ℚ} (hτ : 0 ≤ τ) (best : Option (Candidate ℚ)) (row : Row ℚ) (i : ℕ) :
    contest (num τ) j (best.map Candidate.embed) row.embed i
      = (contest τ j best row i).map Candidate.embed := by
  have coeff : row.embed.equation.coeff j = num (row.equation.coeff j) :=
    Equation.coeff_embed row.equation j
  by_cases ha : row.equation.coeff j ≤ τ
  · have ha' : num (row.equation.coeff j) ≤ num τ := ExtRat.num_le.mpr ha
    simp only [contest, coeff, if_pos ha, if_pos ha']
  · have ha' : ¬ row.embed.equation.coeff j ≤ num τ := fun h => ha (ExtRat.num_le.mp (coeff ▸ h))
    have candidate := ofRow_embed (fun h => ha (h.trans_le hτ)) i
    simp only [Candidate.ofRow] at candidate
    simp only [contest, if_neg ha, if_neg ha', candidate]
    cases best with
    | none => rfl
    | some b =>
        simp only [Option.map_some, beats_embed]
        split <;> rfl

theorem leaving?_embed {τ : ℚ} (hτ : 0 ≤ τ) (t : Tableau ℚ) (j : ℕ) :
    t.embed.leaving? (num τ) j = (t.leaving? τ j).map Candidate.embed := by
  have step (pairs : List (Row ℚ × ℕ)) (best : Option (Candidate ℚ)) :
      (pairs.map (Prod.map Row.embed id)).foldl (fun best e => contest (num τ) j best e.1 e.2)
          (best.map Candidate.embed)
        = (pairs.foldl (fun best e => contest τ j best e.1 e.2) best).map Candidate.embed := by
    induction pairs generalizing best with
    | nil => rfl
    | cons e rest ih =>
        rw [List.map_cons, List.foldl_cons, List.foldl_cons, ← ih, ← contest_embed hτ]
        rfl
  have pairs : t.embed.rows.zipIdx = t.rows.zipIdx.map (Prod.map Row.embed id) :=
    List.zipIdx_map ..
  rw [leaving?, pairs]
  exact step t.rows.zipIdx none

theorem move_embed (t : Tableau ℚ) (limit : ℕ) : t.embed.move 0 limit = t.move 0 limit := by
  rw [move, move, entering?_embed]
  cases t.entering? 0 limit with
  | none => rfl
  | some j =>
      simp only [ExtRat.zero_eq, leaving?_embed le_rfl]
      cases t.leaving? 0 j <;> rfl

/-- The row that leaves has a coefficient to divide by. -/
theorem coeff_ne_zero_of_leaving? {c : Candidate ℚ} (h : t.leaving? 0 j = some c) :
    ∀ row, t.rows[c.row]? = some row → row.equation.coeff j ≠ 0 := by
  intro row hrow hzero
  obtain ⟨row', hrow', hcoeff, -⟩ := leaving?_eq_some h
  cases Option.some.inj (hrow.symm.trans hrow')
  exact hcoeff hzero.le

/-- **At tolerance zero a phase comes out as over the rationals.** -/
theorem optimize_embed (limit budget : ℕ) (t : Tableau ℚ) :
    t.embed.optimize 0 limit budget = (t.optimize 0 limit budget).embed := by
  induction budget generalizing t with
  | zero =>
      rw [optimize, optimize, entering?_embed]
      cases t.entering? 0 limit <;> rfl
  | succ budget ih =>
      rw [optimize, optimize, move_embed]
      cases hmove : t.move 0 limit with
      | optimal => rfl
      | unbounded j => rfl
      | pivot r j =>
          obtain ⟨-, c, hc, rfl⟩ := move_eq_pivot hmove
          simp only [pivot_embed (coeff_ne_zero_of_leaving? hc), ih]
          rfl

theorem expel_embed (t : Tableau ℚ) (r : ℕ) : expel 0 t.embed r = (expel 0 t r).embed := by
  rw [expel, expel, getElem?_rows_embed]
  cases hrow : t.rows[r]? with
  | none => rfl
  | some row =>
      have find : (row.embed.equation.coeffs.take t.firstArtificial).findIdx?
            (fun a => decide (0 < absolute a))
          = (row.equation.coeffs.take t.firstArtificial).findIdx?
            fun a => decide (0 < absolute a) := by
        simp only [Row.embed, Equation.embed, nums, ← List.map_take, List.findIdx?_map]
        refine congrArg (List.findIdx? · _) (funext fun a => ?_)
        simp only [Function.comp_apply, ExtRat.absolute_num, ExtRat.zero_eq, ExtRat.num_lt,
          absolute_rat]
      have same : t.embed.firstArtificial = t.firstArtificial := rfl
      have artificial : t.embed.isArtificial row.embed.basic = t.isArtificial row.basic := rfl
      simp only [Option.map_some]
      rw [same, find, artificial]
      split
      · cases hfind : (row.equation.coeffs.take t.firstArtificial).findIdx?
            fun a => decide (0 < absolute a) with
        | none => rfl
        | some j =>
            refine pivot_embed fun other hother hzero => ?_
            cases Option.some.inj (hrow.symm.trans hother)
            obtain ⟨hj, hcoeff, -⟩ := List.findIdx?_eq_some_iff_getElem.mp hfind
            rw [List.length_take] at hj
            rw [List.getElem_take, decide_eq_true_eq, absolute_rat, abs_pos] at hcoeff
            rw [Equation.coeff, List.getD_eq_getElem _ _ (by omega)] at hzero
            exact hcoeff hzero
      · rfl

theorem expelArtificials_embed (t : Tableau ℚ) :
    t.embed.expelArtificials 0 = (t.expelArtificials 0).embed := by
  have step (positions : List ℕ) (t : Tableau ℚ) :
      positions.foldl (expel 0) t.embed = (positions.foldl (expel 0) t).embed := by
    induction positions generalizing t with
    | nil => rfl
    | cons r rest ih => rw [List.foldl_cons, List.foldl_cons, expel_embed, ih]
  rw [expelArtificials, expelArtificials, ← step]
  exact congrArg (fun n => (List.range n).foldl (expel 0) t.embed) (List.length_map _)

/-! ### Ties -/

theorem ratios_embed {τ : ℚ} (hτ : 0 ≤ τ) (t : Tableau ℚ) (j : ℕ) :
    t.embed.ratios (num τ) j = nums (t.ratios τ j) := by
  rw [ratios, ratios, nums, List.map_filterMap]
  refine (List.filterMap_map ..).trans (List.filterMap_congr fun row _ => ?_)
  have coeff : row.embed.equation.coeff j = num (row.equation.coeff j) :=
    Equation.coeff_embed row.equation j
  simp only [Function.comp_apply, coeff]
  by_cases ha : row.equation.coeff j ≤ τ
  · have ha' : num (row.equation.coeff j) ≤ num τ := ExtRat.num_le.mpr ha
    rw [if_pos ha, if_pos ha', Option.map_none]
  · have ha' : ¬ num (row.equation.coeff j) ≤ num τ := fun h => ha (ExtRat.num_le.mp h)
    rw [if_neg ha, if_neg ha', Option.map_some]
    exact congrArg some (ExtRat.num_div fun h => ha (h.trans_le hτ))

theorem separated_embed_iff {τ : ℚ} (hτ : 0 ≤ τ) :
    t.embed.Separated (num τ) j ↔ t.Separated τ j := by
  simp only [Separated, ratios_embed hτ, nums, List.forall_mem_map, ExtRat.num.injEq, tieWidth_num,
    ExtRat.num_sub, ExtRat.absolute_num, ExtRat.num_lt, absolute_rat]

theorem noNearTies_embed_iff {budget : ℕ} :
    NoNearTies 0 limit budget t.embed ↔ NoNearTies 0 limit budget t := by
  induction budget generalizing t with
  | zero => exact Iff.rfl
  | succ budget ih =>
      rw [NoNearTies, NoNearTies, entering?_embed]
      cases t.entering? 0 limit with
      | none => exact Iff.rfl
      | some j =>
          simp only [ExtRat.zero_eq, separated_embed_iff le_rfl, leaving?_embed le_rfl]
          cases hc : t.leaving? 0 j with
          | none => exact Iff.rfl
          | some c =>
              have pivoted : t.embed.pivot c.embed.row j = (t.pivot c.row j).embed :=
                pivot_embed (coeff_ne_zero_of_leaving? hc)
              simp only [Option.map_some, pivoted, ← ExtRat.zero_eq, ih]

end Tableau

end IntegerProgramming.LinearProgram
