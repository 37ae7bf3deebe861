import Mathlib
import IntegerProgramming.Proofs.Intervals
import IntegerProgramming.Proofs.LinearProgram.Acceptance
import IntegerProgramming.Proofs.LinearProgram.Embed
import IntegerProgramming.Proofs.LinearProgram.TwoPhases

/-!
# Linear programs — feasible points

The points of a linear program are the rational points in its box that satisfy its constraints
(`LinearProgram.Feasible`).  An accepted program over a box that is not empty has constraints with
rational data, and a point is feasible just when it is not negative and meets them.

* `LinearProgram.accepted_of_validate`: what acceptance says of the data.
* `Program.rowConstraints`, `upperEnd?`, `lowerEnd?`: the three groups of constraints.
* `LinearProgram.allConstraints`, `LinearProgram.exists_constraints`: all of them together.
-/

namespace IntegerProgramming

open ExtRat (num innerProd)

namespace LinearProgram

open Tableau (Meets)

/-- A point in the box that satisfies every constraint. -/
structure Feasible (p : LinearProgram ExtRat) (x : List ℚ) : Prop where
  limits : ∃ activities, p.matrix.product? (nums x) = some activities
    ∧ List.Forall₂ (· ≤ ·) activities p.limits
  lower : List.Forall₂ (· ≤ ·) p.box.lower (nums x)
  upper : List.Forall₂ (· ≤ ·) (nums x) p.box.upper

/-! ### Accepted programs -/

/-- The objective and the constraints, without the box. -/
def program (p : LinearProgram ExtRat) : Program ExtRat := ⟨p.objective, p.matrix, p.limits⟩

/-- What acceptance says of the data. -/
structure Accepted (p : LinearProgram ExtRat) : Prop where
  program : p.program.validate = .ok ()
  lowerLength : p.box.lower.length = p.numVars
  upperLength : p.box.upper.length = p.numVars
  interval : ∀ {j : ℕ} {l u : ExtRat}, p.box.lower[j]? = some l → p.box.upper[j]? = some u →
    (∃ q, l = num q ∧ 0 ≤ q) ∧ isUndefined u = false

theorem accepted_of_validate {p : LinearProgram ExtRat} (h : p.validate = .ok ()) :
    p.Accepted := by
  obtain ⟨program, ⟨lower, upper⟩, ends⟩ := validate_eq_ok_iff_program.mp h
  refine ⟨program, lower, upper, fun {j l u} hl hu => ?_⟩
  obtain ⟨⟨finite, nonneg⟩, defined⟩ :=
    ends (l, u) (List.mem_of_getElem? (List.getElem?_zip_eq_some.mpr ⟨hl, hu⟩))
  obtain ⟨q, rfl⟩ := ExtRat.isFinite_iff.mp finite
  exact ⟨⟨q, rfl, not_lt.mp fun hq => nonneg (ExtRat.num_lt.mpr hq)⟩, defined⟩

/-- The objective of an accepted program is rational. -/
theorem Accepted.exists_objective {p : LinearProgram ExtRat} (h : p.Accepted) :
    ∃ c, p.objective = nums c := by
  have hdata := ((Program.validate_eq_ok_iff _).mp h.program).2.2
  rw [Program.hasFiniteData, Bool.and_eq_true, Bool.and_eq_true] at hdata
  exact exists_nums hdata.1.1

/-! ### The three groups of constraints -/

/-- The constraints of the rows. -/
def rowConstraints (P : Program ℚ) : List (Constraint ℚ) :=
  List.zipWith Constraint.mk P.matrix.rowEntries P.limits

theorem rowConstraints_embed (P : Program ℚ) :
    List.zipWith Constraint.mk P.embed.matrix.rowEntries P.embed.limits
      = (rowConstraints P).map Constraint.embed := by
  have limits : P.embed.limits = P.limits.map num := rfl
  rw [Program.rowEntries_embed, limits, List.zipWith_map, rowConstraints, List.map_zipWith]
  rfl

theorem proper_rowConstraints {P : Program ℚ} (h : P.Regular) :
    ∀ c ∈ rowConstraints P, c.Proper P.numVars := by
  intro c hc
  rw [rowConstraints, ← List.map_uncurry_zip_eq_zipWith] at hc
  obtain ⟨⟨row, limit⟩, hmem, rfl⟩ := List.mem_map.mp hc
  have hrow := (List.of_mem_zip hmem).1
  exact ⟨(h.sorted row hrow).imp fun h => h.ne, h.inRange row hrow⟩

/-- What relates the left-hand sides of the rows to their limits, relates those of the constraints
to theirs. -/
theorem rowConstraints_forall₂ {P : Program ℚ} (h : P.Regular) {x : List ℚ}
    (hx : x.length = P.numVars) (R : ExtRat → ExtRat → Prop) :
    (∃ activities, P.embed.matrix.product? (nums x) = some activities
        ∧ List.Forall₂ R activities P.embed.limits)
      ↔ ∀ c ∈ rowConstraints P, R (num (c.lhs (x.getD · 0))) (num c.limit) := by
  have product : P.embed.matrix.product? (nums x)
      = some (nums (P.matrix.rowEntries.map (rowValue x))) := Program.activities?_embed h hx
  have limits : P.embed.limits = nums P.limits := rfl
  simp only [product, Option.some.injEq, exists_eq_left', limits]
  simp only [nums, List.map_map, List.forall₂_map_left_iff, List.forall₂_map_right_iff,
    Function.comp_apply]
  rw [List.forall₂_iff_zip, rowConstraints, ← List.map_uncurry_zip_eq_zipWith]
  simp only [List.forall_mem_map, h.rows, true_and]
  exact ⟨fun hall row hrow => hall hrow, fun hall _ _ hrow => hall _ hrow⟩

/-- The constraints of the rows say that no left-hand side exceeds its limit. -/
theorem rowConstraints_iff {P : Program ℚ} (h : P.Regular) {x : List ℚ}
    (hx : x.length = P.numVars) :
    (∃ activities, P.embed.matrix.product? (nums x) = some activities
        ∧ List.Forall₂ (· ≤ ·) activities P.embed.limits)
      ↔ ∀ c ∈ rowConstraints P, c.lhs (x.getD · 0) ≤ c.limit := by
  simpa only [ExtRat.num_le] using rowConstraints_forall₂ h hx (· ≤ ·)

/-- The constraint of an upper end, unless it is infinite. -/
def upperEnd? : ExtRat → ℕ → Option (Constraint ℚ)
  | num q, j => some ⟨[(j, 1)], q⟩
  | _, _ => none

/-- The constraint of a lower end, unless it is zero. -/
def lowerEnd? : ExtRat → ℕ → Option (Constraint ℚ)
  | num q, j => if 0 < q then some ⟨[(j, -1)], -q⟩ else none
  | _, _ => none

theorem upperEnd?_embed (u : ExtRat) (j : ℕ) :
    (if isFinite u then some ⟨[(j, 1)], u⟩ else none)
      = (upperEnd? u j).map Constraint.embed := by
  cases u with
  | num q => rw [if_pos (ExtRat.isFinite_iff.mpr ⟨q, rfl⟩)]; rfl
  | posInf | negInf | undef => rfl

theorem lowerEnd?_embed (q : ℚ) (j : ℕ) :
    (if 0 < num q then some ⟨[(j, -1)], -num q⟩ else none)
      = (lowerEnd? (num q) j).map Constraint.embed := by
  by_cases hq : 0 < q
  · have hq' : (0 : ExtRat) < num q := ExtRat.num_lt.mpr hq
    rw [if_pos hq', lowerEnd?, if_pos hq]
    rfl
  · have hq' : ¬ (0 : ExtRat) < num q := fun h => hq (ExtRat.num_lt.mp h)
    rw [if_neg hq', lowerEnd?, if_neg hq]
    rfl

theorem upperEnd?_proper {n j : ℕ} {u : ExtRat} {c : Constraint ℚ} (hj : j < n)
    (h : upperEnd? u j = some c) : c.Proper n := by
  cases u with
  | num q =>
      cases Option.some.inj h
      refine ⟨List.nodup_singleton j, fun term hterm => ?_⟩
      rw [List.mem_singleton.mp hterm]
      exact hj
  | posInf | negInf | undef => cases h

theorem lowerEnd?_proper {n j : ℕ} {l : ExtRat} {c : Constraint ℚ} (hj : j < n)
    (h : lowerEnd? l j = some c) : c.Proper n := by
  cases l with
  | num q =>
      rw [lowerEnd?, Option.ite_none_right_eq_some] at h
      cases Option.some.inj h.2
      refine ⟨List.nodup_singleton j, fun term hterm => ?_⟩
      rw [List.mem_singleton.mp hterm]
      exact hj
  | posInf | negInf | undef => cases h

/-- A coordinate is below an upper end, neither undefined nor `-∞`, if it meets its constraint. -/
theorem upperEnd?_iff {u : ExtRat} (hu : isUndefined u = false) (hu' : u ≠ .negInf) (j : ℕ)
    (x : ℕ → ℚ) : num (x j) ≤ u ↔ ∀ c, upperEnd? u j = some c → c.lhs x ≤ c.limit := by
  cases u with
  | num q => simp [upperEnd?, Constraint.lhs, ExtRat.num_le]
  | posInf => simp [upperEnd?]
  | negInf => exact absurd rfl hu'
  | undef => cases hu

/-- A coordinate is above a lower end if it is not negative and meets its constraint. -/
theorem lowerEnd?_iff {q : ℚ} (hq : 0 ≤ q) (j : ℕ) (x : ℕ → ℚ) :
    num q ≤ num (x j) ↔ 0 ≤ x j ∧ ∀ c, lowerEnd? (num q) j = some c → c.lhs x ≤ c.limit := by
  rw [ExtRat.num_le]
  rcases hq.eq_or_lt with rfl | hpos
  · simp [lowerEnd?]
  · have meets : (∀ c, lowerEnd? (num q) j = some c → c.lhs x ≤ c.limit) ↔ q ≤ x j := by
      simp [lowerEnd?, Constraint.lhs, hpos]
    rw [meets]
    exact ⟨fun h => ⟨hq.trans h, h⟩, fun h => h.2⟩

/-! ### All constraints -/

/-- The constraints of the ends of some intervals. -/
def endConstraints (end? : ExtRat → ℕ → Option (Constraint ℚ)) (ends : List ExtRat) :
    List (Constraint ℚ) :=
  ends.zipIdx.filterMap fun e => end? e.1 e.2

theorem endConstraints_embed {end? : ExtRat → ℕ → Option (Constraint ℚ)} {ends : List ExtRat}
    {f : ExtRat × ℕ → Option (Constraint ExtRat)}
    (h : ∀ u ∈ ends, ∀ j, f (u, j) = (end? u j).map Constraint.embed) :
    ends.zipIdx.filterMap f = (endConstraints end? ends).map Constraint.embed := by
  rw [endConstraints, List.map_filterMap]
  refine List.filterMap_congr fun e he => h e.1 ?_ e.2
  exact List.mem_of_getElem? (List.mk_mem_zipIdx_iff_getElem?.mp he)

theorem upperConstraints_embed (ends : List ExtRat) :
    (ends.zipIdx.filterMap fun (u, j) => if isFinite u then some ⟨[(j, 1)], u⟩ else none)
      = (endConstraints upperEnd? ends).map Constraint.embed :=
  endConstraints_embed fun u _ j => upperEnd?_embed u j

theorem lowerConstraints_embed {ends : List ExtRat} (h : ∀ l ∈ ends, ∃ q, l = num q) :
    (ends.zipIdx.filterMap fun (l, j) => if 0 < l then some ⟨[(j, -1)], -l⟩ else none)
      = (endConstraints lowerEnd? ends).map Constraint.embed :=
  endConstraints_embed fun l hl j => by
    obtain ⟨q, rfl⟩ := h l hl
    exact lowerEnd?_embed q j

theorem forall_mem_endConstraints {end? : ExtRat → ℕ → Option (Constraint ℚ)} {ends : List ExtRat}
    {P : Constraint ℚ → Prop} :
    (∀ c ∈ endConstraints end? ends, P c)
      ↔ ∀ j u, ends[j]? = some u → ∀ c, end? u j = some c → P c := by
  simp only [endConstraints, List.mem_filterMap, Prod.exists, List.mk_mem_zipIdx_iff_getElem?]
  exact ⟨fun h j u hj c hc => h c ⟨u, j, hj, hc⟩, fun h c ⟨u, j, hj, hc⟩ => h j u hj c hc⟩

theorem forall₂_getElem? {γ δ : Type} {R : γ → δ → Prop} {xs : List γ} {ys : List δ} :
    List.Forall₂ R xs ys ↔ xs.length = ys.length
      ∧ ∀ (j : ℕ) (a : γ) (b : δ), xs[j]? = some a → ys[j]? = some b → R a b := by
  rw [List.forall₂_iff_get]
  refine and_congr_right fun _ => ⟨fun h j a b ha hb => ?_, fun h j hj hj' => ?_⟩
  · obtain ⟨hj, rfl⟩ := List.getElem?_eq_some_iff.mp ha
    obtain ⟨hj', rfl⟩ := List.getElem?_eq_some_iff.mp hb
    exact h j hj hj'
  · exact h j _ _ (List.getElem?_eq_getElem hj) (List.getElem?_eq_getElem hj')

variable {p : LinearProgram ExtRat} {x : List ℚ}

theorem Accepted.exists_upper (h : p.Accepted) {j : ℕ} {l : ExtRat}
    (hj : p.box.lower[j]? = some l) : ∃ u, p.box.upper[j]? = some u := by
  obtain ⟨hlt, -⟩ := List.getElem?_eq_some_iff.mp hj
  exact ⟨_, List.getElem?_eq_getElem (by rw [h.upperLength, ← h.lowerLength]; exact hlt)⟩

theorem Accepted.exists_lower (h : p.Accepted) {j : ℕ} {u : ExtRat}
    (hj : p.box.upper[j]? = some u) : ∃ l, p.box.lower[j]? = some l := by
  obtain ⟨hlt, -⟩ := List.getElem?_eq_some_iff.mp hj
  exact ⟨_, List.getElem?_eq_getElem (by rw [h.lowerLength, ← h.upperLength]; exact hlt)⟩

theorem Accepted.lowerEnd (h : p.Accepted) {j : ℕ} {l : ExtRat} (hj : p.box.lower[j]? = some l) :
    ∃ q, l = num q ∧ 0 ≤ q := by
  obtain ⟨u, hu⟩ := h.exists_upper hj
  exact (h.interval hj hu).1

/-- Over a box that is not empty, an upper end is a number or infinity. -/
theorem Accepted.upperEnd (h : p.Accepted) (nonempty : p.box.isEmpty = false) {j : ℕ} {u : ExtRat}
    (hj : p.box.upper[j]? = some u) : isUndefined u = false ∧ u ≠ .negInf := by
  obtain ⟨l, hl⟩ := h.exists_lower hj
  obtain ⟨⟨q, rfl, -⟩, hupper⟩ := h.interval hl hj
  refine ⟨hupper, ?_⟩
  rintro rfl
  have hzip : (p.box.lower.zip p.box.upper)[j]? = some (num q, .negInf) :=
    List.getElem?_zip_eq_some.mpr ⟨hl, hj⟩
  exact List.any_eq_false.mp nonempty _ (List.mem_of_getElem? hzip)
    (decide_eq_true (ExtRat.negInf_lt_num q))

/-- The coordinates of a point, position by position. -/
theorem getElem?_nums {j : ℕ} {a : ExtRat} :
    (nums x)[j]? = some a ↔ j < x.length ∧ a = num (x.getD j 0) := by
  rw [nums, List.getElem?_map, Option.map_eq_some_iff]
  constructor
  · rintro ⟨q, hq, rfl⟩
    obtain ⟨hj, rfl⟩ := List.getElem?_eq_some_iff.mp hq
    exact ⟨hj, by rw [List.getD_eq_getElem _ _ hj]⟩
  · rintro ⟨hj, rfl⟩
    exact ⟨x[j], List.getElem?_eq_getElem hj, by rw [List.getD_eq_getElem _ _ hj]⟩

/-- A point is above the lower ends if it is not negative and meets their constraints. -/
theorem Accepted.lower_iff (h : p.Accepted) (hx : x.length = p.numVars) :
    List.Forall₂ (· ≤ ·) p.box.lower (nums x)
      ↔ (∀ j < p.numVars, 0 ≤ x.getD j 0)
        ∧ ∀ c ∈ endConstraints lowerEnd? p.box.lower, c.lhs (x.getD · 0) ≤ c.limit := by
  rw [forall₂_getElem?, length_nums, hx, h.lowerLength, forall_mem_endConstraints]
  simp only [true_and, getElem?_nums, hx]
  constructor
  · intro hall
    have each (j : ℕ) (l : ExtRat) (hj : p.box.lower[j]? = some l) :=
      hall j l _ hj ⟨h.lowerLength ▸ (List.getElem?_eq_some_iff.mp hj).1, rfl⟩
    refine ⟨fun j hj => ?_, fun j l hjl => ?_⟩
    · have hjl := List.getElem?_eq_getElem (h.lowerLength.symm ▸ hj)
      obtain ⟨q, hq, hq0⟩ := h.lowerEnd hjl
      exact ((lowerEnd?_iff hq0 j (x.getD · 0)).mp (hq ▸ each j _ hjl)).1
    · obtain ⟨q, rfl, hq0⟩ := h.lowerEnd hjl
      exact ((lowerEnd?_iff hq0 j (x.getD · 0)).mp (each j _ hjl)).2
  · rintro ⟨nonneg, hall⟩ j l a hjl ⟨hj, rfl⟩
    obtain ⟨q, rfl, hq0⟩ := h.lowerEnd hjl
    exact (lowerEnd?_iff hq0 j (x.getD · 0)).mpr ⟨nonneg j hj, hall j _ hjl⟩

/-- A point is below the upper ends if it meets their constraints. -/
theorem Accepted.upper_iff (h : p.Accepted) (nonempty : p.box.isEmpty = false)
    (hx : x.length = p.numVars) :
    List.Forall₂ (· ≤ ·) (nums x) p.box.upper
      ↔ ∀ c ∈ endConstraints upperEnd? p.box.upper, c.lhs (x.getD · 0) ≤ c.limit := by
  rw [forall₂_getElem?, length_nums, hx, h.upperLength, forall_mem_endConstraints]
  simp only [true_and, getElem?_nums, hx]
  constructor
  · intro hall j u hju
    obtain ⟨defined, hne⟩ := h.upperEnd nonempty hju
    have hj : j < p.numVars := h.upperLength ▸ (List.getElem?_eq_some_iff.mp hju).1
    exact (upperEnd?_iff defined hne j (x.getD · 0)).mp (hall j _ u ⟨hj, rfl⟩ hju)
  · rintro hall j a u ⟨-, rfl⟩ hju
    obtain ⟨defined, hne⟩ := h.upperEnd nonempty hju
    exact (upperEnd?_iff defined hne j (x.getD · 0)).mpr (hall j u hju)

/-- A feasible point lies in the box. -/
theorem Feasible.encloses (h : p.Feasible x) : p.box.Encloses (nums x) := ⟨h.lower.flip, h.upper⟩

/-- No point lies in an empty box. -/
theorem not_feasible_of_isEmpty (empty : p.box.isEmpty = true) : ¬ p.Feasible x :=
  fun h => Box.not_encloses_of_isEmpty empty h.encloses

/-- The constraints of the rows of a program, then those of the upper and of the lower ends of a
box. -/
def allConstraints (P : Program ℚ) (box : Box ExtRat) : List (Constraint ℚ) :=
  rowConstraints P ++ endConstraints upperEnd? box.upper ++ endConstraints lowerEnd? box.lower

section Constraints

variable {P : Program ℚ}

theorem Accepted.constraints_embed (h : p.Accepted) (hP : p.program = P.embed) :
    p.constraints = (allConstraints P p.box).map Constraint.embed := by
  have matrix : p.matrix = P.embed.matrix := congrArg Program.matrix hP
  have limits : p.limits = P.embed.limits := congrArg Program.limits hP
  have finite : ∀ l ∈ p.box.lower, ∃ q, l = num q := fun l hl => by
    obtain ⟨j, hj⟩ := List.mem_iff_getElem?.mp hl
    obtain ⟨q, rfl, -⟩ := h.lowerEnd hj
    exact ⟨q, rfl⟩
  rw [allConstraints, List.map_append, List.map_append, ← rowConstraints_embed, ← matrix,
    ← limits, ← upperConstraints_embed, ← lowerConstraints_embed finite, constraints]

theorem Accepted.proper_allConstraints (h : p.Accepted) (regular : P.Regular)
    (numVars : P.numVars = p.numVars) : ∀ c ∈ allConstraints P p.box, c.Proper p.numVars := by
  simp only [allConstraints, List.forall_mem_append, forall_mem_endConstraints]
  refine ⟨⟨numVars ▸ proper_rowConstraints regular, fun j u hju c hc => ?_⟩,
    fun j l hjl c hc => ?_⟩
  · exact upperEnd?_proper (h.upperLength ▸ (List.getElem?_eq_some_iff.mp hju).1) hc
  · exact lowerEnd?_proper (h.lowerLength ▸ (List.getElem?_eq_some_iff.mp hjl).1) hc

/-- A point is feasible just when it is not negative and meets the three groups of constraints. -/
theorem Accepted.feasible_iff (h : p.Accepted) (regular : P.Regular) (hP : p.program = P.embed)
    (numVars : P.numVars = p.numVars) (nonempty : p.box.isEmpty = false) :
    p.Feasible x
      ↔ x.length = p.numVars ∧ Meets p.numVars (allConstraints P p.box) (x.getD · 0) := by
  have matrix : p.matrix = P.embed.matrix := congrArg Program.matrix hP
  have limits : p.limits = P.embed.limits := congrArg Program.limits hP
  constructor
  · intro hx
    have hlength : x.length = p.numVars := by
      rw [← length_nums, ← hx.lower.length_eq, h.lowerLength]
    obtain ⟨nonneg, hlower⟩ := (h.lower_iff hlength).mp hx.lower
    have hupper := (h.upper_iff nonempty hlength).mp hx.upper
    have hrows := (rowConstraints_iff regular (hlength.trans numVars.symm)).mp
      (matrix ▸ limits ▸ hx.limits)
    refine ⟨hlength, nonneg, ?_⟩
    simp only [allConstraints, List.forall_mem_append]
    exact ⟨⟨hrows, hupper⟩, hlower⟩
  · rintro ⟨hlength, nonneg, hall⟩
    simp only [allConstraints, List.forall_mem_append] at hall
    obtain ⟨⟨hrows, hupper⟩, hlower⟩ := hall
    refine ⟨?_, (h.lower_iff hlength).mpr ⟨nonneg, hlower⟩,
      (h.upper_iff nonempty hlength).mpr hupper⟩
    rw [matrix, limits]
    exact (rowConstraints_iff regular (hlength.trans numVars.symm)).mpr hrows

end Constraints

/-- **The constraints of an accepted program**: they have rational data, and a point is feasible
just when it is not negative and meets them. -/
theorem exists_constraints (valid : p.validate = .ok ()) (wf : p.matrix.WellFormed)
    (nonempty : p.box.isEmpty = false) :
    ∃ P : Program ℚ, P.Regular ∧ p.program = P.embed
      ∧ p.constraints = (allConstraints P p.box).map Constraint.embed
      ∧ (∀ c ∈ allConstraints P p.box, c.Proper p.numVars)
      ∧ ∀ x, p.Feasible x
        ↔ x.length = p.numVars ∧ Meets p.numVars (allConstraints P p.box) (x.getD · 0) := by
  have h := accepted_of_validate valid
  obtain ⟨P, regular, hP⟩ := Program.exists_regular h.program wf
  have numVars : P.numVars = p.numVars := (Program.numVars_embed P).symm.trans (hP ▸ rfl)
  exact ⟨P, regular, hP, h.constraints_embed hP, h.proper_allConstraints regular numVars,
    fun x => h.feasible_iff regular hP numVars nonempty⟩

theorem startTableau_embed {cs : List (Constraint ℚ)}
    (h : p.constraints = cs.map Constraint.embed) :
    p.startTableau = (Tableau.start p.numVars cs).embed := by
  rw [startTableau, h, Tableau.start_embed]

end LinearProgram

end IntegerProgramming
