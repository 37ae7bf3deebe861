import Mathlib
import IntegerProgramming.Arithmetic.Exact

/-!
# Exact numbers — order, sums and roundings

What the operations of a search do on the numbers among the extended rationals: each of them is the
operation on rationals of the same name.

* `ExtRat.greater_num`, `ExtRat.absolute_num`, `ExtRat.total_map_num`, `ExtRat.dot_map_num`: the
  derived operations on numbers.
* `ExtRat.abs_sub_nearest_le`: a number is at most one half away from the nearest integer.
* `ExtRat.exists_num_of_fractionality_le`: only a number is within a tolerance of an integer, and
  then it is within `ExtRat.reach` of it, a rational however large the tolerance.
* `ExtRat.reach_mul_le`: moving each term of a sum by this distance moves the sum by at most
  `ExtRat.slack`, the tolerance times the weight of the sum.
-/

namespace IntegerProgramming

namespace ExtRat

/-! ### Comparisons -/

theorem zero_eq : (0 : ExtRat) = num 0 := rfl

theorem one_eq : (1 : ExtRat) = num 1 := rfl

/-- Equal values are the same, and defined. -/
theorem eq_of_beq {a b : ExtRat} (h : (a == b) = true) : a = b ∧ b ≠ undef := by
  cases a with
  | num p =>
      cases b with
      | num q => exact ⟨congrArg num (of_decide_eq_true h), fun heq => (nomatch heq)⟩
      | posInf | negInf | undef => cases h
  | posInf | negInf =>
      cases b with
      | posInf | negInf => first | exact ⟨rfl, fun heq => (nomatch heq)⟩ | cases h
      | num q | undef => cases h
  | undef => cases h

theorem num_beq_zero {q : ℚ} : (num q == (0 : ExtRat)) = decide (q = 0) := num_beq q 0

@[simp] theorem num_lt_posInf (q : ℚ) : num q < posInf := rfl

@[simp] theorem num_le_posInf (q : ℚ) : num q ≤ posInf := rfl

@[simp] theorem negInf_lt_posInf : negInf < posInf := rfl

@[simp] theorem negInf_lt_num (q : ℚ) : negInf < num q := rfl

@[simp] theorem not_lt_negInf (a : ExtRat) : ¬ a < negInf := fun h => by cases a <;> nomatch h

@[simp] theorem not_lt_undef (a : ExtRat) : ¬ a < undef := fun h => by cases a <;> nomatch h

@[simp] theorem not_num_le_negInf (q : ℚ) : ¬ num q ≤ negInf := fun h => nomatch h

@[simp] theorem not_num_le_undef (q : ℚ) : ¬ num q ≤ undef := fun h => nomatch h

@[simp] theorem not_posInf_lt (a : ExtRat) : ¬ posInf < a := fun h => by cases a <;> nomatch h

@[simp] theorem not_undef_lt (a : ExtRat) : ¬ undef < a := fun h => by cases a <;> nomatch h

@[simp] theorem not_undef_le (a : ExtRat) : ¬ undef ≤ a := fun h => by cases a <;> nomatch h

/-- Only a greater number or infinity is above a number. -/
theorem num_le_cases {q : ℚ} {a : ExtRat} (h : num q ≤ a) :
    a = posInf ∨ ∃ p, a = num p ∧ q ≤ p := by
  cases a with
  | num p => exact .inr ⟨p, rfl, num_le.mp h⟩
  | posInf => exact .inl rfl
  | negInf => exact absurd h (not_num_le_negInf q)
  | undef => exact absurd h (not_num_le_undef q)

/-- A value that is not negative is a number or infinity. -/
theorem nonneg_cases {a : ExtRat} (h : 0 ≤ a) : a = posInf ∨ ∃ q, a = num q ∧ 0 ≤ q :=
  num_le_cases h

theorem not_neg_of_nonneg {a : ExtRat} (h : 0 ≤ a) : ¬ a < 0 := by
  rcases nonneg_cases h with rfl | ⟨q, rfl, hq⟩
  · exact not_posInf_lt 0
  · exact fun hlt => not_lt.mpr hq (num_lt.mp hlt)

theorem num_le_of_le {p q : ℚ} {a : ExtRat} (hpq : p ≤ q) (h : num q ≤ a) : num p ≤ a := by
  rcases num_le_cases h with rfl | ⟨r, rfl, hr⟩
  · exact num_le_posInf p
  · exact num_le.mpr (hpq.trans hr)

@[simp] theorem posInf_le_iff {a : ExtRat} : posInf ≤ a ↔ a = posInf := by
  cases a with
  | posInf => exact ⟨fun _ => rfl, fun _ => rfl⟩
  | num q | negInf | undef => exact ⟨fun h => (nomatch h), fun h => (nomatch h)⟩

@[simp] theorem negInf_le_iff {a : ExtRat} : negInf ≤ a ↔ a ≠ undef := by
  cases a with
  | undef => exact ⟨fun h => (nomatch h), fun h => absurd rfl h⟩
  | num q | posInf | negInf => exact ⟨fun _ h => (nomatch h), fun _ => rfl⟩

theorem le_posInf_iff {a : ExtRat} : a ≤ posInf ↔ a ≠ undef := by
  cases a with
  | undef => exact ⟨fun h => (nomatch h), fun h => absurd rfl h⟩
  | num q | posInf | negInf => exact ⟨fun _ h => (nomatch h), fun _ => rfl⟩

/-- Any two defined values compare. -/
theorem le_or_le {a b : ExtRat} (ha : a ≠ undef) (hb : b ≠ undef) : a ≤ b ∨ b ≤ a := by
  cases a with
  | num p =>
      cases b with
      | num q => exact (le_total p q).imp num_le.mpr num_le.mpr
      | posInf => exact .inl rfl
      | negInf => exact .inr rfl
      | undef => exact absurd rfl hb
  | posInf => exact .inr (le_posInf_iff.mpr hb)
  | negInf => exact .inl (negInf_le_iff.mpr hb)
  | undef => exact absurd rfl ha

theorem lt_iff {a b : ExtRat} : a < b ↔ a ≤ b ∧ ¬ b ≤ a := by
  cases a with
  | num p =>
      cases b with
      | num q => rw [num_lt, num_le, num_le, lt_iff_le_not_ge]
      | posInf | negInf | undef => simp
  | posInf | negInf | undef => cases b <;> simp

/-- Only what is defined compares with anything. -/
theorem ne_undef_of_le {a b : ExtRat} (h : a ≤ b) : a ≠ undef ∧ b ≠ undef := by
  constructor
  · rintro rfl
    exact not_undef_le b h
  · rintro rfl
    cases a <;> nomatch h

/-- Only a number or infinity is above a number, and what is below that number is below it. -/
theorem lt_of_lt_of_num_le {a b : ExtRat} {q : ℚ} (h : a < num q) (h' : num q ≤ b) : a < b := by
  rcases num_le_cases h' with rfl | ⟨r, rfl, hr⟩
  · cases a with
    | num p => exact num_lt_posInf p
    | negInf => exact negInf_lt_posInf
    | posInf => exact absurd h (not_posInf_lt _)
    | undef => exact absurd h (not_undef_lt _)
  · cases a with
    | num p => exact num_lt.mpr ((num_lt.mp h).trans_le hr)
    | negInf => exact negInf_lt_num r
    | posInf => exact absurd h (not_posInf_lt _)
    | undef => exact absurd h (not_undef_lt _)

theorem le_self {a : ExtRat} (h : a ≠ undef) : a ≤ a := by
  cases a with
  | num q => exact num_le.mpr le_rfl
  | posInf | negInf => rfl
  | undef => exact absurd rfl h

protected theorem le_antisymm {a b : ExtRat} (h : a ≤ b) (h' : b ≤ a) : a = b := by
  cases a with
  | num p =>
      rcases num_le_cases h with rfl | ⟨q, rfl, hpq⟩
      · exact (posInf_le_iff.mp h').symm ▸ rfl
      · rw [le_antisymm hpq (num_le.mp h')]
  | posInf => exact (posInf_le_iff.mp h).symm
  | negInf =>
      cases b with
      | negInf => rfl
      | num q | posInf | undef => nomatch h'
  | undef => exact absurd h (not_undef_le b)

protected theorem le_trans {a b c : ExtRat} (h : a ≤ b) (h' : b ≤ c) : a ≤ c := by
  cases a with
  | num p =>
      rcases num_le_cases h with rfl | ⟨q, rfl, hq⟩
      · exact posInf_le_iff.mp h' ▸ num_le_posInf p
      · exact num_le_of_le hq h'
  | posInf => exact posInf_le_iff.mp h ▸ h'
  | negInf => exact negInf_le_iff.mpr (ne_undef_of_le h').2
  | undef => exact absurd h (not_undef_le b)

/-! ### The greater of two -/

@[simp] theorem isUndefined_num (q : ℚ) : isUndefined (num q) = false := by
  simp [isUndefined, num_beq]

@[simp] theorem isUndefined_posInf : isUndefined posInf = false := rfl

@[simp] theorem isUndefined_negInf : isUndefined negInf = false := rfl

@[simp] theorem isUndefined_undef : isUndefined undef = true := rfl

theorem isUndefined_eq_false_iff {a : ExtRat} : isUndefined a = false ↔ a ≠ undef := by
  cases a <;> simp

theorem greater_num (p q : ℚ) : greater (num p) (num q) = num (max p q) := by
  simp only [greater, isUndefined_num, Bool.false_eq_true, if_false, num_lt]
  split
  · rename_i h; rw [max_eq_right h.le]
  · rename_i h; rw [max_eq_left (not_lt.mp h)]

theorem greater_negInf (q : ℚ) : greater negInf (num q) = num q := by
  simp [greater]

theorem greater_negInf_right (q : ℚ) : greater (num q) negInf = num q := by
  simp [greater]

/-- A number is below the greater of two values if it is below one of them. -/
theorem num_le_greater_iff {q : ℚ} {a b : ExtRat} :
    num q ≤ greater a b ↔ num q ≤ a ∨ num q ≤ b := by
  cases a with
  | num p =>
      cases b with
      | num r => rw [greater_num, num_le, num_le, num_le, le_max_iff]
      | posInf | negInf | undef => simp [greater]
  | posInf | negInf | undef => cases b <;> simp [greater]

theorem greater_le {a b c : ExtRat} (ha : a ≤ c) (hb : b ≤ c) : greater a b ≤ c :=
  greater_ind (P := (· ≤ c)) ha hb

theorem le_greater_left {a : ExtRat} (h : a ≠ undef) (b : ExtRat) : a ≤ greater a b := by
  cases a with
  | num q => exact num_le_greater_iff.mpr (.inl (num_le.mpr le_rfl))
  | negInf => cases b <;> simp [greater]
  | posInf => cases b <;> simp [greater]
  | undef => exact absurd rfl h

theorem le_greater_right (a : ExtRat) {b : ExtRat} (h : b ≠ undef) : b ≤ greater a b := by
  cases b with
  | num q => exact num_le_greater_iff.mpr (.inr (num_le.mpr le_rfl))
  | negInf => cases a <;> simp [greater]
  | posInf => cases a <;> simp [greater]
  | undef => exact absurd rfl h

protected theorem add_zero (a : ExtRat) : a + 0 = a := by
  cases a with
  | num q => rw [zero_eq, num_add, add_zero]
  | posInf | negInf | undef => rfl

theorem num_le_add {q v : ℚ} {a : ExtRat} (h : num (q - v) ≤ a) : num q ≤ num v + a := by
  rcases num_le_cases h with rfl | ⟨p, rfl, hp⟩
  · exact num_le_posInf q
  · rw [num_add, num_le]
    linarith

/-! ### Absolute values and sums -/

theorem absolute_num (q : ℚ) : absolute (num q) = num |q| := by
  simp only [absolute, zero_eq, num_lt]
  split
  · rename_i h; rw [num_neg, abs_of_neg h]
  · rename_i h; rw [abs_of_nonneg (not_lt.mp h)]

theorem total_map_num (xs : List ℚ) : total (xs.map num) = num xs.sum := by
  induction xs using List.reverseRecOn with
  | nil => rfl
  | append_singleton xs q ih =>
      rw [List.map_append, List.map_singleton, total_append_singleton, ih, num_add]
      simp

/-- `Σ aᵢ bᵢ` over the common length. -/
def innerProd (a b : List ℚ) : ℚ := (List.zipWith (· * ·) a b).sum

theorem dot_map_num (a b : List ℚ) : dot (a.map num) (b.map num) = num (innerProd a b) := by
  have hz : List.zipWith (· * ·) (a.map num) (b.map num)
      = (List.zipWith (· * ·) a b).map num := by
    rw [List.zipWith_map, List.map_zipWith]
    rfl
  rw [dot, hz, total_map_num, innerProd]

/-! ### Roundings -/

theorem floor_num (q : ℚ) : Scalar.floor (num q) = num ⌊q⌋ := rfl

theorem ceil_num (q : ℚ) : Scalar.ceil (num q) = num ⌈q⌉ :=
  congrArg (fun k : ℤ => num k) (Rat.ceil_eq_neg_floor_neg q)

theorem round_num (q : ℚ) : Scalar.round (num q) = num (nearest q) := rfl

theorem nearest_of_nonneg {q : ℚ} (h : 0 ≤ q) : nearest q = ⌊q + 1 / 2⌋ := by
  have half : mkRat 1 2 = 1 / 2 := by norm_num
  rw [nearest, if_neg (by simpa using h), half]
  rfl

theorem nearest_of_neg {q : ℚ} (h : q < 0) : nearest q = -⌊-q + 1 / 2⌋ := by
  have half : mkRat 1 2 = 1 / 2 := by norm_num
  rw [nearest, if_pos (by simpa using h), half]
  rfl

theorem nearest_nonneg {q : ℚ} (h : 0 ≤ q) : 0 ≤ nearest q := by
  rw [nearest_of_nonneg h]
  positivity

theorem abs_sub_nearest_le (q : ℚ) : |q - nearest q| ≤ 1 / 2 := by
  rw [abs_le]
  rcases le_or_gt 0 q with h | h
  · have below := Int.floor_le (q + 1 / 2)
    have above := Int.lt_floor_add_one (q + 1 / 2)
    rw [nearest_of_nonneg h]
    constructor <;> linarith
  · have below := Int.floor_le (-q + 1 / 2)
    have above := Int.lt_floor_add_one (-q + 1 / 2)
    rw [nearest_of_neg h]
    push_cast
    constructor <;> linarith

theorem nearest_intCast (k : ℤ) : nearest k = k := by
  have near : |((k - nearest k : ℤ) : ℚ)| < 1 := by
    push_cast
    linarith [abs_sub_nearest_le k]
  have zero : k - nearest k = 0 := Int.abs_lt_one_iff.mp (by exact_mod_cast near)
  omega

theorem fractionality_num (q : ℚ) : fractionality (num q) = num |q - nearest q| := by
  rw [fractionality, round_num, num_sub, absolute_num]

/-- How far a number within a tolerance of an integer can be from it: no farther than one half,
whatever the tolerance. -/
def reach : ExtRat → ℚ
  | num t => min t (1 / 2)
  | _ => 1 / 2

theorem reach_nonneg {tol : ExtRat} (h : 0 ≤ tol) : 0 ≤ reach tol := by
  rcases nonneg_cases h with rfl | ⟨t, rfl, ht⟩
  · norm_num [reach]
  · exact le_min ht (by norm_num)

theorem reach_zero : reach 0 = 0 := by
  norm_num [reach, zero_eq]

/-- Only a number is within a tolerance of an integer. -/
theorem exists_num_of_fractionality_le {a tol : ExtRat} (h : fractionality a ≤ tol) :
    ∃ q, a = num q ∧ |q - nearest q| ≤ reach tol := by
  cases a with
  | num q =>
      refine ⟨q, rfl, ?_⟩
      rw [fractionality_num] at h
      rcases num_le_cases h with rfl | ⟨t, rfl, ht⟩
      · exact abs_sub_nearest_le q
      · exact le_min ht (abs_sub_nearest_le q)
  | posInf | negInf | undef => exact absurd h (not_undef_le tol)

/-- How much a sum may move whose terms of total weight `weight` move by a tolerance: nothing if
there is no weight, however large the tolerance. -/
def slack (tol weight : ExtRat) : ExtRat := greater 0 (tol * weight)

theorem slack_num {t w : ℚ} (h : 0 ≤ t * w) : slack (num t) (num w) = num (t * w) := by
  rw [slack, num_mul, zero_eq, greater_num, max_eq_right h]

theorem posInf_mul_num {w : ℚ} (h : 0 < w) : posInf * num w = posInf := by
  change infinityLike w = posInf
  rw [infinityLike, if_neg (by simpa using h.ne'), if_neg (by simpa using h.le)]

theorem reach_mul_le {tol : ExtRat} (h : 0 ≤ tol) {w : ℚ} (hw : 0 ≤ w) :
    num (reach tol * w) ≤ slack tol (num w) := by
  rcases nonneg_cases h with rfl | ⟨t, rfl, ht⟩
  · rcases hw.eq_or_lt with rfl | hpos
    · rw [mul_zero]
      exact num_le_greater_iff.mpr (.inl (num_le.mpr le_rfl))
    · rw [slack, posInf_mul_num hpos]
      exact num_le_greater_iff.mpr (.inr (num_le_posInf _))
  · rw [slack, num_mul]
    exact num_le_greater_iff.mpr
      (.inr (num_le.mpr (mul_le_mul_of_nonneg_right (min_le_left t _) hw)))

end ExtRat

end IntegerProgramming
