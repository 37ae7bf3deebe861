import Mathlib
import IntegerProgramming.Proofs.Exact.Order

/-!
# Arithmetic — laws of comparison

What the comparisons of a `Scalar` have to obey for a search to make sense, and no more: the defined
values are in a total order between the two infinities, and the undefined one compares with nothing.
Nothing is said of sums and products, so the laws hold under rounding as well as exactly; where the
gap between two bounds counts, `LawfulDistance` adds that there is none between equal numbers, and
where data are read and cut at integers, `LawfulNumbers` adds that this leads to numbers.

* `LawfulScalar`: the laws, and that the exact numbers have them.
* `LawfulScalar.not_lt_iff`, `LawfulScalar.lt_of_le_of_lt`, …: what follows for the two comparisons.
* `LawfulScalar.greater_le_iff`, `LawfulScalar.le_lesser_iff`: what is above the greater of two
  values, and what is below the lesser.
-/

namespace IntegerProgramming

/-- Comparisons that order the defined values. -/
class LawfulScalar (α : Type) [Scalar α] : Prop where
  /-- Only defined values compare. -/
  defined_of_le {a b : α} : a ≤ b → isUndefined a = false ∧ isUndefined b = false
  /-- Any two defined values compare. -/
  le_total {a b : α} : isUndefined a = false → isUndefined b = false → a ≤ b ∨ b ≤ a
  le_trans {a b c : α} : a ≤ b → b ≤ c → a ≤ c
  /-- The strict comparison goes with the weak one. -/
  lt_iff {a b : α} : a < b ↔ a ≤ b ∧ ¬ b ≤ a
  negInfinity_le {a : α} : isUndefined a = false → -infinity ≤ a
  le_infinity {a : α} : isUndefined a = false → a ≤ infinity
  finite_zero : isFinite (0 : α) = true
  /-- The distance of a number to an integer is defined. -/
  defined_fractionality {a : α} : isFinite a = true → isUndefined (fractionality a) = false

instance : LawfulScalar ExtRat where
  defined_of_le h := (ExtRat.ne_undef_of_le h).imp ExtRat.isUndefined_eq_false_iff.mpr
    ExtRat.isUndefined_eq_false_iff.mpr
  le_total ha hb := ExtRat.le_or_le (ExtRat.isUndefined_eq_false_iff.mp ha)
    (ExtRat.isUndefined_eq_false_iff.mp hb)
  le_trans := ExtRat.le_trans
  lt_iff := ExtRat.lt_iff
  negInfinity_le h := ExtRat.negInf_le_iff.mpr (ExtRat.isUndefined_eq_false_iff.mp h)
  le_infinity h := ExtRat.le_posInf_iff.mpr (ExtRat.isUndefined_eq_false_iff.mp h)
  finite_zero := rfl
  defined_fractionality {a} h := by
    cases a with
    | num q =>
        rw [ExtRat.fractionality_num]
        exact ExtRat.isUndefined_num _
    | posInf | negInf | undef => cases h

/-- Comparisons that order the defined values, and equal numbers are no distance apart. -/
class LawfulDistance (α : Type) [Scalar α] : Prop extends LawfulScalar α where
  absolute_sub_le {a b : α} : isFinite a = true → a ≤ b → b ≤ a → absolute (a - b) ≤ 0

instance : LawfulDistance ExtRat where
  absolute_sub_le {a _} h hab hba := by
    cases a with
    | num q =>
        rcases ExtRat.num_le_cases hab with rfl | ⟨r, rfl, hqr⟩
        · cases ExtRat.posInf_le_iff.mp hba
        · have hsub : q - r = 0 := sub_eq_zero.mpr (le_antisymm hqr (ExtRat.num_le.mp hba))
          rw [ExtRat.num_sub, ExtRat.absolute_num, hsub, abs_zero]
          exact ExtRat.num_le.mpr le_rfl
    | posInf | negInf | undef => cases h

/-- Comparisons that order the defined values, which agree with equality, and integers next to a
number that are numbers. -/
class LawfulNumbers (α : Type) [Scalar α] : Prop extends LawfulScalar α where
  /-- Equal values do not exceed each other. -/
  le_of_beq {a b : α} : (a == b) = true → a ≤ b ∧ b ≤ a
  finite_floor {a : α} : isFinite a = true → isFinite (Scalar.floor a) = true
  finite_ceil {a : α} : isFinite a = true → isFinite (Scalar.ceil a) = true

instance : LawfulNumbers ExtRat where
  le_of_beq h := by
    obtain ⟨rfl, defined⟩ := ExtRat.eq_of_beq h
    exact ⟨ExtRat.le_self defined, ExtRat.le_self defined⟩
  finite_floor {a} h := by
    cases a with
    | num q => rfl
    | posInf | negInf | undef => cases h
  finite_ceil {a} h := by
    cases a with
    | num q => rfl
    | posInf | negInf | undef => cases h

namespace LawfulScalar

variable {α : Type} [Scalar α] [LawfulScalar α] {a b c : α}

/-! ### The two comparisons -/

theorem le_of_lt (h : a < b) : a ≤ b := (lt_iff.mp h).1

theorem not_lt_of_le (h : a ≤ b) : ¬ b < a := fun hlt => (lt_iff.mp hlt).2 h

theorem lt_irrefl (a : α) : ¬ a < a := fun h => not_lt_of_le (le_of_lt h) h

theorem defined_of_lt (h : a < b) : isUndefined a = false ∧ isUndefined b = false :=
  defined_of_le (le_of_lt h)

theorem le_refl (h : isUndefined a = false) : a ≤ a := (le_total h h).elim id id

theorem not_lt_iff (ha : isUndefined a = false) (hb : isUndefined b = false) :
    ¬ a < b ↔ b ≤ a := by
  refine ⟨fun h => ?_, not_lt_of_le⟩
  rcases le_total ha hb with hle | hle
  · exact not_not.mp fun hnot => h (lt_iff.mpr ⟨hle, hnot⟩)
  · exact hle

theorem lt_of_le_of_lt (hab : a ≤ b) (hbc : b < c) : a < c :=
  lt_iff.mpr ⟨le_trans hab (le_of_lt hbc), fun hca => not_lt_of_le (le_trans hca hab) hbc⟩

theorem lt_of_lt_of_le (hab : a < b) (hbc : b ≤ c) : a < c :=
  lt_iff.mpr ⟨le_trans (le_of_lt hab) hbc, fun hca => not_lt_of_le (le_trans hbc hca) hab⟩

theorem lt_trans (hab : a < b) (hbc : b < c) : a < c := lt_of_le_of_lt (le_of_lt hab) hbc

theorem defined_of_isFinite (h : isFinite a = true) : isUndefined a = false := by
  rw [isFinite, Bool.and_eq_true, decide_eq_true_eq] at h
  exact (defined_of_lt h.1).2

/-- What equals a number is one. -/
theorem isFinite_of_beq {α : Type} [Scalar α] [LawfulNumbers α] {a b : α} (h : (a == b) = true)
    (finite : isFinite b = true) : isFinite a = true := by
  obtain ⟨hab, hba⟩ := LawfulNumbers.le_of_beq h
  rw [isFinite, Bool.and_eq_true, decide_eq_true_eq, decide_eq_true_eq] at finite ⊢
  exact ⟨lt_of_lt_of_le finite.1 hba, lt_of_le_of_lt hab finite.2⟩

theorem defined_zero : isUndefined (0 : α) = false := defined_of_isFinite finite_zero

theorem defined_infinity : isUndefined (infinity : α) = false :=
  (defined_of_le (le_infinity defined_zero)).2

theorem defined_negInfinity : isUndefined (-infinity : α) = false :=
  (defined_of_le (negInfinity_le defined_zero)).1

theorem not_isFinite_negInfinity : isFinite (-infinity : α) = false := by
  simp [isFinite, lt_irrefl]

/-! ### The greater and the lesser of two -/

theorem greater_of_lt (h : a < b) : greater a b = b := by
  obtain ⟨ha, hb⟩ := defined_of_lt h
  simp [greater, ha, hb, h]

omit [LawfulScalar α] in
/-- What does not exceed a defined value leaves it. -/
theorem greater_of_not_lt (ha : isUndefined a = false) (h : ¬ a < b) : greater a b = a := by
  simp [greater, ha, h]

theorem lesser_of_lt (h : b < a) : lesser a b = b := by
  obtain ⟨hb, ha⟩ := defined_of_lt h
  simp [lesser, ha, hb, h]

omit [LawfulScalar α] in
/-- What a defined value does not exceed leaves it. -/
theorem lesser_of_not_lt (ha : isUndefined a = false) (h : ¬ b < a) : lesser a b = a := by
  simp [lesser, ha, h]

theorem le_greater_left (ha : isUndefined a = false) (b : α) : a ≤ greater a b := by
  by_cases h : a < b
  · rw [greater_of_lt h]
    exact le_of_lt h
  · rw [greater_of_not_lt ha h]
    exact le_refl ha

theorem le_greater_right (a : α) (hb : isUndefined b = false) : b ≤ greater a b := by
  by_cases h : a < b
  · rw [greater_of_lt h]
    exact le_refl hb
  · cases ha : isUndefined a with
    | true =>
        rw [greater, if_pos ha]
        exact le_refl hb
    | false =>
        rw [greater_of_not_lt ha h]
        exact (not_lt_iff ha hb).mp h

theorem greater_le_iff (ha : isUndefined a = false) (hb : isUndefined b = false) :
    greater a b ≤ c ↔ a ≤ c ∧ b ≤ c := by
  by_cases h : a < b
  · rw [greater_of_lt h]
    exact ⟨fun hbc => ⟨le_trans (le_of_lt h) hbc, hbc⟩, And.right⟩
  · rw [greater_of_not_lt ha h]
    exact ⟨fun hac => ⟨hac, le_trans ((not_lt_iff ha hb).mp h) hac⟩, And.left⟩

theorem le_lesser_iff (ha : isUndefined a = false) (hb : isUndefined b = false) :
    c ≤ lesser a b ↔ c ≤ a ∧ c ≤ b := by
  by_cases h : b < a
  · rw [lesser_of_lt h]
    exact ⟨fun hcb => ⟨le_trans hcb (le_of_lt h), hcb⟩, And.right⟩
  · rw [lesser_of_not_lt ha h]
    exact ⟨fun hca => ⟨hca, le_trans hca ((not_lt_iff hb ha).mp h)⟩, And.left⟩

end LawfulScalar

end IntegerProgramming
