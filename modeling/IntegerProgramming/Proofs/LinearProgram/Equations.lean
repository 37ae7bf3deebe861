import Mathlib
import IntegerProgramming.Arithmetic.Exact
import IntegerProgramming.LinearProgram.Equation

/-!
# Linear equations — what row operations do

Equations over the rationals, at a valuation `v` of the variables: the left-hand side
`Σ coeffⱼ · vⱼ` (`Equation.lhs`), and whether the equation holds there (`Equation.Holds`).

Every row operation but a division adds a multiple of one equation to another (`Equation.Sum`), and
all that is needed of it follows from that: the left-hand sides add up (`Equation.Sum.lhs_eq`), so
an equation that holds can be added to another without changing when that one holds
(`Equation.Sum.holds_iff`).
-/

namespace IntegerProgramming.LinearProgram.Equation

/-! ### Values -/

/-- `Σ coeffⱼ · vⱼ` over the first `n` columns. -/
def lhs (n : ℕ) (e : Equation ℚ) (v : ℕ → ℚ) : ℚ :=
  ∑ j ∈ Finset.range n, e.coeff j * v j

/-- The two sides are equal at the valuation. -/
def Holds (n : ℕ) (e : Equation ℚ) (v : ℕ → ℚ) : Prop :=
  e.lhs n v = e.rhs

theorem coeff_of_le {e : Equation ℚ} {j : ℕ} (h : e.coeffs.length ≤ j) : e.coeff j = 0 :=
  List.getD_eq_default _ _ h

/-- A single column, whether it counts or not. -/
theorem sum_single {n : ℕ} {e : Equation ℚ} (h : e.coeffs.length = n) (j : ℕ) (θ : ℚ) :
    (∑ k ∈ Finset.range n, if k = j then e.coeff j * θ else 0) = e.coeff j * θ := by
  rw [Finset.sum_ite_eq']
  split
  · rfl
  · rename_i hj
    rw [coeff_of_le (by rw [Finset.mem_range] at hj; omega), zero_mul]

theorem lhs_combination (n : ℕ) (e : Equation ℚ) (v w : ℕ → ℚ) (s t : ℚ) :
    e.lhs n (fun j => s * v j + t * w j) = s * e.lhs n v + t * e.lhs n w := by
  simp only [lhs, Finset.mul_sum, ← Finset.sum_add_distrib]
  exact Finset.sum_congr rfl fun j _ => by ring

/-! ### Division -/

theorem coeff_divide (e : Equation ℚ) (p : ℚ) (j : ℕ) : (e.divide p).coeff j = e.coeff j / p := by
  calc (e.coeffs.map (· / p)).getD j 0
      = (e.coeffs.map (· / p)).getD j (0 / p) := by rw [zero_div]
    _ = e.coeffs.getD j 0 / p := List.getD_map ..

theorem rhs_divide (e : Equation ℚ) (p : ℚ) : (e.divide p).rhs = e.rhs / p := rfl

theorem lhs_divide (n : ℕ) (e : Equation ℚ) (p : ℚ) (v : ℕ → ℚ) :
    (e.divide p).lhs n v = e.lhs n v / p := by
  simp only [lhs, Finset.sum_div]
  exact Finset.sum_congr rfl fun j _ => by rw [coeff_divide]; ring

theorem holds_divide_iff {n : ℕ} {e : Equation ℚ} {p : ℚ} (hp : p ≠ 0) {v : ℕ → ℚ} :
    (e.divide p).Holds n v ↔ e.Holds n v := by
  rw [Holds, Holds, lhs_divide, rhs_divide, div_left_inj' hp]

/-! ### Sums -/

/-- The first equation is the second with `k` times the third added to it. -/
structure Sum (f e : Equation ℚ) (k : ℚ) (e' : Equation ℚ) : Prop where
  length : f.coeffs.length = e.coeffs.length
  coeff : ∀ j, f.coeff j = e.coeff j + k * e'.coeff j
  rhs : f.rhs = e.rhs + k * e'.rhs

theorem Sum.lhs_eq {f e e' : Equation ℚ} {k : ℚ} (h : Sum f e k e') (n : ℕ) (v : ℕ → ℚ) :
    f.lhs n v = e.lhs n v + k * e'.lhs n v := by
  simp only [lhs, Finset.mul_sum, ← Finset.sum_add_distrib]
  exact Finset.sum_congr rfl fun j _ => by rw [h.coeff]; ring

/-- An equation that holds changes nothing. -/
theorem Sum.holds_iff {f e e' : Equation ℚ} {k : ℚ} (h : Sum f e k e') {n : ℕ} {v : ℕ → ℚ}
    (h' : e'.Holds n v) : f.Holds n v ↔ e.Holds n v := by
  rw [Holds, Holds, h.lhs_eq, h.rhs, h', add_left_inj]

theorem coeff_combine {f : ℚ → ℚ → ℚ} (zero : f 0 0 = 0) {e e' : Equation ℚ}
    (h : e'.coeffs.length = e.coeffs.length) (j : ℕ) :
    (e.combine f e').coeff j = f (e.coeff j) (e'.coeff j) := by
  simp only [coeff, combine]
  rcases lt_or_ge j e.coeffs.length with hj | hj
  · have hz : j < (List.zipWith f e.coeffs e'.coeffs).length := by
      rw [List.length_zipWith]
      omega
    rw [List.getD_eq_getElem _ _ hz, List.getD_eq_getElem _ _ hj, List.getD_eq_getElem _ _ (h ▸ hj),
      List.getElem_zipWith]
  · have hz : (List.zipWith f e.coeffs e'.coeffs).length ≤ j := by
      rw [List.length_zipWith]
      omega
    rw [List.getD_eq_default _ _ hz, List.getD_eq_default _ _ hj, List.getD_eq_default _ _ (h ▸ hj)]
    exact zero.symm

theorem sum_plusMultiple {e e' : Equation ℚ} (k : ℚ) (h : e'.coeffs.length = e.coeffs.length) :
    Sum (e.plusMultiple k e') e k e' where
  length := by simp [plusMultiple, h]
  coeff j := coeff_combine (f := fun a b => a + k * b) (by simp) h j
  rhs := rfl

theorem sum_minus {e e' : Equation ℚ} (h : e'.coeffs.length = e.coeffs.length) :
    Sum (e.minus e') e (-1) e' where
  length := by simp [minus, h]
  coeff j := (coeff_combine (f := fun a b => a - b) (by simp) h j).trans (by ring)
  rhs := (show (e.minus e').rhs = e.rhs - e'.rhs from rfl).trans (by ring)

theorem sum_minusMultiple {e e' : Equation ℚ} (k : ℚ) (h : e'.coeffs.length = e.coeffs.length) :
    Sum (e.minusMultiple k e') e (-k) e' where
  length := by simp [minusMultiple, h]
  coeff j := (coeff_combine (f := fun a b => a - k * b) (by simp) h j).trans (by ring)
  rhs := (show (e.minusMultiple k e').rhs = e.rhs - k * e'.rhs from rfl).trans (by ring)

/-- Nothing is added where there is nothing to clear. -/
theorem Sum.refl (e e' : Equation ℚ) : Sum e e 0 e' where
  length := rfl
  coeff j := by ring
  rhs := by ring

theorem sum_clear {e unit : Equation ℚ} (j : ℕ) (h : unit.coeffs.length = e.coeffs.length) :
    Sum (e.clear j unit) e (-e.coeff j) unit := by
  rw [clear]
  split
  · rename_i hzero
    have : e.coeff j = 0 := of_decide_eq_true hzero
    rw [this, neg_zero]
    exact .refl e unit
  · exact sum_minusMultiple (e.coeff j) h

end IntegerProgramming.LinearProgram.Equation
