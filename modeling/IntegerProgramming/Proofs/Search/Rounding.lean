import Mathlib
import IntegerProgramming.Proofs.Search.Snapping

/-!
# Search — what the rounding heuristic finds

At a point of numbers, the rounding heuristic looks at four integer points, one of which a coin
chooses between the others coordinate by coordinate.  Of the coin nothing is asked but that it
decides where it is given a probability, and that it leaves no doubt where there is none
(`Coin.Honest`).

* `Coin.honest_ofWords`: a source of words makes an honest coin.
* `Rounding.point_find`: **the heuristic finds the first of its candidates that satisfies the
  constraints.**
* `Program.Integral.activities_le`: a program of integers has no use for a tolerance below one.
* `Rounding.find_spec`: **what is found is a nonnegative integer point next to the given one, or
  zero, and satisfies the constraints**; if nothing is found, then the three points that need no
  coin do not satisfy them.
-/

namespace IntegerProgramming

open ExtRat (num)

/-! ### Integers -/

namespace ExtRat

/-- The value is an integer. -/
def IsInteger (a : ExtRat) : Prop := ∃ k : ℤ, a = num k

theorem isInteger_iff {a : ExtRat} :
    a.IsInteger ↔ isFinite a = true ∧ Scalar.floor a = a := by
  constructor
  · rintro ⟨k, rfl⟩
    exact ⟨isFinite_iff.mpr ⟨k, rfl⟩, by rw [floor_num, Int.floor_intCast]⟩
  · rintro ⟨finite, floor⟩
    obtain ⟨q, rfl⟩ := isFinite_iff.mp finite
    exact ⟨⌊q⌋, floor.symm⟩

instance (a : ExtRat) : Decidable a.IsInteger := decidable_of_iff _ isInteger_iff.symm

theorem IsInteger.mul {a b : ExtRat} (ha : a.IsInteger) (hb : b.IsInteger) :
    (a * b).IsInteger := by
  obtain ⟨k, rfl⟩ := ha
  obtain ⟨l, rfl⟩ := hb
  exact ⟨k * l, by rw [num_mul, Int.cast_mul]⟩

theorem isInteger_total {xs : List ExtRat} (h : ∀ a ∈ xs, a.IsInteger) :
    (total xs).IsInteger := by
  induction xs using List.reverseRecOn with
  | nil => exact ⟨0, rfl⟩
  | append_singleton xs a ih =>
      obtain ⟨before, last⟩ := List.forall_mem_append.mp h
      obtain ⟨k, hk⟩ := ih before
      obtain ⟨l, rfl⟩ := last a (List.mem_singleton_self a)
      exact ⟨k + l, by rw [total_append_singleton, hk, num_add, Int.cast_add]⟩

theorem isInteger_getD_lattice (z : List ℤ) (j : ℕ) : ((nums (lattice z)).getD j 0).IsInteger := by
  have zero : (0 : ℚ) = ((0 : ℤ) : ℚ) := Int.cast_zero.symm
  exact ⟨z.getD j 0, by rw [getD_nums, lattice, zero, List.getD_map]⟩

/-- Between integers there is no room for a tolerance below one. -/
theorem IsInteger.le_of_le_add {a b : ExtRat} (ha : a.IsInteger) (hb : b.IsInteger)
    (h : a ≤ b + Rounding.tolerance) : a ≤ b := by
  obtain ⟨k, rfl⟩ := ha
  obtain ⟨l, rfl⟩ := hb
  obtain ⟨t, ht, -, ht1⟩ := tolerance_num
  rw [ht, num_add, num_le] at h
  have lt : (k : ℚ) < l + 1 := by linarith
  exact num_le.mpr (Int.cast_le.mpr (Int.lt_add_one_iff.mp (by exact_mod_cast lt)))

end ExtRat

/-! ### Activities -/

namespace Program

/-- A point that satisfies the constraints exceeds no limit by more than the tolerance. -/
theorem Regular.activities_le {p : Program ExtRat} (h : p.Regular) {x : List ExtRat} {tol : ExtRat}
    (satisfied : p.satisfies x tol = true) : ∃ activities, p.activities? x = some activities
      ∧ List.Forall₂ (fun a b => a ≤ b + tol) activities p.limits := by
  obtain ⟨hx, -, activities, hactivities, within⟩ := satisfies_iff.mp satisfied
  exact ⟨activities, hactivities, (h.withinLimits_iff hx hactivities).mp within⟩

/-- All coefficients and limits are integers. -/
structure Integral (p : Program ExtRat) : Prop where
  entries : ∀ row ∈ p.matrix.rowEntries, ∀ entry ∈ row, entry.2.IsInteger
  limits : ∀ b ∈ p.limits, b.IsInteger

instance (p : Program ExtRat) : Decidable p.Integral :=
  decidable_of_iff
    ((∀ row ∈ p.matrix.rowEntries, ∀ entry ∈ row, entry.2.IsInteger) ∧ ∀ b ∈ p.limits, b.IsInteger)
    ⟨fun ⟨h₁, h₂⟩ => ⟨h₁, h₂⟩, fun h => ⟨h.entries, h.limits⟩⟩

/-- At an integer point the left-hand sides are integers. -/
theorem Integral.activities {p : Program ExtRat} (integral : p.Integral) (regular : p.Regular)
    {z : List ℤ} (hz : z.length = p.numVars) {activities : List ExtRat}
    (h : p.activities? (nums (lattice z)) = some activities) : ∀ a ∈ activities, a.IsInteger := by
  have length : (nums (lattice z)).length = p.numVars := by simpa using hz
  rw [← Option.some.inj ((regular.activities?_eq length).symm.trans h), List.forall_mem_map]
  intro row hrow
  rw [SparseMatrix.rowProduct]
  refine ExtRat.isInteger_total ?_
  rw [List.forall_mem_map]
  exact fun entry hentry =>
    (integral.entries row hrow entry hentry).mul (ExtRat.isInteger_getD_lattice z entry.1)

/-- **A program of integers has no use for the tolerance.** -/
theorem Integral.activities_le {p : Program ExtRat} (integral : p.Integral) (regular : p.Regular)
    {z : List ℤ} (hz : z.length = p.numVars) {activities : List ExtRat}
    (h : p.activities? (nums (lattice z)) = some activities)
    (within : List.Forall₂ (fun a b => a ≤ b + Rounding.tolerance) activities p.limits) :
    List.Forall₂ (· ≤ ·) activities p.limits := by
  rw [List.forall₂_iff_zip] at within ⊢
  refine within.imp_right fun le {a b} hab => ?_
  obtain ⟨ha, hb⟩ := List.of_mem_zip hab
  exact (integral.activities regular hz h a ha).le_of_le_add (integral.limits b hb) (le hab)

end Program

/-! ### Honest coins -/

namespace Random.Coin

/-- The coin decides with any probability, and shows what is certain. -/
structure Honest {σ : Type} (coin : Coin ExtRat σ) : Prop where
  decides : ∀ (prob : ExtRat) (s : σ), 0 ≤ prob → prob ≤ 1 →
    ∃ heads s', coin.toss prob s = .ok (heads, s')
  impossible : ∀ (s : σ) (heads : Bool) (s' : σ), coin.toss 0 s = .ok (heads, s') → heads = false
  certain : ∀ (s : σ) (heads : Bool) (s' : σ), coin.toss 1 s = .ok (heads, s') → heads = true

/-- A source of words makes an honest coin. -/
theorem honest_ofWords {σ : Type} (next : σ → UInt64 × σ) :
    (Coin.ofWords next : Coin ExtRat σ).Honest where
  decides prob s h h' := by
    rcases ExtRat.nonneg_cases h with rfl | ⟨q, rfl, hq⟩
    · cases ExtRat.posInf_le_iff.mp h'
    · have below : q ≤ 1 := ExtRat.num_le.mp h'
      by_cases one : q = 1
      · exact ⟨true, s, if_pos (decide_eq_true one)⟩
      · exact ⟨_, (next s).2, (if_neg (mt of_decide_eq_true one)).trans
          (if_pos ⟨h, ExtRat.num_lt.mpr (lt_of_le_of_ne below one)⟩)⟩
  impossible s heads s' h := by
    have noWords : Scalar.toWord ((0 : ExtRat) * 18446744073709551616.0) = 0 := by decide +kernel
    cases h
    rw [noWords]
    exact decide_eq_false UInt64.not_lt_zero
  certain s heads s' h := by
    cases h
    rfl

end Random.Coin

/-! ### Candidates -/

namespace Rounding

variable {σ : Type} {coin : Random.Coin ExtRat σ} {p : Program ExtRat}

/-- Each coordinate is the integer below or the integer above. -/
def Adjacent (x : List ℚ) (z : List ℤ) : Prop :=
  List.Forall₂ (fun q k => k = ⌊q⌋ ∨ k = ⌈q⌉) x z

/-- The four points that are tried, `z` being the one that the coin chooses. -/
def candidates (x : List ℚ) (z : List ℤ) : List (List ℤ) :=
  [x.map Int.floor, x.map Int.ceil, z, List.replicate x.length 0]

theorem map_floor_nums (x : List ℚ) :
    (nums x).map Scalar.floor = nums (lattice (x.map Int.floor)) := by
  simp [nums, lattice, ExtRat.floor_num, Function.comp_def]

theorem map_ceil_nums (x : List ℚ) :
    (nums x).map Scalar.ceil = nums (lattice (x.map Int.ceil)) := by
  simp [nums, lattice, ExtRat.ceil_num, Function.comp_def]

theorem replicate_zero (n : ℕ) :
    (List.replicate n 0 : List ExtRat) = nums (lattice (List.replicate n 0)) := by
  simp [nums, lattice, ExtRat.zero_eq]

/-- Above a number that is no integer lies the integer after the one below. -/
theorem ceil_of_fract_ne_zero {q : ℚ} (h : Int.fract q ≠ 0) : ⌈q⌉ = ⌊q⌋ + 1 := by
  have cast : (⌈q⌉ : ℚ) = ⌊q⌋ + 1 := by
    rw [Int.ceil_eq_add_one_sub_fract h, Int.fract]
    ring
  exact_mod_cast cast

/-- A fractional part is a probability. -/
theorem clamp_fract (q : ℚ) :
    clamp (num q - Scalar.floor (num q)) 0 1 = num (Int.fract q) := by
  have below : ¬ num (Int.fract q) < 0 := mt ExtRat.num_lt.mp (Int.fract_nonneg q).not_gt
  have above : ¬ 1 < num (Int.fract q) := mt ExtRat.num_lt.mp (Int.fract_lt_one q).not_gt
  rw [ExtRat.floor_num, ExtRat.num_sub, Int.self_sub_floor, clamp, if_neg below, if_neg above]

/-- An honest coin chooses between the integers next to a point. -/
theorem randomPoint_nums (honest : coin.Honest) (x : List ℚ) (s : σ) :
    ∃ z s', randomPoint coin (nums x) s = .ok (nums (lattice z), s') ∧ Adjacent x z := by
  induction x generalizing s with
  | nil => exact ⟨[], s, rfl, .nil⟩
  | cons q rest ih =>
      obtain ⟨heads, next, toss⟩ := honest.decides (num (Int.fract q)) s
        (ExtRat.num_le.mpr (Int.fract_nonneg q)) (ExtRat.num_le.mpr (Int.fract_lt_one q).le)
      obtain ⟨z, s', tail, adjacent⟩ := ih next
      refine ⟨(if heads then ⌊q⌋ + 1 else ⌊q⌋) :: z, s', ?_, .cons ?_ adjacent⟩
      · rw [nums, List.map_cons, randomPoint, clamp_fract, toss]
        simp only [← nums.eq_1, tail, ExtRat.floor_num, ExtRat.one_eq, ExtRat.num_add]
        cases heads <;> simp [nums, lattice]
      · cases heads with
        | false => exact .inl rfl
        | true =>
            -- an integer has no fractional part, and then the coin does not show heads
            refine .inr (ceil_of_fract_ne_zero fun hzero => ?_).symm
            rw [hzero] at toss
            cases honest.impossible _ _ _ toss

/-- **The first candidate that satisfies the constraints is found.** -/
theorem point_find (honest : coin.Honest) (p : Program ExtRat) (x : List ℚ) (s : σ) :
    ∃ z, Adjacent x z ∧ (find coin p (nums x) s).point
      = .ok (((candidates x z).map (nums ∘ lattice)).find? fun y => p.satisfies y tolerance) := by
  obtain ⟨z, s', random, adjacent⟩ := randomPoint_nums honest x s
  refine ⟨z, adjacent, ?_⟩
  simp only [find, random, map_floor_nums, map_ceil_nums, length_nums, replicate_zero, candidates,
    List.map_cons, List.map_nil, List.find?_cons, List.find?_nil, Function.comp_apply]
  -- both sides test the candidates one after the other
  cases p.satisfies (nums (lattice (x.map Int.floor))) tolerance with
  | true => rfl
  | false =>
      cases p.satisfies (nums (lattice (x.map Int.ceil))) tolerance with
      | true => rfl
      | false =>
          cases p.satisfies (nums (lattice z)) tolerance with
          | true => rfl
          | false =>
              cases p.satisfies (nums (lattice (List.replicate x.length 0))) tolerance <;> rfl

/-- A candidate is next to the point, or zero. -/
theorem adjacent_of_mem_candidates {x : List ℚ} {z c : List ℤ} (adjacent : Adjacent x z)
    (h : c ∈ candidates x z) : c = List.replicate x.length 0 ∨ Adjacent x c := by
  simp only [candidates, List.mem_cons, List.not_mem_nil, or_false] at h
  rcases h with rfl | rfl | rfl | rfl
  · exact .inr (List.forall₂_map_right_iff.mpr (List.forall₂_same.mpr fun _ _ => .inl rfl))
  · exact .inr (List.forall₂_map_right_iff.mpr (List.forall₂_same.mpr fun _ _ => .inr rfl))
  · exact .inr adjacent
  · exact .inl rfl

/-- **What the heuristic finds.**  At a point of numbers and with an honest coin it breaks no
agreement.  A point that it finds has a nonnegative integer for each variable; it is zero, or next
to the given point in each coordinate; and it exceeds no limit by more than the tolerance, and none
at all if the coefficients and the limits are integers.  If it finds none, then the given point
rounded down, rounded up and replaced by zero does not satisfy the constraints. -/
theorem find_spec (valid : p.validate = .ok ()) (wf : p.matrix.WellFormed) (honest : coin.Honest)
    (x : List ℚ) (s : σ) :
    (∀ y : List ExtRat, y.length = p.numVars → ∃ activities, p.activities? y = some activities)
      ∧ ∃ found, (find coin p (nums x) s).point = .ok found
        ∧ (∀ y, found = some y → ∃ z : List ℤ, y = nums (lattice z)
          ∧ z.length = p.numVars ∧ (∀ k ∈ z, 0 ≤ k)
          ∧ (z = List.replicate p.numVars 0 ∨ Adjacent x z)
          ∧ ∃ activities, p.activities? y = some activities
            ∧ List.Forall₂ (fun a b => a ≤ b + 1e-9) activities p.limits
            ∧ (p.Integral → List.Forall₂ (· ≤ ·) activities p.limits))
        ∧ (found = none → p.satisfies ((nums x).map Scalar.floor) 1e-9 = false
          ∧ p.satisfies ((nums x).map Scalar.ceil) 1e-9 = false
          ∧ p.satisfies (List.replicate x.length 0) 1e-9 = false) := by
  have regular := Program.regular_of_validate valid wf
  obtain ⟨P, hP, rfl⟩ := Program.exists_regular valid wf
  obtain ⟨z, adjacent, hfind⟩ := point_find honest P.embed x s
  refine ⟨fun y hy => ⟨_, regular.activities?_eq hy⟩, _, hfind,
    fun y hy => ?_, fun none => ?_⟩
  · obtain ⟨c, hc, rfl⟩ := List.mem_map.mp (List.mem_of_find?_eq_some hy)
    have satisfied := List.find?_some hy
    obtain ⟨hlength, nonneg⟩ := nonneg_of_satisfies hP satisfied
    rw [← Program.numVars_embed] at hlength
    obtain ⟨activities, hactivities, within⟩ := regular.activities_le satisfied
    refine ⟨c, rfl, hlength, nonneg, ?_, activities, hactivities, within,
      fun integral => integral.activities_le regular hlength hactivities within⟩
    refine (adjacent_of_mem_candidates adjacent hc).imp_left fun hzero => ?_
    rw [← hlength, hzero, List.length_replicate]
  · rw [List.find?_eq_none, List.forall_mem_map] at none
    simp only [candidates, List.forall_mem_cons, Function.comp_apply, Bool.not_eq_true] at none
    obtain ⟨down, up, -, zero, -⟩ := none
    rw [map_floor_nums, map_ceil_nums, replicate_zero]
    exact ⟨down, up, zero⟩

/-- The nonnegative points with `x + y = 1`. -/
def balanced : Program ℚ :=
  ⟨[1, 1], .ofEntries 2 [[(0, 1), (1, 1)], [(0, -1), (1, -1)]], [1, -1]⟩

/-- Between the corners, where both coordinates are one half, neither point that needs no coin
satisfies the constraints; a coin that shows heads and then tails finds a corner. -/
theorem find_spec_balanced :
    balanced.embed.validate = .ok () ∧ balanced.embed.matrix.WellFormed
      ∧ balanced.embed.Integral
      ∧ (Random.Coin.ofWords Random.Steps.next : Random.Coin ExtRat Random.Steps).Honest
      ∧ ∃ z activities, (find (.ofWords Random.Steps.next) balanced.embed (nums [1 / 2, 1 / 2])
            ⟨0, 0x8000000000000000⟩).point = .ok (some (nums (lattice z)))
        ∧ Adjacent [1 / 2, 1 / 2] z
        ∧ balanced.embed.activities? (nums (lattice z)) = some activities
        ∧ List.Forall₂ (· ≤ ·) activities balanced.embed.limits := by
  have valid : balanced.embed.validate = .ok () := by decide +kernel
  have wf : balanced.embed.matrix.WellFormed := by decide +kernel
  have integral : balanced.embed.Integral := by decide +kernel
  have honest := Random.Coin.honest_ofWords Random.Steps.next
  obtain ⟨-, found, hfind, some, -⟩ :=
    find_spec valid wf honest [1 / 2, 1 / 2] ⟨0, 0x8000000000000000⟩
  have corner : (find (.ofWords Random.Steps.next) balanced.embed (nums [1 / 2, 1 / 2])
      ⟨0, 0x8000000000000000⟩).point = .ok (.some (nums (lattice [1, 0]))) := by decide +kernel
  rw [corner] at hfind
  cases hfind
  obtain ⟨z, heq, -, -, next, activities, hactivities, -, within⟩ := some _ rfl
  refine ⟨valid, wf, integral, honest, z, activities, heq ▸ corner, ?_, heq ▸ hactivities,
    within integral⟩
  refine next.resolve_left fun hzero => ?_
  rw [hzero] at heq
  exact absurd heq (by decide +kernel)

end Rounding

end IntegerProgramming
