import Mathlib
import IntegerProgramming.Proofs.Search.Region

/-!
# Search — answers from a table

An oracle may read its answers off a table and fail on every question that is not in it.  If the
answers in the table are exact, so is the oracle, on its own program and on every other
(`Oracle.exactOn_ofTable`).

The *square* asks for the greatest `x + y` where `2 x ≤ 3` and `2 y ≤ 3`.  Its table (`squareTable`)
holds what a search asks for that branches on the first fractional coordinate, and the answers in it
are exact (`solvedBy_square`).
-/

namespace IntegerProgramming

open ExtRat (num innerProd)

/-! ### Table oracles -/

/-- The oracle that reads its answers off a table for one program, and fails on any other question.
-/
def Oracle.ofTable (p : Program ExtRat)
    (table : List (List (BoundChange ExtRat) × Relaxation ExtRat)) : Oracle ExtRat Unit Unit where
  ask sub state :=
    match if sub.program = p then table.lookup sub.changes else none with
    | some relaxation => ⟨.ok relaxation, state, []⟩
    | none => ⟨.error (.error ()), state, []⟩

/-- What is answered stands in the table, beside the changes that were asked about. -/
theorem Oracle.mem_of_answer_ofTable {p : Program ExtRat}
    {table : List (List (BoundChange ExtRat) × Relaxation ExtRat)} {sub : Subproblem ExtRat}
    {state : Unit} {relaxation : Relaxation ExtRat}
    (h : ((Oracle.ofTable p table).ask sub state).answer = .ok relaxation) :
    sub.program = p ∧ (sub.changes, relaxation) ∈ table := by
  simp only [Oracle.ofTable] at h
  split at h
  · rename_i found hfound
    cases h
    split at hfound
    · rename_i hp
      obtain ⟨before, after, rfl, -⟩ := List.lookup_eq_some_iff.mp hfound
      exact ⟨hp, List.mem_append_right _ (List.mem_cons_self ..)⟩
    · cases hfound
  · cases h

/-- A table of exact answers makes an exact oracle, on its program and on any other. -/
theorem Oracle.exactOn_ofTable {p : Program ExtRat}
    {table : List (List (BoundChange ExtRat) × Relaxation ExtRat)}
    (h : ∀ entry ∈ table, Subproblem.SolvedBy ⟨p, entry.1⟩ entry.2) (q : Program ExtRat) :
    (Oracle.ofTable p table).ExactOn q := by
  intro changes state relaxation _ hanswer
  obtain ⟨rfl, hmem⟩ := Oracle.mem_of_answer_ofTable hanswer
  exact h _ hmem

/-! ### The square -/

/-- The greatest `x + y` where `2 x ≤ 3` and `2 y ≤ 3`. -/
def square : Program ℚ := ⟨[1, 1], .ofEntries 2 [[(0, 2)], [(1, 2)]], [3, 3]⟩

/-- The relaxations of the square that a search asks for, branching on the first fractional
coordinate. -/
def squareTable : List (List (BoundChange ExtRat) × Relaxation ExtRat) :=
  [([], .optimal (num 3) [num (3 / 2), num (3 / 2)]),
    ([⟨0, .upper, num 1⟩], .optimal (num (5 / 2)) [num 1, num (3 / 2)]),
    ([⟨0, .lower, num 2⟩], .infeasible),
    ([⟨0, .upper, num 1⟩, ⟨1, .upper, num 1⟩], .optimal (num 2) [num 1, num 1]),
    ([⟨0, .upper, num 1⟩, ⟨1, .lower, num 2⟩], .infeasible)]

theorem regular_square : square.Regular :=
  ⟨by decide, by decide +kernel, by decide +kernel⟩

theorem feasible_square_iff {x : List ℚ} :
    square.Feasible x ↔ ∃ a b, x = [a, b] ∧ 0 ≤ a ∧ 0 ≤ b ∧ 2 * a ≤ 3 ∧ 2 * b ≤ 3 := by
  have rows : square.matrix.rowEntries = [[(0, 2)], [(1, 2)]] := by decide +kernel
  constructor
  · rintro ⟨hlength, hlower, hlimits⟩
    obtain ⟨a, b, rfl⟩ := List.length_eq_two.mp hlength
    rw [rows] at hlimits
    simp [square, rowValue] at hlower hlimits
    exact ⟨a, b, rfl, hlower.1, hlower.2, hlimits.1, hlimits.2⟩
  · rintro ⟨a, b, rfl, ha, hb, hla, hlb⟩
    refine ⟨rfl, by simp [ha, hb], ?_⟩
    rw [rows]
    simp [square, rowValue, hla, hlb]

/-- The region of the square below some changes. -/
theorem contains_square_iff {changes : List (BoundChange ExtRat)} {x : List ℚ} :
    Subproblem.Contains ⟨square.embed, changes⟩ x ↔
      ∃ a b, x = [a, b] ∧ 0 ≤ a ∧ 0 ≤ b ∧ 2 * a ≤ 3 ∧ 2 * b ≤ 3 ∧ Admits changes [a, b] := by
  constructor
  · rintro ⟨hsat, ha⟩
    obtain ⟨a, b, rfl, h⟩ :=
      feasible_square_iff.mp ((Program.satisfies_embed_iff regular_square).mp hsat)
    exact ⟨a, b, rfl, h.1, h.2.1, h.2.2.1, h.2.2.2, ha⟩
  · rintro ⟨a, b, rfl, h₁, h₂, h₃, h₄, ha⟩
    exact ⟨(Program.satisfies_embed_iff regular_square).mpr
      (feasible_square_iff.mpr ⟨a, b, rfl, h₁, h₂, h₃, h₄⟩), ha⟩

/-- A point of the region that no other exceeds. -/
theorem solvedBy_square_optimal {changes : List (BoundChange ExtRat)} {a b v : ℚ}
    (hv : v = a + b) (h : Subproblem.Contains ⟨square.embed, changes⟩ [a, b])
    (greatest : ∀ c d, 2 * c ≤ 3 → 2 * d ≤ 3 → Admits changes [c, d] → c + d ≤ v) :
    Subproblem.SolvedBy ⟨square.embed, changes⟩ (.optimal (num v) [num a, num b]) := by
  have value (c d : ℚ) : square.embed.value (nums [c, d]) = num (c + d) := by
    rw [Program.value_embed]
    norm_num [square, innerProd]
  refine ⟨⟨[a, b], rfl, h⟩, (hv ▸ value a b).symm, fun x hx => ?_⟩
  obtain ⟨c, d, rfl, -, -, hc, hd, hadmits⟩ := contains_square_iff.mp hx
  rw [value, ExtRat.num_le]
  exact greatest c d hc hd hadmits

/-- Every answer of the table is exact. -/
theorem solvedBy_square (entry : List (BoundChange ExtRat) × Relaxation ExtRat)
    (h : entry ∈ squareTable) : Subproblem.SolvedBy ⟨square.embed, entry.1⟩ entry.2 := by
  simp only [squareTable, List.mem_cons, List.not_mem_nil, or_false] at h
  rcases h with rfl | rfl | rfl | rfl | rfl
  · refine solvedBy_square_optimal (by norm_num) (contains_square_iff.mpr ⟨_, _, rfl, ?_⟩)
      fun c d hc hd _ => ?_
    · norm_num [Admits]
    · linarith
  · refine solvedBy_square_optimal (by norm_num) (contains_square_iff.mpr ⟨_, _, rfl, ?_⟩)
      fun c d hc hd h => ?_
    · norm_num [Admits, BoundChange.admits?, BoundChange.allows, nums, ExtRat.num_le]
    · simp [Admits, BoundChange.admits?, BoundChange.allows, nums, ExtRat.num_le] at h
      linarith
  · rintro x hx
    obtain ⟨c, d, rfl, -, -, hc, -, h⟩ := contains_square_iff.mp hx
    simp [Admits, BoundChange.admits?, BoundChange.allows, nums, ExtRat.num_le] at h
    linarith
  · refine solvedBy_square_optimal (by norm_num) (contains_square_iff.mpr ⟨_, _, rfl, ?_⟩)
      fun c d hc hd h => ?_
    · norm_num [Admits, BoundChange.admits?, BoundChange.allows, nums, ExtRat.num_le]
    · simp [Admits, BoundChange.admits?, BoundChange.allows, nums, ExtRat.num_le] at h
      linarith
  · rintro x hx
    obtain ⟨c, d, rfl, -, -, -, hd, h⟩ := contains_square_iff.mp hx
    simp [Admits, BoundChange.admits?, BoundChange.allows, nums, ExtRat.num_le] at h
    linarith

end IntegerProgramming
