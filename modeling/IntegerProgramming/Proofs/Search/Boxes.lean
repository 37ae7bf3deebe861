import Mathlib
import IntegerProgramming.Proofs.Search.Partition

/-!
# Search — boxes that shrink

Where the points of a program are bounded, the region of a node lies in a box with integer ends, and
each split cuts a unit or more off the box of a node.  The box is nowhere in the search; that its
size and the depth of the node never add up to more than the size of the first box
(`Boxed.child`) holds whatever the oracle answers and in whatever order the nodes are taken, as long
as a node has a vertex in its region.

* `Inhabited.coordinate`: what a selector names in such a vertex is a variable of the program.
* `Boxed.depth_le`, `Boxed.depth_lt`: **no node is deeper than the first box is large**, and a node
  with a fractional vertex is less deep.
-/

namespace IntegerProgramming

open ExtRat (num)

/-! ### Points of a program -/

namespace Program

/-- No point of the program has a coordinate above its bound. -/
def BoundedBy (p : Program ExtRat) (U : ℕ → ℕ) : Prop :=
  ∀ x : List ℚ, p.satisfies (nums x) 0 = true → ∀ j, x.getD j 0 ≤ U j

/-- A point of a program has a coordinate for each variable, and none is negative. -/
theorem nonneg_of_satisfies {p : Program ExtRat} {x : List ℚ}
    (h : p.satisfies (nums x) 0 = true) : x.length = p.numVars ∧ ∀ j, 0 ≤ x.getD j 0 := by
  obtain ⟨hlength, hlower, -⟩ := satisfies_iff.mp h
  refine ⟨(length_nums x).symm.trans hlength, fun j => ?_⟩
  rcases lt_or_ge j x.length with hj | hj
  · rw [List.getD_eq_getElem _ _ hj]
    have := hlower (num x[j]) (List.mem_map_of_mem (List.getElem_mem hj))
    rwa [ExtRat.zero_eq, ExtRat.num_neg, neg_zero, ExtRat.num_lt, not_lt] at this
  · rw [List.getD_eq_default _ _ hj]

/-- The objective has no part in what satisfies the constraints. -/
@[simp] theorem satisfies_withZeroObjective {α : Type} [Arith α] (p : Program α) (x : List α)
    (tol : α) : p.withZeroObjective.satisfies x tol = p.satisfies x tol := by
  rw [satisfies, numVars_withZeroObjective]
  rfl

end Program

/-! ### Vertices in their regions -/

/-- Each vertex that the oracle gives for the program is a point of the region it was asked about.
-/
def Oracle.InRegionOn {β ε : Type} (oracle : Oracle ExtRat β ε) (p : Program ExtRat) : Prop :=
  ∀ (changes : List (BoundChange ExtRat)) (state : β) (value : ExtRat) (vertex : List ExtRat),
    (∀ change ∈ changes, change.Proper p.numVars) →
    (oracle.ask ⟨p, changes⟩ state).answer = .ok (.optimal value vertex) →
    ∃ x, vertex = nums x ∧ Subproblem.Contains ⟨p, changes⟩ x

theorem Oracle.ExactOn.inRegionOn {β ε : Type} {oracle : Oracle ExtRat β ε}
    {p : Program ExtRat} (exact : oracle.ExactOn p) : oracle.InRegionOn p :=
  fun changes state _ _ proper hanswer => (exact changes state _ proper hanswer).1

/-- A point that does not count as integral has a coordinate that lies strictly between two
integers. -/
theorem exists_between_of_not_isIntegral {tol : ExtRat} (ht : 0 ≤ tol) {x : List ℚ}
    (h : isIntegral (nums x) tol = false) :
    ∃ (var : ℕ) (q : ℚ), x[var]? = some q ∧ (⌊q⌋ : ℚ) < q ∧ q < ⌈q⌉ := by
  rw [isIntegral, nums, List.all_map, List.all_eq_false] at h
  obtain ⟨q, hq, hfar⟩ := h
  obtain ⟨var, hvar⟩ := List.mem_iff_getElem?.mp hq
  refine ⟨var, q, hvar, floor_lt_and_lt_ceil ht ?_⟩
  simp only [Function.comp_apply, decide_eq_true_eq, ExtRat.fractionality_num] at hfar ⊢
  rcases ExtRat.nonneg_cases ht with rfl | ⟨t, rfl, -⟩
  · exact absurd (ExtRat.num_le_posInf _) hfar
  · rwa [ExtRat.num_lt, ← not_le, ← ExtRat.num_le]

/-- A node whose changes are about variables of the program, with a vertex in its region. -/
structure Inhabited (p : Program ExtRat) (node : Node ExtRat) : Prop where
  proper : ∀ change ∈ node.changes, change.Proper p.numVars
  vertex : ∃ x, node.vertex = nums x ∧ Subproblem.Contains ⟨p, node.changes⟩ x

/-- A coordinate of the vertex of a node belongs to a variable of the program and is a number. -/
theorem Inhabited.coordinate {p : Program ExtRat} {node : Node ExtRat} (h : Inhabited p node)
    {var : ℕ} {value : ExtRat} (hvalue : node.vertex[var]? = some value) :
    var < p.numVars ∧ ∃ x q, node.vertex = nums x ∧ Subproblem.Contains ⟨p, node.changes⟩ x
      ∧ x[var]? = some q ∧ value = num q := by
  obtain ⟨x, hx, contains⟩ := h.vertex
  rw [hx, nums, List.getElem?_map, Option.map_eq_some_iff] at hvalue
  obtain ⟨q, hq, rfl⟩ := hvalue
  have hvar := (List.getElem?_eq_some_iff.mp hq).1
  rw [(Program.nonneg_of_satisfies contains.satisfies).1] at hvar
  exact ⟨hvar, x, q, hx, contains, hq, rfl⟩

/-- The changes of a child are about variables of the program. -/
theorem Node.proper_child {n : ℕ} {node : Node ExtRat}
    (proper : ∀ change ∈ node.changes, change.Proper n) {change : BoundChange ExtRat}
    (hchange : change.Proper n) (id : ℕ) : ∀ c ∈ (node.child id change).changes, c.Proper n := by
  rw [Node.child, List.forall_mem_append, List.forall_mem_singleton]
  exact ⟨proper, hchange⟩

/-! ### Boxes with integer ends -/

/-- An interval with integer ends for each coordinate. -/
structure Grid where
  lower : ℕ → ℤ
  upper : ℕ → ℤ
  ordered : ∀ j, lower j ≤ upper j

namespace Grid

/-- Each coordinate of the point lies in its interval. -/
def Holds (g : Grid) (x : List ℚ) : Prop :=
  ∀ j, (g.lower j : ℚ) ≤ x.getD j 0 ∧ x.getD j 0 ≤ g.upper j

/-- The length of the first `n` intervals together. -/
def size (g : Grid) (n : ℕ) : ℤ := ∑ j ∈ Finset.range n, (g.upper j - g.lower j)

theorem size_nonneg (g : Grid) (n : ℕ) : 0 ≤ g.size n :=
  Finset.sum_nonneg fun j _ => Int.sub_nonneg.mpr (g.ordered j)

/-- The intervals between zero and given numbers. -/
def upTo (U : ℕ → ℕ) : Grid := ⟨0, fun j => U j, fun j => Int.natCast_nonneg (U j)⟩

theorem size_upTo (U : ℕ → ℕ) (n : ℕ) : (upTo U).size n = ∑ j ∈ Finset.range n, U j := by
  simp [size, upTo]

/-- A shorter interval makes a box smaller. -/
theorem size_lt {g h : Grid} {n var : ℕ} (hvar : var < n)
    (shorter : h.upper var - h.lower var < g.upper var - g.lower var)
    (rest : ∀ j ≠ var, h.upper j = g.upper j ∧ h.lower j = g.lower j) : h.size n < g.size n := by
  refine Finset.sum_lt_sum (fun j _ => ?_) ⟨var, Finset.mem_range.mpr hvar, shorter⟩
  rcases eq_or_ne j var with rfl | hj
  · exact shorter.le
  · rw [(rest j hj).1, (rest j hj).2]

/-- The box cut off above `k`. -/
def below (g : Grid) (var : ℕ) (k : ℤ) (h : g.lower var ≤ k) : Grid where
  lower := g.lower
  upper := Function.update g.upper var k
  ordered j := by
    rcases eq_or_ne j var with rfl | hj
    · rwa [Function.update_self]
    · rw [Function.update_of_ne hj]
      exact g.ordered j

/-- The box cut off below `k`. -/
def above (g : Grid) (var : ℕ) (k : ℤ) (h : k ≤ g.upper var) : Grid where
  lower := Function.update g.lower var k
  upper := g.upper
  ordered j := by
    rcases eq_or_ne j var with rfl | hj
    · rwa [Function.update_self]
    · rw [Function.update_of_ne hj]
      exact g.ordered j

theorem size_below_lt (g : Grid) {n var : ℕ} {k : ℤ} (h : g.lower var ≤ k) (hvar : var < n)
    (hk : k < g.upper var) : (g.below var k h).size n < g.size n := by
  refine size_lt hvar ?_ fun j hj => ⟨Function.update_of_ne hj _ _, rfl⟩
  simp only [below, Function.update_self]
  omega

theorem size_above_lt (g : Grid) {n var : ℕ} {k : ℤ} (h : k ≤ g.upper var) (hvar : var < n)
    (hk : g.lower var < k) : (g.above var k h).size n < g.size n := by
  refine size_lt hvar ?_ fun j hj => ⟨rfl, Function.update_of_ne hj _ _⟩
  simp only [above, Function.update_self]
  omega

theorem Holds.below {g : Grid} {x : List ℚ} (hx : g.Holds x) {var : ℕ} {k : ℤ}
    (h : g.lower var ≤ k) (hk : x.getD var 0 ≤ k) : (g.below var k h).Holds x := by
  intro j
  rcases eq_or_ne j var with rfl | hj
  · simp only [Grid.below, Function.update_self]
    exact ⟨(hx j).1, hk⟩
  · simp only [Grid.below, Function.update_of_ne hj]
    exact hx j

theorem Holds.above {g : Grid} {x : List ℚ} (hx : g.Holds x) {var : ℕ} {k : ℤ}
    (h : k ≤ g.upper var) (hk : k ≤ x.getD var 0) : (g.above var k h).Holds x := by
  intro j
  rcases eq_or_ne j var with rfl | hj
  · simp only [Grid.above, Function.update_self]
    exact ⟨hk, (hx j).2⟩
  · simp only [Grid.above, Function.update_of_ne hj]
    exact hx j

end Grid

/-! ### Nodes in boxes -/

/-- The changes of the node are about variables of the program, and its region lies in a box whose
size, with the depth of the node, is not above `size`. -/
structure Boxed (p : Program ExtRat) (size : ℕ) (node : Node ExtRat) : Prop where
  proper : ∀ change ∈ node.changes, change.Proper p.numVars
  box : ∃ g : Grid, (∀ x, Subproblem.Contains ⟨p, node.changes⟩ x → g.Holds x)
    ∧ node.depth + g.size p.numVars ≤ size

/-- **No node is deeper than the box of the root is large.** -/
theorem Boxed.depth_le {p : Program ExtRat} {size : ℕ} {node : Node ExtRat}
    (h : Boxed p size node) : node.depth ≤ size := by
  obtain ⟨g, -, hsize⟩ := h.box
  have := g.size_nonneg p.numVars
  omega

/-- The root of a bounded program. -/
theorem Boxed.root {p : Program ExtRat} {U : ℕ → ℕ} (bounded : p.BoundedBy U) (bound : ExtRat)
    (vertex : List ExtRat) :
    Boxed p (∑ j ∈ Finset.range p.numVars, U j) (Node.root.withRelaxation bound vertex) := by
  refine ⟨fun change h => absurd h List.not_mem_nil, .upTo U, fun x hx j => ⟨?_, ?_⟩, ?_⟩
  · simpa [Grid.upTo] using (Program.nonneg_of_satisfies hx.satisfies).2 j
  · simpa [Grid.upTo] using bounded x hx.satisfies j
  · rw [Grid.size_upTo]
    simp [Node.withRelaxation, Node.root]

/-- **A split cuts the box.**  A node that is split at a coordinate of a point of its region,
between two integers, has two children in smaller boxes. -/
theorem Boxed.child {p : Program ExtRat} {size : ℕ} {node : Node ExtRat} (h : Boxed p size node)
    {x : List ℚ} (hx : Subproblem.Contains ⟨p, node.changes⟩ x) {var : ℕ} {q : ℚ}
    (hq : x[var]? = some q) (between : (⌊q⌋ : ℚ) < q ∧ q < ⌈q⌉) :
    (∀ id, Boxed p size (node.child id (.down var (num q))))
      ∧ ∀ id, Boxed p size (node.child id (.up var (num q))) := by
  obtain ⟨g, holds, hsize⟩ := h.box
  have length {y : List ℚ} (hy : p.satisfies (nums y) 0 = true) : y.length = p.numVars :=
    (Program.nonneg_of_satisfies hy).1
  have hn : var < p.numVars := length hx.satisfies ▸ (List.getElem?_eq_some_iff.mp hq).1
  have coordinate : x.getD var 0 = q := by rw [List.getD_eq_getElem?_getD, hq, Option.getD_some]
  obtain ⟨hlower, hupper⟩ := holds x hx var
  rw [coordinate] at hlower hupper
  -- the ends of the interval are integers, so the parts reach up to them
  have lower : g.lower var ≤ ⌊q⌋ ∧ g.lower var < ⌈q⌉ :=
    ⟨Int.le_floor.mpr hlower, by exact_mod_cast hlower.trans_lt between.2⟩
  have upper : ⌈q⌉ ≤ g.upper var ∧ ⌊q⌋ < g.upper var :=
    ⟨Int.ceil_le.mpr hupper, by exact_mod_cast between.1.trans_le hupper⟩
  have deeper (id : ℕ) (change : BoundChange ExtRat) : (node.child id change).depth
      = node.depth + 1 := rfl
  constructor
  · intro id
    refine ⟨Node.proper_child h.proper (BoundChange.proper_down hn q) id,
      g.below var ⌊q⌋ lower.1, fun y hy => (holds y hy.of_append).below lower.1 ?_, ?_⟩
    · have hvar : var < y.length := (length hy.satisfies).symm ▸ hn
      have admitted := (admits_append_singleton.mp hy.admits).2
      rwa [BoundChange.admits?_down_iff hvar, ← List.getD_eq_getElem _ 0 hvar] at admitted
    · have smaller := g.size_below_lt lower.1 hn upper.2
      rw [deeper]
      push_cast
      omega
  · intro id
    refine ⟨Node.proper_child h.proper (BoundChange.proper_up hn q) id,
      g.above var ⌈q⌉ upper.1, fun y hy => (holds y hy.of_append).above upper.1 ?_, ?_⟩
    · have hvar : var < y.length := (length hy.satisfies).symm ▸ hn
      have admitted := (admits_append_singleton.mp hy.admits).2
      rwa [BoundChange.admits?_up_iff hvar, ← List.getD_eq_getElem _ 0 hvar] at admitted
    · have smaller := g.size_above_lt upper.1 hn lower.2
      rw [deeper]
      push_cast
      omega

/-- A node with a fractional point in its region is less deep than the box of the root is large. -/
theorem Boxed.depth_lt {p : Program ExtRat} {size : ℕ} {node : Node ExtRat}
    (h : Boxed p size node) {x : List ℚ} (hx : Subproblem.Contains ⟨p, node.changes⟩ x)
    {tol : ExtRat} (ht : 0 ≤ tol) (fractional : isIntegral (nums x) tol = false) :
    node.depth < size := by
  obtain ⟨var, q, hq, between⟩ := exists_between_of_not_isIntegral ht fractional
  exact ((h.child hx hq between).1 0).depth_le

end IntegerProgramming
