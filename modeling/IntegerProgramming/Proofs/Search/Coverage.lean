import Mathlib
import IntegerProgramming.Proofs.Search.Region
import IntegerProgramming.Proofs.Search.Steps

/-!
# Search — no integer point is lost

With an oracle that is exact on a program, every integer point of the program is at all times
*covered*: an open node admits it, or the incumbent is as good up to the distance by which rounding
an integral vertex may move the objective (`Covered`).

**A step keeps the invariant** (`Invariant.expand`).  The node that is taken is split, and each
integer point that it admits is admitted by one of its children (`BoundChange.down_or_up_admits`). A
child that is closed has no point at all, or its integral vertex competed for the incumbent, or its
bound does not exceed the incumbent; it is never discarded as unbounded, because the bound of its
parent holds for it too.  Between the two children the points of the second are still covered by
nothing, so a single child is followed first (`Invariant.place`), and it says both what stays
covered and what is covered by the child.
-/

namespace IntegerProgramming

open ExtRat (num innerProd reach)

/-! ### The greatest bound of the open nodes -/

/-- A fold with the greater of two runs over numbers to the greatest of them. -/
theorem foldl_greater_num (bounds : List ℚ) (q : ℚ) :
    (nums bounds).foldl greater (num q) = num (bounds.foldl max q) := by
  induction bounds generalizing q with
  | nil => rfl
  | cons b rest ih =>
      rw [nums, List.map_cons, List.foldl_cons, ExtRat.greater_num]
      exact ih (max q b)

theorem le_foldl_max (bounds : List ℚ) (q : ℚ) :
    q ≤ bounds.foldl max q ∧ ∀ b ∈ bounds, b ≤ bounds.foldl max q := by
  induction bounds generalizing q with
  | nil => exact ⟨le_rfl, by simp⟩
  | cons b rest ih =>
      obtain ⟨hq, hrest⟩ := ih (max q b)
      exact ⟨(le_max_left q b).trans hq,
        List.forall_mem_cons.mpr ⟨(le_max_right q b).trans hq, hrest⟩⟩

/-- Open nodes with rational bounds have a rational greatest bound. -/
theorem Frontier.bestBound?_num {f : Frontier ExtRat}
    (h : ∀ node ∈ f.nodes, ∃ v, node.bound = num v) (hne : f.nodes ≠ []) :
    ∃ best, f.bestBound? = some (num best)
      ∧ ∀ node ∈ f.nodes, ∀ v, node.bound = num v → v ≤ best := by
  obtain ⟨policy, nodes⟩ := f
  obtain ⟨first, rest, rfl⟩ := List.exists_cons_of_ne_nil hne
  obtain ⟨⟨q, hq⟩, hrest⟩ := List.forall_mem_cons.mp h
  obtain ⟨bounds, hbounds⟩ : ∃ bounds, rest.map Node.bound = nums bounds := by
    refine exists_nums (List.all_eq_true.mpr fun a ha => ?_)
    obtain ⟨node, hnode, rfl⟩ := List.mem_map.mp ha
    exact ExtRat.isFinite_iff.mpr (hrest node hnode)
  have fold : rest.foldl (fun best n => greater best n.bound) first.bound
      = num (bounds.foldl max q) := by
    rw [← foldl_greater_num, ← hbounds, List.foldl_map, hq]
  obtain ⟨hfirst, hall⟩ := le_foldl_max bounds q
  refine ⟨bounds.foldl max q, congrArg some fold, List.forall_mem_cons.mpr ⟨fun v hv => ?_, ?_⟩⟩
  · rwa [← ExtRat.num.inj (hq.symm.trans hv)]
  · intro node hnode v hv
    have hmem : num v ∈ nums bounds := hbounds ▸ hv ▸ List.mem_map_of_mem hnode
    obtain ⟨b, hb, heq⟩ := List.mem_map.mp hmem
    exact ExtRat.num.inj heq ▸ hall b hb

end IntegerProgramming

namespace IntegerProgramming.Search

open ExtRat (num innerProd reach)

variable {β η ε : Type} {S : Solver ExtRat β η ε} {P : Program ℚ}

/-! ### What a search relies on -/

/-- The program was accepted, the tolerance is not negative, and the strategies do what they promise
on the program. -/
structure Solver.SoundOn (S : Solver ExtRat β η ε) (p : Program ExtRat) : Prop where
  valid : p.validate = .ok ()
  stored : p.matrix.WellFormed
  integrality : 0 ≤ S.settings.integrality
  selector : S.selector.InRange
  heuristic : S.heuristic.FeasibleOn p
  oracle : S.oracle.ExactOn p

/-! ### Candidates and solved nodes -/

/-- A nonnegative integer point with its objective, over each limit by at most `t` times the weight
of the row. -/
structure Candidate (P : Program ℚ) (t : ℚ) (c : Solution ExtRat) (z : List ℤ) : Prop where
  point : c.point = nums (lattice z)
  value : c.value = num (innerProd P.objective (lattice z))
  length : z.length = P.numVars
  nonneg : ∀ k ∈ z, 0 ≤ k
  limits : ∀ row ∈ P.matrix.rowEntries.zip P.limits,
    rowValue (lattice z) row.1 ≤ row.2 + t * rowWeight row.1

/-- The relaxation of the node was solved exactly: no point of its region exceeds its bound. -/
structure Solved (P : Program ℚ) (node : Node ExtRat) : Prop where
  proper : ∀ change ∈ node.changes, change.Proper P.numVars
  vertex : ∃ x, node.vertex = nums x ∧ x.length = P.numVars
  bound : ∃ v, node.bound = num v
    ∧ ∀ x, Subproblem.Contains ⟨P.embed, node.changes⟩ x → innerProd P.objective x ≤ v

theorem feasible_of_contains (hP : P.Regular) {changes : List (BoundChange ExtRat)} {x : List ℚ}
    (h : Subproblem.Contains ⟨P.embed, changes⟩ x) : P.Feasible x :=
  (Program.satisfies_embed_iff hP).mp h.satisfies

theorem contains_of_feasible (hP : P.Regular) {changes : List (BoundChange ExtRat)} {x : List ℚ}
    (h : P.Feasible x) (ha : Admits changes x) : Subproblem.Contains ⟨P.embed, changes⟩ x :=
  ⟨(Program.satisfies_embed_iff hP).mpr h, ha⟩

/-- A feasible integer point is a candidate. -/
theorem candidate_of_feasible {t : ℚ} (ht : 0 ≤ t) {z : List ℤ} (h : P.Feasible (lattice z)) :
    Candidate P t ⟨nums (lattice z), P.embed.value (nums (lattice z))⟩ z where
  point := rfl
  value := P.value_embed _
  length := (length_lattice z).symm.trans h.length
  nonneg k hk := by simpa [lattice] using h.lower k (List.mem_map_of_mem hk)
  limits row hrow := by
    have := h.limits row hrow
    have := mul_nonneg ht (rowWeight_nonneg row.1)
    linarith

/-- The nearest integers of a feasible vertex that counts as integral are a candidate. -/
theorem candidate_of_snap {t : ℚ} (ht : 0 ≤ t) {x : List ℚ} (h : P.Feasible x)
    (near : ∀ v ∈ x, |v - ExtRat.nearest v| ≤ t) :
    Candidate P t ⟨nearestIntegers (nums x), P.embed.value (nearestIntegers (nums x))⟩
      (snap x) where
  point := nearestIntegers_nums x
  value := by rw [nearestIntegers_nums]; exact P.value_embed _
  length := (length_snap x).trans h.length
  nonneg k hk := by
    obtain ⟨v, hv, rfl⟩ := List.mem_map.mp hk
    exact ExtRat.nearest_nonneg (by simpa using h.lower v hv)
  limits row hrow := by
    have hx := h.limits row hrow
    have hsnap := (abs_le.mp (abs_rowValue_snap_sub_le ht near row.1)).2
    linarith

/-! ### Coverage -/

/-- The incumbent is at least as good as the point, up to `t` times the weight of the objective. -/
def Matched (P : Program ℚ) (t : ℚ) (best : Option (Solution ExtRat)) (z : List ℤ) : Prop :=
  ∃ c v, best = some c ∧ c.value = num v
    ∧ innerProd P.objective (lattice z) ≤ v + t * weight P.objective

/-- An open node admits the point, or the incumbent matches it. -/
def Covered (P : Program ℚ) (t : ℚ) (s : State ExtRat β η ε) (z : List ℤ) : Prop :=
  (∃ node ∈ s.frontier.nodes, Admits node.changes (lattice z)) ∨ Matched P t s.incumbent.best z

/-- What holds of a state whenever no node is being split. -/
structure Invariant (P : Program ℚ) (t : ℚ) (s : State ExtRat β η ε) : Prop where
  lower : s.bracket.lower = s.incumbent.value
  best : ∀ c, s.incumbent.best = some c → ∃ z, Candidate P t c z
  nodes : ∀ node ∈ s.frontier.nodes, Solved P node

/-- The incumbent of the second state is at least as good as that of the first. -/
def Grows (s t : State ExtRat β η ε) : Prop :=
  ∀ c v, s.incumbent.best = some c → c.value = num v →
    ∃ c' v', t.incumbent.best = some c' ∧ c'.value = num v' ∧ v ≤ v'

theorem Matched.grows {t : ℚ} {s s' : State ExtRat β η ε} {z : List ℤ} (g : Grows s s')
    (h : Matched P t s.incumbent.best z) : Matched P t s'.incumbent.best z := by
  obtain ⟨c, v, hc, hv, hz⟩ := h
  obtain ⟨c', v', hc', hv', hle⟩ := g c v hc hv
  exact ⟨c', v', hc', hv', by linarith⟩

/-- The lower bound is a number or `-∞`, and then there is no incumbent. -/
theorem Invariant.lower_cases {t : ℚ} {s : State ExtRat β η ε} (h : Invariant P t s) :
    (s.incumbent.best = none ∧ s.bracket.lower = .negInf)
      ∨ ∃ c v, s.incumbent.best = some c ∧ c.value = num v ∧ s.bracket.lower = num v := by
  have hlower := h.lower
  rw [Incumbent.value] at hlower
  cases hb : s.incumbent.best with
  | none => exact .inl ⟨rfl, by rw [hlower, hb]; rfl⟩
  | some c =>
      obtain ⟨z, hz⟩ := h.best c hb
      exact .inr ⟨c, _, rfl, hz.value, by rw [hlower, hb]; exact hz.value⟩

/-- What does not exceed the lower bound is matched by the incumbent. -/
theorem Invariant.le_of_not_lt {t q : ℚ} {s : State ExtRat β η ε} (h : Invariant P t s)
    (hnot : ¬ s.bracket.lower < num q) :
    ∃ c v, s.incumbent.best = some c ∧ c.value = num v ∧ q ≤ v := by
  rcases h.lower_cases with ⟨-, hl⟩ | ⟨c, v, hbest, hv, hl⟩
  · rw [hl] at hnot
    exact absurd (ExtRat.negInf_lt_num q) hnot
  · rw [hl, ExtRat.num_lt, not_lt] at hnot
    exact ⟨c, v, hbest, hv, hnot⟩

/-- A node with an exact answer is solved. -/
theorem solved_withRelaxation (hP : P.Regular) {node : Node ExtRat}
    (proper : ∀ change ∈ node.changes, change.Proper P.numVars) {x : List ℚ}
    (hx : Subproblem.Contains ⟨P.embed, node.changes⟩ x)
    (greatest : ∀ y, Subproblem.Contains ⟨P.embed, node.changes⟩ y →
      P.embed.value (nums y) ≤ P.embed.value (nums x)) :
    Solved P (node.withRelaxation (P.embed.value (nums x)) (nums x)) := by
  refine ⟨proper, ⟨x, rfl, (feasible_of_contains hP hx).length⟩, _, P.value_embed x,
    fun y hy => ?_⟩
  have := greatest y hy
  rwa [Program.value_embed, Program.value_embed, ExtRat.num_le] at this

/-! ### Filing a child -/

theorem Grows.refl (s : State ExtRat β η ε) : Grows s s :=
  fun c v hc hv => ⟨c, v, hc, hv, le_rfl⟩

/-- A later state: the same nodes are open and maybe more, and the incumbent is no worse. -/
structure Later (s t : State ExtRat β η ε) : Prop where
  nodes : ∀ node ∈ s.frontier.nodes, node ∈ t.frontier.nodes
  grows : Grows s t

theorem Covered.later {t : ℚ} {s s' : State ExtRat β η ε} {z : List ℤ} (l : Later s s')
    (h : Covered P t s z) : Covered P t s' z := by
  rcases h with ⟨node, hnode, ha⟩ | hm
  · exact .inl ⟨node, l.nodes node hnode, ha⟩
  · exact .inr (hm.grows l.grows)

/-- The invariant speaks of neither the numbering of the nodes nor the session. -/
theorem Invariant.relabel {t : ℚ} {s : State ExtRat β η ε} (inv : Invariant P t s) (nextId : ℕ)
    (session : Session ExtRat β η ε) : Invariant P t { s with nextId, session } :=
  ⟨inv.lower, inv.best, inv.nodes⟩

/-- A candidate that is offered leaves an incumbent that is at least as good. -/
theorem Invariant.adopt_candidate {t : ℚ} {s : State ExtRat β η ε} (inv : Invariant P t s)
    {c : Solution ExtRat} {z : List ℤ} (hc : Candidate P t c z) (node : Node ExtRat) :
    Invariant P t (s.adopt node (.candidate c)) ∧ Later s (s.adopt node (.candidate c))
      ∧ ∃ c' v', (s.adopt node (.candidate c)).incumbent.best = some c' ∧ c'.value = num v'
        ∧ innerProd P.objective (lattice z) ≤ v' := by
  rw [State.adopt]
  cases hi : s.incumbent.improvedBy c with
  | true =>
      have hoffer := Incumbent.offer_of_improvedBy hi
      have hlt : s.bracket.lower < c.value := inv.lower ▸ of_decide_eq_true hi
      -- the bound to exceed is `-∞` or the objective of the incumbent
      have raised : greater s.bracket.lower c.value = c.value ∧ ∀ c₀ v₀,
          s.incumbent.best = some c₀ → c₀.value = num v₀ →
            v₀ ≤ innerProd P.objective (lattice z) := by
        rw [hc.value] at hlt ⊢
        rcases inv.lower_cases with ⟨hnone, hl⟩ | ⟨c₁, v₁, hsome, hv₁, hl⟩
        · rw [hl, hnone]
          exact ⟨ExtRat.greater_negInf _, fun c₀ v₀ h₀ => by cases h₀⟩
        · rw [hl, ExtRat.num_lt] at hlt
          rw [hl, ExtRat.greater_num, max_eq_right hlt.le, hsome]
          refine ⟨rfl, fun c₀ v₀ h₀ hv₀ => ?_⟩
          cases Option.some.inj h₀
          exact (ExtRat.num.inj (hv₀.symm.trans hv₁)).trans_le hlt.le
      simp only [if_true, hoffer]
      refine ⟨⟨raised.1, fun c' hc' => ?_, inv.nodes⟩, ⟨fun node hnode => hnode, ?_⟩, ?_⟩
      · cases Option.some.inj hc'
        exact ⟨z, hc⟩
      · exact fun c₀ v₀ h₀ hv₀ => ⟨c, _, rfl, hc.value, raised.2 c₀ v₀ h₀ hv₀⟩
      · exact ⟨c, _, rfl, hc.value, le_rfl⟩
  | false =>
      have hnot : ¬ s.bracket.lower < c.value := inv.lower ▸ of_decide_eq_false hi
      simp only [Bool.false_eq_true, if_false]
      refine ⟨inv, ⟨fun node hnode => hnode, .refl s⟩, ?_⟩
      rw [hc.value] at hnot
      exact inv.le_of_not_lt hnot

/-- **One child.**  A child whose region has a bounded objective keeps the invariant when it is
placed; what was covered stays covered, and every integer point of the child is covered. -/
theorem Invariant.place (hP : P.Regular) (hO : S.oracle.ExactOn P.embed)
    (ht : 0 ≤ S.settings.integrality) {s t : State ExtRat β η ε} {node : Node ExtRat}
    (proper : ∀ change ∈ node.changes, change.Proper P.numVars)
    (bounded : ∃ v, ∀ x, Subproblem.Contains ⟨P.embed, node.changes⟩ x
      → innerProd P.objective x ≤ v)
    (inv : Invariant P (reach S.settings.integrality) s) (h : S.place P.embed node s = .ok t) :
    Invariant P (reach S.settings.integrality) t ∧ Later s t
      ∧ ∀ z, P.Feasible (lattice z) → Admits node.changes (lattice z) →
          Covered P (reach S.settings.integrality) t z := by
  have hr := ExtRat.reach_nonneg ht
  obtain ⟨relaxation, fate, hanswer, hfate, rfl⟩ := Solver.place_ok h
  generalize (s.session.note (.created node)).afterReply _ _ = session
  have exact := hO node.changes s.session.oracle relaxation
    (by rwa [Program.numVars_embed]) hanswer
  rcases Solver.fate?_cases hfate with ⟨v, y, rfl, hlt, hint, rfl⟩ | ⟨v, y, rfl, hlt, hint, rfl⟩
    | ⟨v, y, rfl, hnot, rfl⟩ | ⟨rfl, rfl⟩ | ⟨rfl, rfl⟩
  · -- an integral vertex: its nearest integers compete for the incumbent
    obtain ⟨⟨x, rfl, hx⟩, rfl, greatest⟩ := exact
    obtain ⟨x', hx', near⟩ := exists_nums_of_isIntegral hint
    cases nums_injective hx'
    have hc := candidate_of_snap hr (feasible_of_contains hP hx) near
    obtain ⟨hinv, hlater, c', v', hbest, hv', hle⟩ :=
      (inv.relabel (s.nextId + 1) (session.note (.filed node _))).adopt_candidate hc node
    refine ⟨hinv, ⟨hlater.nodes, hlater.grows⟩, fun z hz ha => .inr ⟨c', v', hbest, hv', ?_⟩⟩
    have hzx := greatest _ (contains_of_feasible hP hz ha)
    rw [Program.value_embed, Program.value_embed, ExtRat.num_le] at hzx
    have hsnap := (abs_le.mp (abs_innerProd_snap_sub_le hr near P.objective)).1
    linarith
  · -- a fractional vertex: the child stays open
    obtain ⟨⟨x, rfl, hx⟩, rfl, greatest⟩ := exact
    have solved := solved_withRelaxation hP proper hx greatest
    refine ⟨⟨inv.lower, inv.best, fun n hn => ?_⟩,
      ⟨fun n hn => List.mem_append_left _ hn, .refl s⟩,
      fun z _ ha => .inl ⟨_, List.mem_append_right _ (List.mem_singleton_self _), ha⟩⟩
    rcases List.mem_append.mp hn with hn | hn
    · exact inv.nodes n hn
    · exact List.mem_singleton.mp hn ▸ solved
  · -- a bound that does not exceed the incumbent
    obtain ⟨⟨x, rfl, hx⟩, rfl, greatest⟩ := exact
    refine ⟨⟨inv.lower, inv.best, inv.nodes⟩, ⟨fun n hn => hn, .refl s⟩, fun z hz ha => .inr ?_⟩
    have hzx := greatest _ (contains_of_feasible hP hz ha)
    rw [Program.value_embed, Program.value_embed, ExtRat.num_le] at hzx
    rw [Program.value_embed] at hnot
    obtain ⟨c, w, hbest, hw, hle⟩ := inv.le_of_not_lt hnot
    have := mul_nonneg hr (weight_nonneg P.objective)
    exact ⟨c, w, hbest, hw, by linarith⟩
  · -- an empty region
    refine ⟨⟨inv.lower, inv.best, inv.nodes⟩, ⟨fun n hn => hn, .refl s⟩, fun z hz ha => ?_⟩
    exact absurd (contains_of_feasible hP hz ha) (exact _)
  · -- an unbounded region, which has no place in a bounded one
    obtain ⟨v, hv⟩ := bounded
    obtain ⟨x, hx, hgreater⟩ := exact v
    rw [Program.value_embed, ExtRat.num_lt] at hgreater
    exact absurd (hv x hx) (not_le.mpr hgreater)

/-! ### Splitting a node -/

/-- The points that a split has to cover again once the node is taken: those of the node. -/
theorem Covered.select {t : ℚ} {s : State ExtRat β η ε} {node : Node ExtRat}
    {rest : Frontier ExtRat} {z : List ℤ} (hpop : s.frontier.pop? = some (node, rest))
    (h : Covered P t s z) :
    Admits node.changes (lattice z) ∨ Covered P t (s.select node rest) z := by
  obtain ⟨hnode, rfl⟩ := Frontier.pop?_eq_some_iff.mp hpop
  rcases h with ⟨other, hother, ha⟩ | hm
  · obtain ⟨i, hi⟩ := List.mem_iff_getElem?.mp hother
    rcases eq_or_ne i (s.frontier.policy s.frontier.nodes) with rfl | hne
    · cases Option.some.inj (hi.symm.trans hnode)
      exact .inl ha
    · exact .inr (.inl ⟨other, List.mem_eraseIdx_iff_getElem?.mpr ⟨i, hne, hi⟩, ha⟩)
  · exact .inr (.inr hm)

theorem Invariant.select {t : ℚ} {s : State ExtRat β η ε} {node : Node ExtRat}
    {rest : Frontier ExtRat} (inv : Invariant P t s)
    (hpop : s.frontier.pop? = some (node, rest)) :
    Solved P node ∧ Invariant P t (s.select node rest) := by
  obtain ⟨hnode, rfl⟩ := Frontier.pop?_eq_some_iff.mp hpop
  exact ⟨inv.nodes node (List.mem_of_getElem? hnode), inv.lower, inv.best,
    fun n hn => inv.nodes n (List.mem_of_mem_eraseIdx hn)⟩

/-- A child of a solved node has proper changes and a bounded objective. -/
theorem Solved.child {node : Node ExtRat} (h : Solved P node) {change : BoundChange ExtRat}
    (hc : change.Proper P.numVars) (id : ℕ) :
    (∀ c ∈ (node.child id change).changes, c.Proper P.numVars)
      ∧ ∃ v, ∀ x, Subproblem.Contains ⟨P.embed, (node.child id change).changes⟩ x
          → innerProd P.objective x ≤ v := by
  obtain ⟨v, -, hv⟩ := h.bound
  refine ⟨fun c hmem => ?_, v, fun x hx => hv x hx.of_append⟩
  rcases List.mem_append.mp hmem with hmem | hmem
  · exact h.proper c hmem
  · exact List.mem_singleton.mp hmem ▸ hc

/-- A coordinate of a solved node belongs to a variable of the program and is a number. -/
theorem Solved.coordinate {node : Node ExtRat} (h : Solved P node) {var : ℕ} {value : ExtRat}
    (hvar : var < node.vertex.length) (hvalue : node.vertex[var]? = some value) :
    var < P.numVars ∧ ∃ q, value = num q := by
  obtain ⟨x, hx, hlength⟩ := h.vertex
  rw [hx, length_nums, hlength] at hvar
  rw [hx, nums, List.getElem?_map, Option.map_eq_some_iff] at hvalue
  obtain ⟨q, -, rfl⟩ := hvalue
  exact ⟨hvar, q, rfl⟩

/-- Splitting an open node keeps the invariant, and every integer point that was covered. -/
theorem Invariant.split (hP : P.Regular) (hO : S.oracle.ExactOn P.embed)
    (ht : 0 ≤ S.settings.integrality) (hS : S.selector.InRange) {s t : State ExtRat β η ε}
    (inv : Invariant P (reach S.settings.integrality) s) (h : S.expand P.embed s = .ok t) :
    ∃ u, t = S.settle u ∧ Invariant P (reach S.settings.integrality) u
      ∧ ∀ z, P.Feasible (lattice z) → Covered P (reach S.settings.integrality) s z →
          Covered P (reach S.settings.integrality) u z := by
  obtain ⟨parent, rest, var, value, down, up, hpop, hvar, hvalue, hdown, hup, rfl⟩ :=
    Solver.expand_ok h
  obtain ⟨solved, selected⟩ := inv.select hpop
  obtain ⟨hn, q, rfl⟩ := solved.coordinate (hS _ _ _ hvar) hvalue
  obtain ⟨properDown, boundedDown⟩ :=
    solved.child (BoundChange.proper_down hn q) (s.select parent rest).nextId
  obtain ⟨invDown, laterDown, coverDown⟩ :=
    selected.place hP hO ht properDown boundedDown hdown
  obtain ⟨properUp, boundedUp⟩ := solved.child (BoundChange.proper_up hn q) down.nextId
  obtain ⟨invUp, laterUp, coverUp⟩ := invDown.place hP hO ht properUp boundedUp hup
  refine ⟨up, rfl, invUp, fun z hz hcovered => ?_⟩
  rcases hcovered.select hpop with hparent | hrest
  · -- a point of the parent is a point of one of the two children
    have hz' : var < z.length := by rwa [← length_lattice, hz.length]
    rcases BoundChange.down_or_up_admits q hz' with ha | ha
    · exact (coverDown z hz (admits_append_singleton.mpr ⟨hparent, ha⟩)).later laterUp
    · exact coverUp z hz (admits_append_singleton.mpr ⟨hparent, ha⟩)
  · exact (hrest.later laterDown).later laterUp

/-! ### The whole loop -/

/-- What holds of a state that is about to take its next node. -/
structure Settled (P : Program ℚ) (S : Solver ExtRat β η ε) (s : State ExtRat β η ε) : Prop
    extends Invariant P (reach S.settings.integrality) s where
  rule : s.bracket.rule = S.settings.rule
  upper : ∀ node ∈ s.frontier.nodes, ∃ u v, s.bracket.upper = num u ∧ node.bound = num v ∧ v ≤ u
  covered : ∀ z, P.Feasible (lattice z) → Covered P (reach S.settings.integrality) s z

/-- The upper bound that is read off the open nodes is above the bound of each. -/
theorem Invariant.upper_refresh {t : ℚ} {s : State ExtRat β η ε} (inv : Invariant P t s) :
    ∀ node ∈ s.frontier.nodes, ∃ u v,
      (s.bracket.refresh s.frontier.bestBound?).upper = num u ∧ node.bound = num v ∧ v ≤ u := by
  intro node hnode
  have rational : ∀ n ∈ s.frontier.nodes, ∃ v, n.bound = num v := fun n hn =>
    (inv.nodes n hn).bound.imp fun _ h => h.1
  obtain ⟨best, hbest, greatest⟩ := Frontier.bestBound?_num rational (List.ne_nil_of_mem hnode)
  obtain ⟨v, hv⟩ := rational node hnode
  have hle := greatest node hnode v hv
  simp only [hbest, Bracket.refresh]
  rcases inv.lower_cases with ⟨-, hl⟩ | ⟨-, w, -, -, hl⟩
  · exact ⟨best, v, by rw [hl, ExtRat.greater_negInf_right], hv, hle⟩
  · exact ⟨max best w, v, by rw [hl, ExtRat.greater_num], hv, hle.trans (le_max_left best w)⟩

/-- **A step keeps the invariant.**  After a node was split every integer point is still covered,
and the upper bound is still above every open bound. -/
theorem Settled.expand (hP : P.Regular) (hO : S.oracle.ExactOn P.embed)
    (ht : 0 ≤ S.settings.integrality) (hS : S.selector.InRange) {s t : State ExtRat β η ε}
    (settled : Settled P S s) (h : S.expand P.embed s = .ok t) : Settled P S t := by
  have hrule := (iterations_expand h).2
  obtain ⟨u, rfl, inv, covers⟩ := settled.toInvariant.split hP hO ht hS h
  refine ⟨⟨inv.lower, inv.best, inv.nodes⟩, hrule.trans settled.rule, inv.upper_refresh,
    fun z hz => ?_⟩
  exact covers z hz (settled.covered z hz)

/-- The first candidate becomes the incumbent. -/
theorem offer_none_num (x : List ExtRat) (v : ℚ) :
    Incumbent.none.offer ⟨x, num v⟩ = ⟨some ⟨x, num v⟩, 1⟩ :=
  Incumbent.offer_of_improvedBy (decide_eq_true (ExtRat.negInf_lt_num v))

theorem lower_start_raise (bound : ExtRat) (rule : StopRule ExtRat) (v : ℚ) :
    ((Bracket.start bound rule).raise (num v)).lower = num v :=
  ExtRat.greater_negInf v

/-- The search begins with a root that admits every point. -/
theorem Settled.begin (hP : P.Regular) (hH : S.heuristic.FeasibleOn P.embed)
    (ht : 0 ≤ S.settings.integrality) {bound : ExtRat} {vertex : List ExtRat}
    (exact : Subproblem.SolvedBy ⟨P.embed, []⟩ (.optimal bound vertex))
    {session : Session ExtRat β η ε} {s : State ExtRat β η ε}
    (h : S.begin P.embed bound vertex session = .ok s) : Settled P S s := by
  obtain ⟨⟨x, rfl, hx⟩, rfl, greatest⟩ := exact
  obtain ⟨hnodes, hrule, -, hstart⟩ := Solver.begin_ok h
  have root : Solved P (Node.root.withRelaxation (P.embed.value (nums x)) (nums x)) :=
    solved_withRelaxation hP (fun c hc => absurd hc List.not_mem_nil) hx greatest
  have nodes : ∀ node ∈ s.frontier.nodes, Solved P node := fun node hnode => by
    rw [hnodes] at hnode
    exact List.mem_singleton.mp hnode ▸ root
  have upper : s.bracket.upper = P.embed.value (nums x) := by
    rcases hstart with ⟨-, hb, -⟩ | ⟨y, -, hb, -⟩ <;> rw [hb] <;> rfl
  refine ⟨⟨?_, ?_, nodes⟩, hrule, fun node hnode => ?_, fun z _ => .inl ?_⟩
  · rcases hstart with ⟨-, hb, hi⟩ | ⟨y, hy, hb, hi⟩
    · rw [hb, hi]
      rfl
    · obtain ⟨⟨z, rfl⟩, -⟩ := hH _ _ _ hy
      rw [Program.value_embed P (lattice z)] at hb hi
      rw [hb, hi, offer_none_num]
      exact lower_start_raise _ _ _
  · intro c hc
    rcases hstart with ⟨-, -, hi⟩ | ⟨y, hy, -, hi⟩
    · rw [hi] at hc
      cases hc
    · obtain ⟨⟨z, rfl⟩, hz⟩ := hH _ _ _ hy
      have hcand := candidate_of_feasible (ExtRat.reach_nonneg ht)
        ((Program.satisfies_embed_iff hP).mp hz)
      rw [Program.value_embed P (lattice z)] at hi hcand
      rw [hi, offer_none_num] at hc
      exact Option.some.inj hc ▸ ⟨z, hcand⟩
  · rw [hnodes] at hnode
    cases List.mem_singleton.mp hnode
    exact ⟨_, _, upper.trans (P.value_embed x), P.value_embed x, le_rfl⟩
  · rw [hnodes]
    exact ⟨_, List.mem_singleton_self _, fun c hc => absurd hc List.not_mem_nil⟩

/-- **Every state of a search is settled.** -/
theorem Settled.reaches (hP : P.Regular) (hO : S.oracle.ExactOn P.embed)
    (ht : 0 ≤ S.settings.integrality) (hS : S.selector.InRange) {s t : State ExtRat β η ε}
    (run : Reaches S P.embed s t) (settled : Settled P S s) : Settled P S t :=
  run.invariant (fun _ _ hs _ hexpand => hs.expand hP hO ht hS hexpand) settled

end IntegerProgramming.Search
