import Mathlib
import IntegerProgramming.Proofs.Search.Optimality

/-!
# Search — how the bounds close in

A record keeps the two bounds as they were at the start and after each node.  With exact answers,
and a tolerance of zero for integers, each pair of them brackets the optimum (`BracketedBy`): the
lower bound is attained by an integer point or is `-∞`, and no integer point exceeds the upper one.

**The bounds close in** (`Solver.closesIn`): every recorded pair brackets the optimum, the lower
bounds never decrease and the upper bounds never increase.  The upper bound is taken anew from the
open nodes after each node, so what makes it fall is that a region is part of its parent's: neither
the bound of a child nor the objective of an integral vertex found there exceeds the bound of the
parent (`Capped.place`).  An integral vertex is its own rounding only because the tolerance is zero.
-/

namespace IntegerProgramming

open ExtRat (num innerProd reach)

/-! ### Bounds on an optimum -/

/-- The bounds bracket the optimum: the lower one is attained by an integer point, unless it is
`-∞`, and neither an integer point nor the lower bound exceeds the upper one. -/
structure Program.BracketedBy (p : Program ExtRat) (bounds : ExtRat × ExtRat) : Prop where
  attained : bounds.1 = -infinity
    ∨ ∃ z : List ℤ, p.satisfies (nums (lattice z)) 0 = true ∧ bounds.1 = p.value (nums (lattice z))
  valid : ∀ z : List ℤ, p.satisfies (nums (lattice z)) 0 = true →
    p.value (nums (lattice z)) ≤ bounds.2
  ordered : bounds.1 ≤ bounds.2

/-- The later bounds lie within the earlier ones. -/
def Narrows (earlier later : ExtRat × ExtRat) : Prop :=
  earlier.1 ≤ later.1 ∧ later.2 ≤ earlier.2

theorem Narrows.refl {bounds : ExtRat × ExtRat} (h : bounds.1 ≤ bounds.2) :
    Narrows bounds bounds :=
  ⟨ExtRat.le_self (ExtRat.ne_undef_of_le h).1, ExtRat.le_self (ExtRat.ne_undef_of_le h).2⟩

theorem Narrows.trans {a b c : ExtRat × ExtRat} (first : Narrows a b) (second : Narrows b c) :
    Narrows a c :=
  ⟨ExtRat.le_trans first.1 second.1, ExtRat.le_trans second.2 first.2⟩

/-- The history of the record brackets the optimum ever more closely. -/
structure Record.ClosesIn (record : Record ExtRat) (p : Program ExtRat) : Prop where
  recorded : record.stats.history ≠ []
  bracketed : ∀ bounds ∈ record.stats.history, p.BracketedBy bounds
  lower : record.lowerBounds.Pairwise fun earlier later => earlier ≤ later
  upper : record.upperBounds.Pairwise fun earlier later => later ≤ earlier

theorem Record.closesIn_of_pairwise {record : Record ExtRat} {p : Program ExtRat}
    (recorded : record.stats.history ≠ [])
    (bracketed : ∀ bounds ∈ record.stats.history, p.BracketedBy bounds)
    (narrows : record.stats.history.Pairwise Narrows) : record.ClosesIn p where
  recorded := recorded
  bracketed := bracketed
  lower := List.pairwise_map.mpr (narrows.imp And.left)
  upper := List.pairwise_map.mpr (narrows.imp And.right)

/-- The two bounds of a bracket. -/
def Bracket.bounds {α : Type} (b : Bracket α) : α × α := (b.lower, b.upper)

/-- What no open node exceeds, the greatest bound does not exceed. -/
theorem Frontier.bestBound?_le {f : Frontier ExtRat} {cap best : ExtRat}
    (h : ∀ node ∈ f.nodes, node.bound ≤ cap) (hbest : f.bestBound? = some best) :
    best ≤ cap := by
  obtain ⟨policy, nodes⟩ := f
  cases nodes with
  | nil => cases hbest
  | cons first rest =>
      obtain ⟨hfirst, hrest⟩ := List.forall_mem_cons.mp h
      cases hbest
      refine List.foldlRecOn (motive := fun bound => bound ≤ cap) rest _ hfirst ?_
      intro bound hbound node hnode
      exact ExtRat.greater_le hbound (hrest node hnode)

/-- A point that is integral without tolerance is its own rounding. -/
theorem nearestIntegers_of_isIntegral {xs : List ExtRat} (h : isIntegral xs 0 = true) :
    nearestIntegers xs = xs := by
  obtain ⟨x, rfl, near⟩ := exists_nums_of_isIntegral h
  have exact : ∀ v ∈ x, (ExtRat.nearest v : ℚ) = v := fun v hv => by
    have := near v hv
    rw [ExtRat.reach_zero, abs_nonpos_iff, sub_eq_zero] at this
    exact this.symm
  rw [nearestIntegers_nums, lattice, snap, List.map_map]
  exact congrArg nums ((List.map_congr_left exact).trans (List.map_id' x))

end IntegerProgramming

namespace IntegerProgramming.Search

open ExtRat (num innerProd reach)

variable {β η ε : Type} {S : Solver ExtRat β η ε} {P : Program ℚ}

/-! ### Caps -/

/-- Neither the lower bound nor the bound of an open node exceeds the cap. -/
structure Capped (cap : ExtRat) (s : State ExtRat β η ε) : Prop where
  lower : s.bracket.lower ≤ cap
  nodes : ∀ node ∈ s.frontier.nodes, node.bound ≤ cap

/-- No point of the region of a solved node exceeds its bound. -/
theorem Solved.value_le {node : Node ExtRat} (h : Solved P node) {x : List ℚ}
    (hx : Subproblem.Contains ⟨P.embed, node.changes⟩ x) : P.embed.value (nums x) ≤ node.bound := by
  obtain ⟨v, hv, hbound⟩ := h.bound
  rw [Program.value_embed, hv, ExtRat.num_le]
  exact hbound x hx

theorem Settled.bound_le {s : State ExtRat β η ε} (settled : Settled P S s) {node : Node ExtRat}
    (hnode : node ∈ s.frontier.nodes) : node.bound ≤ s.bracket.upper := by
  obtain ⟨u, v, hu, hv, hle⟩ := settled.upper node hnode
  rw [hu, hv, ExtRat.num_le]
  exact hle

/-- The cap speaks of neither the numbering of the nodes nor the session. -/
theorem Capped.relabel {cap : ExtRat} {s : State ExtRat β η ε} (capped : Capped cap s)
    (nextId : ℕ) (session : Session ExtRat β η ε) : Capped cap { s with nextId, session } :=
  ⟨capped.lower, capped.nodes⟩

theorem Capped.select {cap : ExtRat} {s : State ExtRat β η ε} (capped : Capped cap s)
    {node : Node ExtRat} {rest : Frontier ExtRat} (hpop : s.frontier.pop? = some (node, rest)) :
    node ∈ s.frontier.nodes ∧ Capped cap (s.select node rest) := by
  obtain ⟨hnode, rfl⟩ := Frontier.pop?_eq_some_iff.mp hpop
  exact ⟨List.mem_of_getElem? hnode, capped.lower,
    fun n hn => capped.nodes n (List.mem_of_mem_eraseIdx hn)⟩

/-- A candidate below the cap leaves it above the lower bound, which does not fall. -/
theorem Capped.adopt_candidate {cap : ExtRat} {s : State ExtRat β η ε} (capped : Capped cap s)
    {c : Solution ExtRat} (hc : c.value ≤ cap) (node : Node ExtRat) :
    Capped cap (s.adopt node (.candidate c))
      ∧ s.bracket.lower ≤ (s.adopt node (.candidate c)).bracket.lower := by
  have defined := (ExtRat.ne_undef_of_le capped.lower).1
  rw [State.adopt]
  split
  · exact ⟨⟨ExtRat.greater_le capped.lower hc, capped.nodes⟩, ExtRat.le_greater_left defined _⟩
  · exact ⟨capped, ExtRat.le_self defined⟩

/-- **One child.**  When a child is placed whose points do not exceed the cap, the cap holds, and
the lower bound does not fall. -/
theorem Capped.place (hO : S.oracle.ExactOn P.embed) (hint : S.settings.integrality = 0)
    {cap : ExtRat} {s t : State ExtRat β η ε} {node : Node ExtRat}
    (proper : ∀ change ∈ node.changes, change.Proper P.numVars)
    (region : ∀ x, Subproblem.Contains ⟨P.embed, node.changes⟩ x → P.embed.value (nums x) ≤ cap)
    (capped : Capped cap s) (h : S.place P.embed node s = .ok t) :
    Capped cap t ∧ s.bracket.lower ≤ t.bracket.lower := by
  have unchanged := ExtRat.le_self (ExtRat.ne_undef_of_le capped.lower).1
  obtain ⟨relaxation, fate, hanswer, hfate, rfl⟩ := Solver.place_ok h
  generalize (s.session.note (.created node)).afterReply _ _ = session
  have exact := hO node.changes s.session.oracle relaxation
    (by rwa [Program.numVars_embed]) hanswer
  rcases Solver.fate?_cases hfate with ⟨v, y, rfl, -, hy, rfl⟩ | ⟨v, y, rfl, -, -, rfl⟩
    | ⟨v, y, rfl, -, rfl⟩ | ⟨rfl, rfl⟩ | ⟨rfl, rfl⟩
  · -- an integral vertex competes as it is
    obtain ⟨⟨x, rfl, hx⟩, rfl, -⟩ := exact
    rw [hint] at hy
    rw [nearestIntegers_of_isIntegral hy]
    have hc : (⟨nums x, P.embed.value (nums x)⟩ : Solution ExtRat).value ≤ cap := region x hx
    exact (capped.relabel (s.nextId + 1) (session.note (.filed node _))).adopt_candidate hc node
  · -- an open child has the objective of its vertex for a bound
    obtain ⟨⟨x, rfl, hx⟩, rfl, -⟩ := exact
    refine ⟨⟨capped.lower, fun n hn => ?_⟩, unchanged⟩
    rcases List.mem_append.mp hn with hn | hn
    · exact capped.nodes n hn
    · exact List.mem_singleton.mp hn ▸ region x hx
  · exact ⟨⟨capped.lower, capped.nodes⟩, unchanged⟩
  · exact ⟨⟨capped.lower, capped.nodes⟩, unchanged⟩
  · exact ⟨⟨capped.lower, capped.nodes⟩, unchanged⟩

/-- Filing a child leaves the history alone. -/
theorem Solver.history_place {α : Type} [Scalar α] {S : Solver α β η ε} {p : Program α}
    {node : Node α} {s t : State α β η ε} (h : S.place p node s = .ok t) :
    t.bracket.history = s.bracket.history := by
  obtain ⟨relaxation, fate, -, -, rfl⟩ := Solver.place_ok h
  cases fate with
  | candidate c =>
      rw [State.file, State.adopt]
      split
      · rfl
      · rfl
  | kept v x => rfl
  | pruned kind => rfl
  | discarded => rfl

/-- Both children of a node that is split stay below the upper bound, and the lower bound does not
fall. -/
theorem Settled.capped_split (hO : S.oracle.ExactOn P.embed) (hS : S.selector.InRange)
    (hint : S.settings.integrality = 0) {s t : State ExtRat β η ε} (settled : Settled P S s)
    (ordered : s.bracket.lower ≤ s.bracket.upper) (h : S.expand P.embed s = .ok t) :
    ∃ up, t = S.settle up ∧ Capped s.bracket.upper up ∧ s.bracket.lower ≤ up.bracket.lower
      ∧ up.bracket.history = s.bracket.history := by
  obtain ⟨parent, rest, var, value, down, up, hpop, hvar, hvalue, hdown, hup, rfl⟩ :=
    Solver.expand_ok h
  have capped : Capped s.bracket.upper s := ⟨ordered, fun node hnode => settled.bound_le hnode⟩
  obtain ⟨hparent, selected⟩ := capped.select hpop
  have solved := settled.nodes parent hparent
  obtain ⟨hn, q, rfl⟩ := solved.coordinate (hS _ _ _ hvar) hvalue
  have region (id : ℕ) (change : BoundChange ExtRat) (x : List ℚ)
      (hx : Subproblem.Contains ⟨P.embed, (parent.child id change).changes⟩ x) :
      P.embed.value (nums x) ≤ s.bracket.upper :=
    ExtRat.le_trans (solved.value_le hx.of_append) (settled.bound_le hparent)
  obtain ⟨cappedDown, lowerDown⟩ := selected.place hO hint
    (solved.child (BoundChange.proper_down hn q) _).1 (region _ _) hdown
  obtain ⟨cappedUp, lowerUp⟩ := cappedDown.place hO hint
    (solved.child (BoundChange.proper_up hn q) _).1 (region _ _) hup
  have historyDown : down.bracket.history = s.bracket.history :=
    Solver.history_place (s := s.select parent rest) hdown
  exact ⟨up, rfl, cappedUp, ExtRat.le_trans lowerDown lowerUp,
    (Solver.history_place hup).trans historyDown⟩

/-- The upper bound that is read off the open nodes lies between the lower bound and any cap. -/
theorem Capped.refresh {cap : ExtRat} {s : State ExtRat β η ε} (capped : Capped cap s) :
    s.bracket.lower ≤ (s.bracket.refresh s.frontier.bestBound?).upper
      ∧ (s.bracket.refresh s.frontier.bestBound?).upper ≤ cap := by
  have defined := (ExtRat.ne_undef_of_le capped.lower).1
  simp only [Bracket.refresh]
  cases hbest : s.frontier.bestBound? with
  | none => exact ⟨ExtRat.le_self defined, capped.lower⟩
  | some best =>
      exact ⟨ExtRat.le_greater_right best defined,
        ExtRat.greater_le (Frontier.bestBound?_le capped.nodes hbest) capped.lower⟩

/-! ### The bounds of a settled state -/

/-- The lower bound is `-∞` or the objective of a feasible integer point. -/
theorem Invariant.attained (hP : P.Regular) {s : State ExtRat β η ε} (inv : Invariant P 0 s) :
    s.bracket.lower = -infinity ∨ ∃ z : List ℤ, P.embed.satisfies (nums (lattice z)) 0 = true
      ∧ s.bracket.lower = P.embed.value (nums (lattice z)) := by
  rw [inv.lower, Incumbent.value]
  cases hbest : s.incumbent.best with
  | none => exact .inl rfl
  | some c =>
      obtain ⟨z, hc⟩ := inv.best c hbest
      have feasible : P.Feasible (lattice z) := by
        refine ⟨(length_lattice z).trans hc.length, fun q hq => ?_, fun row hrow => ?_⟩
        · obtain ⟨k, hk, rfl⟩ := List.mem_map.mp hq
          exact_mod_cast hc.nonneg k hk
        · simpa using hc.limits row hrow
      refine .inr ⟨z, (Program.satisfies_embed_iff hP).mpr feasible, ?_⟩
      rw [Program.value_embed]
      exact hc.value

/-- Without a tolerance the bounds of a settled state bracket the optimum. -/
theorem Settled.bracketed (hP : P.Regular) (hint : S.settings.integrality = 0)
    {s : State ExtRat β η ε} (settled : Settled P S s)
    (ordered : s.bracket.lower ≤ s.bracket.upper) : P.embed.BracketedBy s.bracket.bounds := by
  have inv := settled.toInvariant
  have covered := settled.covered
  rw [hint, ExtRat.reach_zero] at inv covered
  refine ⟨inv.attained hP, fun z hz => ?_, ordered⟩
  have hz' := (Program.satisfies_embed_iff hP).mp hz
  rcases covered z hz' with ⟨node, hnode, ha⟩ | ⟨c, v, hbest, hv, hle⟩
  · exact ExtRat.le_trans ((settled.nodes node hnode).value_le (contains_of_feasible hP hz' ha))
      (settled.bound_le hnode)
  · have hlower : s.bracket.lower = num v := by
      rw [inv.lower, Incumbent.value, hbest]
      exact hv
    rw [zero_mul, add_zero] at hle
    rw [Program.value_embed]
    exact ExtRat.num_le_of_le hle (hlower ▸ ordered)

/-! ### The history of a search -/

/-- What holds of a state that is about to take its next node: it is settled, its bounds are the
last of its history, and the history closes in on the optimum. -/
structure Closing (P : Program ℚ) (S : Solver ExtRat β η ε) (s : State ExtRat β η ε) : Prop
    extends Settled P S s where
  ordered : s.bracket.lower ≤ s.bracket.upper
  recorded : s.bracket.history ≠ []
  bracketed : ∀ bounds ∈ s.bracket.history, P.embed.BracketedBy bounds
  narrows : ∀ bounds ∈ s.bracket.history, Narrows bounds s.bracket.bounds
  pairwise : s.bracket.history.Pairwise Narrows

/-- **A step narrows the bounds.** -/
theorem Closing.expand (hP : P.Regular) (hO : S.oracle.ExactOn P.embed) (hS : S.selector.InRange)
    (ht : 0 ≤ S.settings.integrality) (hint : S.settings.integrality = 0)
    {s t : State ExtRat β η ε} (closing : Closing P S s) (h : S.expand P.embed s = .ok t) :
    Closing P S t := by
  have settled : Settled P S t := closing.toSettled.expand hP hO ht hS h
  obtain ⟨up, rfl, capped, rises, hhistory⟩ :=
    closing.toSettled.capped_split hO hS hint closing.ordered h
  obtain ⟨ordered, falls⟩ := capped.refresh
  have step : Narrows s.bracket.bounds (S.settle up).bracket.bounds := ⟨rises, falls⟩
  have earlier : ∀ bounds ∈ s.bracket.history, Narrows bounds (S.settle up).bracket.bounds :=
    fun bounds hmem => (closing.narrows bounds hmem).trans step
  have history : (S.settle up).bracket.history
      = s.bracket.history ++ [(S.settle up).bracket.bounds] := by
    rw [← hhistory]
    rfl
  refine ⟨settled, ordered, ?_, ?_, ?_, ?_⟩
  · rw [history]
    exact List.append_ne_nil_of_right_ne_nil _ (List.cons_ne_nil _ _)
  · rw [history, List.forall_mem_append, List.forall_mem_singleton]
    exact ⟨closing.bracketed, settled.bracketed hP hint ordered⟩
  · rw [history, List.forall_mem_append, List.forall_mem_singleton]
    exact ⟨earlier, .refl ordered⟩
  · rw [history, List.pairwise_append]
    refine ⟨closing.pairwise, List.pairwise_singleton _ _, fun bounds hmem last hlast => ?_⟩
    exact List.mem_singleton.mp hlast ▸ earlier bounds hmem

/-- The search begins with a history of one pair. -/
theorem Closing.begin (hP : P.Regular) (hH : S.heuristic.FeasibleOn P.embed)
    (ht : 0 ≤ S.settings.integrality) (hint : S.settings.integrality = 0) {bound : ExtRat}
    {vertex : List ExtRat}
    (exact : Subproblem.SolvedBy ⟨P.embed, []⟩ (.optimal bound vertex))
    {session : Session ExtRat β η ε} {s : State ExtRat β η ε}
    (h : S.begin P.embed bound vertex session = .ok s) : Closing P S s := by
  have settled := Settled.begin hP hH ht exact h
  obtain ⟨⟨x, rfl, hx⟩, rfl, greatest⟩ := exact
  obtain ⟨-, -, -, hstart⟩ := Solver.begin_ok h
  have history : s.bracket.history = [s.bracket.bounds] := by
    rcases hstart with ⟨-, hb, -⟩ | ⟨y, -, hb, -⟩
    · rw [hb]
      rfl
    · rw [hb]
      rfl
  have ordered : s.bracket.lower ≤ s.bracket.upper := by
    rcases hstart with ⟨-, hb, -⟩ | ⟨y, hy, hb, -⟩
    · rw [hb, Program.value_embed]
      exact ExtRat.negInf_le_iff.mpr (fun h => nomatch h)
    · obtain ⟨⟨z, rfl⟩, hz⟩ := hH _ _ _ hy
      rw [hb]
      change greater ExtRat.negInf (P.embed.value (nums (lattice z))) ≤ P.embed.value (nums x)
      refine ExtRat.greater_le ?_ (greatest _ ⟨hz, fun c hc => absurd hc List.not_mem_nil⟩)
      rw [Program.value_embed]
      exact ExtRat.negInf_le_iff.mpr (fun h => nomatch h)
  refine ⟨settled, ordered, ?_, ?_, ?_, ?_⟩
  · rw [history]
    exact List.cons_ne_nil _ _
  · rw [history, List.forall_mem_singleton]
    exact settled.bracketed hP hint ordered
  · rw [history, List.forall_mem_singleton]
    exact .refl ordered
  · rw [history]
    exact List.pairwise_singleton _ _

/-- **The history of every state closes in.** -/
theorem Closing.reaches (hP : P.Regular) (hO : S.oracle.ExactOn P.embed) (hS : S.selector.InRange)
    (ht : 0 ≤ S.settings.integrality) (hint : S.settings.integrality = 0)
    {s t : State ExtRat β η ε} (run : Reaches S P.embed s t) (closing : Closing P S s) :
    Closing P S t :=
  run.invariant (fun _ _ hs _ hexpand => hs.expand hP hO hS ht hint hexpand) closing

/-! ### Records -/

/-- At an integral root the bounds meet at the objective of the vertex. -/
theorem closesIn_atRoot {bound : ExtRat} {vertex : List ExtRat}
    (exact : Subproblem.SolvedBy ⟨P.embed, []⟩ (.optimal bound vertex))
    (hint : isIntegral vertex 0 = true) :
    (Record.atRoot (rootSolution P.embed vertex)).ClosesIn P.embed := by
  obtain ⟨⟨x, rfl, hx⟩, rfl, greatest⟩ := exact
  have hsnap : nums (lattice (snap x)) = nums x := by
    rw [← nearestIntegers_nums, nearestIntegers_of_isIntegral hint]
  have value : (rootSolution P.embed (nums x)).value = P.embed.value (nums x) := by
    rw [rootSolution, nearestIntegers_of_isIntegral hint]
  refine Record.closesIn_of_pairwise (List.cons_ne_nil _ _) ?_ (List.pairwise_singleton _ _)
  refine List.forall_mem_singleton.mpr ⟨.inr ⟨snap x, ?_, ?_⟩, fun z hz => ?_, ?_⟩
  · rw [hsnap]
    exact hx.satisfies
  · rw [hsnap]
    exact value
  · simp only [value]
    exact greatest _ ⟨hz, fun c hc => absurd hc List.not_mem_nil⟩
  · simp only [value, Program.value_embed]
    exact ExtRat.num_le.mpr le_rfl

/-- **The bounds close in on the optimum.**  With exact answers, a heuristic that finds feasible
points and no tolerance for integers, the history of every record that has one brackets the optimum
at each moment, its lower bounds never decrease, and its upper bounds never increase. -/
theorem Solver.closesIn {p : Program ExtRat} (sound : S.SoundOn p)
    (hint : S.settings.integrality = 0) {session : Session ExtRat β η ε} {record : Record ExtRat}
    (h : (S.solve p session).result = .ok record)
    (hs : record.status = .optimal ∨ record.status = .iterationLimit) : record.ClosesIn p := by
  obtain ⟨valid, wf, ht, hS, hH, hO⟩ := sound
  obtain ⟨P, hP, rfl⟩ := Program.exists_regular valid wf
  obtain ⟨root, between, hask, hroot⟩ := Solver.searchProgram_cases (Solver.solve_ok h)
  have exact := hO [] _ root (fun c hc => absurd hc List.not_mem_nil) (Solver.ask_ok hask).1
  rcases hroot with ⟨bound, vertex, rfl, hvertex, rfl, -⟩ | ⟨bound, vertex, rfl, -, htree⟩
    | ⟨-, rfl, -⟩ | ⟨-, hunbounded⟩
  · exact closesIn_atRoot exact (hint ▸ hvertex)
  · obtain ⟨start, s, reason, hbegin, run, -, rfl, -⟩ := Solver.searchTree_ok htree
    have closing := (Closing.begin hP hH ht hint exact hbegin).reaches hP hO hS ht hint run
    rw [State.report] at hs ⊢
    cases hbest : s.incumbent.best with
    | none => simp [hbest] at hs
    | some c =>
        exact Record.closesIn_of_pairwise closing.recorded closing.bracketed closing.pairwise
  · simp [Record.infeasible] at hs
  · obtain ⟨probe, -, rfl⟩ := Solver.searchUnbounded_ok hunbounded
    rw [afterProbe] at hs
    split at hs <;> simp [Record.infeasible, Record.unbounded] at hs

/-- The search of the square that takes integers exactly. -/
def strictSolver : Solver ExtRat Unit Unit Unit :=
  { squareSolver with settings := { Settings.standard with integrality := 0 } }

theorem closesIn_square :
    strictSolver.SoundOn square.embed ∧ strictSolver.settings.integrality = 0
      ∧ ∃ record, (strictSolver.solve square.embed (.new () ())).result = .ok record
        ∧ record.status = .optimal ∧ record.ClosesIn square.embed := by
  have sound : strictSolver.SoundOn square.embed :=
    { soundOn_squareSolver with integrality := by decide +kernel }
  obtain ⟨record, h, hs⟩ : ∃ record,
      (strictSolver.solve square.embed (.new () ())).result = .ok record
        ∧ record.status = .optimal := exists_ok_of_toOption (by decide +kernel)
  exact ⟨sound, rfl, record, h, hs, Solver.closesIn sound rfl h (.inl hs)⟩

end IntegerProgramming.Search
