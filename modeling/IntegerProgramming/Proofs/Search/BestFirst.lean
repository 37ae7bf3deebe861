import Mathlib
import IntegerProgramming.Proofs.Frontier
import IntegerProgramming.Proofs.Search.CallTree

/-!
# Search — taking the best node first

The node of greatest bound is taken first, and the upper bound is the greatest bound of an open
node, unless the lower bound exceeds it; but then the gap is closed and no node is taken.  So a node
that is taken carries the upper bound, as long as no part of a region has a greater optimum than the
region and the objectives are finite.  Nothing is compared when a node is taken: a bound that the
incumbent has reached since is still open, and it is the gap that keeps it from being taken.

* `Bracket.lt_of_not_closed`: while the gap is open, the greatest bound of an open node is the upper
  bound.
* `Ordered.expand`: **a step leaves no node open that is better than those taken before.**
* `Solver.takesBest`: **a node that is taken carries the upper bound**, which exceeds the lower one,
  and the bounds of the nodes taken one after another never increase.
-/

namespace IntegerProgramming

open LawfulScalar

/-! ### The gap -/

/-- A lower bound that an objective does not exceed closes the gap. -/
theorem Bracket.absoluteGapClosed_of_le {α : Type} [Scalar α] [LawfulDistance α] {b : Bracket α}
    (gap : 0 ≤ b.rule.absoluteGap) (lower : isFinite b.lower = true) {best : α}
    (finite : isFinite best = true) (upper : b.upper = greater best b.lower)
    (h : best ≤ b.lower) : b.absoluteGapClosed = true := by
  have found : -infinity < b.lower := by
    rw [isFinite, Bool.and_eq_true, decide_eq_true_eq] at lower
    exact lower.1
  have apart : absolute (b.upper - b.lower) ≤ 0 := by
    by_cases hlt : best < b.lower
    · have hrefl := le_refl (defined_of_isFinite lower)
      rw [upper, greater_of_lt hlt]
      exact LawfulDistance.absolute_sub_le lower hrefl hrefl
    · have defined := defined_of_isFinite finite
      rw [upper, greater_of_not_lt defined hlt]
      exact LawfulDistance.absolute_sub_le finite h
        ((not_lt_iff defined (defined_of_isFinite lower)).mp hlt)
  rw [absoluteGapClosed, hasLower, decide_eq_true found, Bool.true_and]
  exact decide_eq_true (le_trans apart gap)

/-- A search that goes on has not closed the gap. -/
theorem Bracket.not_closed_of_termination? {α : Type} [Scalar α] {b : Bracket α}
    {nothingOpen : Bool} (h : b.termination? nothingOpen = none) : b.absoluteGapClosed = false := by
  rw [termination?] at h
  split at h
  · cases h
  · split at h
    · cases h
    · rename_i hclosed
      simpa using hclosed

/-- As long as the gap is open, the greatest bound of an open node is the upper bound, and exceeds
the lower one. -/
theorem Bracket.lt_of_not_closed {α : Type} [Scalar α] [LawfulDistance α] {b : Bracket α}
    (gap : 0 ≤ b.rule.absoluteGap) (h : b.absoluteGapClosed = false) {best : α}
    (finite : isFinite best = true) (upper : b.upper = greater best b.lower)
    (lower : b.lower = -infinity ∨ isFinite b.lower = true) :
    best = b.upper ∧ b.lower < best := by
  have defined := defined_of_isFinite finite
  have exceeds : b.lower < best := by
    rcases lower with hlower | hlower
    · rw [isFinite, Bool.and_eq_true, decide_eq_true_eq] at finite
      exact hlower ▸ finite.1
    · by_contra hlt
      have hle := (not_lt_iff (defined_of_isFinite hlower) defined).mp hlt
      rw [b.absoluteGapClosed_of_le gap hlower finite upper hle] at h
      cases h
  exact ⟨(upper.trans (greater_of_not_lt defined (not_lt_of_le (le_of_lt exceeds)))).symm, exceeds⟩

end IntegerProgramming

namespace IntegerProgramming.Search

open LawfulScalar
open ExtRat (num)

variable {α β η ε : Type} [Scalar α] {S : Solver α β η ε} {p : Program α}
  {events : List (Event α ε)} {s t : State α β η ε}

/-! ### Answers that descend -/

/-- The optima that the oracle gave are finite, and no part of a region has a greater optimum than
the region. -/
structure Descends (asked : List (Call α ε)) : Prop where
  finite : ∀ sub value vertex, (sub, .ok (.optimal value vertex)) ∈ asked → isFinite value = true
  part_le : ∀ q changes change value vertex value' vertex',
    (⟨q, changes⟩, .ok (.optimal value vertex)) ∈ asked →
      (⟨q, changes ++ [change]⟩, .ok (.optimal value' vertex')) ∈ asked → value' ≤ value

theorem Descends.of_append {asked later : List (Call α ε)} (h : Descends (asked ++ later)) :
    Descends asked where
  finite sub value vertex hmem := h.finite sub value vertex (List.mem_append_left _ hmem)
  part_le q changes change value vertex value' vertex' hregion hpart :=
    h.part_le q changes change value vertex value' vertex' (List.mem_append_left _ hregion)
      (List.mem_append_left _ hpart)

/-- What holds of a state that is about to take its next node, after these events: the open nodes
are no better than those that were taken, which were taken in order, and the upper bound is the
greatest bound of an open node, if that exceeds the lower bound. -/
structure Ordered (S : Solver α β η ε) (p : Program α) (events : List (Event α ε))
    (s : State α β η ε) : Prop where
  rule : s.bracket.rule = S.settings.rule
  policy : s.frontier.policy = S.settings.selection.policy
  answered : ∀ node ∈ s.frontier.nodes,
    (⟨p, node.changes⟩, .ok (.optimal node.bound node.vertex)) ∈ calls events
  below : ∀ node ∈ s.frontier.nodes, ∀ earlier ∈ taken events, node.bound ≤ earlier.bound
  sorted : (taken events).Pairwise fun earlier later => later.bound ≤ earlier.bound
  upper : ∀ best, s.frontier.bestBound? = some best →
    s.bracket.upper = greater best s.bracket.lower

/-- A step ends with the upper bound from the open nodes. -/
theorem Solver.upper_expand (h : S.expand p s = .ok t) {best : α}
    (hbest : t.frontier.bestBound? = some best) :
    t.bracket.upper = greater best t.bracket.lower := by
  obtain ⟨parent, rest, _, _, down, up, -, -, -, -, -, rfl⟩ := Solver.expand_ok h
  have hup : up.frontier.bestBound? = some best := hbest
  simp only [Solver.settle, hup]
  rfl

variable [LawfulScalar α]

/-- The node that is taken is the best of the open ones. -/
theorem Ordered.leads (h : Ordered S p events s) (best : S.settings.selection = .bestFirst)
    (descends : Descends (calls events)) {node : Node α} {rest : Frontier α}
    (hpop : s.frontier.pop? = some (node, rest)) :
    s.frontier.bestBound? = some node.bound ∧ ∀ n ∈ s.frontier.nodes, n.bound ≤ node.bound := by
  refine Frontier.leads_of_pop? ?_ (fun n hn => ?_) hpop
  · rw [h.policy, best]
    rfl
  · exact defined_of_isFinite (descends.finite _ _ _ (h.answered n hn))

/-- **A step leaves no node open that is better than those taken before.** -/
theorem Ordered.expand (best : S.settings.selection = .bestFirst) (hexpand : S.expand p s = .ok t) :
    ∃ later, s.session.Writes t.session later ∧ ∀ events, Ordered S p events s →
      Descends (calls (events ++ later)) → Ordered S p (events ++ later) t := by
  obtain ⟨parent, rest, var, v, later, opened, hpop, -, -, writes, htaken, hnodes, splits⟩ :=
    Solver.expand_calls hexpand
  obtain ⟨hparent, hrest⟩ := Frontier.mem_of_pop? hpop
  refine ⟨later, writes, fun events h descends => ?_⟩
  rw [calls_append] at descends
  obtain ⟨-, leads⟩ := h.leads best descends.of_append hpop
  have openNode {node : Node α} (hnode : node ∈ t.frontier.nodes) :
      node ∈ s.frontier.nodes ∨ node ∈ opened :=
    (List.mem_append.mp (hnodes ▸ hnode)).imp_left (hrest node)
  have answered {node : Node α} (hnode : node ∈ t.frontier.nodes) :
      (⟨p, node.changes⟩, .ok (.optimal node.bound node.vertex)) ∈ calls events ++ calls later := by
    rcases openNode hnode with hnode | hnode
    · exact List.mem_append_left _ (h.answered node hnode)
    · exact List.mem_append_right _ (splits.answered node hnode)
  -- a child that stays open is a part of its parent
  have le_parent {node : Node α} (hnode : node ∈ t.frontier.nodes) : node.bound ≤ parent.bound := by
    rcases openNode hnode with hopen | hopen
    · exact leads node hopen
    · have hchanges := splits.changes.subset (List.mem_map_of_mem hopen)
      obtain ⟨change, hchange⟩ : ∃ change, node.changes = parent.changes ++ [change] :=
        (List.mem_pair.mp hchanges).elim (⟨_, ·⟩) (⟨_, ·⟩)
      exact descends.part_le p parent.changes change _ _ _ _
        (List.mem_append_left _ (h.answered parent hparent)) (hchange ▸ answered hnode)
  obtain ⟨-, rule⟩ := iterations_expand hexpand
  refine ⟨rule.trans h.rule, (Solver.history_expand hexpand).2.2.trans h.policy, ?_, ?_, ?_,
    fun best hbest => Solver.upper_expand hexpand hbest⟩
  · intro node hnode
    rw [calls_append]
    exact answered hnode
  · intro node hnode
    rw [taken_append, htaken, List.forall_mem_append, List.forall_mem_singleton]
    exact ⟨fun earlier hearlier =>
      le_trans (le_parent hnode) (h.below parent hparent earlier hearlier), le_parent hnode⟩
  · rw [taken_append, htaken, List.pairwise_append]
    refine ⟨h.sorted, List.pairwise_singleton _ _, fun earlier hearlier node hnode => ?_⟩
    cases List.mem_singleton.mp hnode
    exact h.below parent hparent earlier hearlier

variable {session between : Session α β η ε} {start : State α β η ε} {bound : α} {vertex : List α}

/-- The search begins with the bound of the root, unless the heuristic found something better. -/
theorem Ordered.begin (hask : S.ask ⟨p, []⟩ session = .ok (.optimal bound vertex, between))
    (hbegin : S.begin p bound vertex between = .ok start)
    (seeds : ∀ x, (S.heuristic.find p vertex between.heuristic).point = .ok (some x) →
      p.value x ≤ bound) :
    ∃ events, session.Writes start.session events
      ∧ (Descends (calls events) → Ordered S p events start) := by
  obtain ⟨events, writes, hcalls, -, htaken⟩ := Solver.begin_calls hask hbegin
  obtain ⟨frontier, -⟩ := Solver.frontier_begin hbegin
  obtain ⟨hnodes, rule, -, hbracket⟩ := Solver.begin_ok hbegin
  refine ⟨events, writes, fun descends => ?_⟩
  have defined : isUndefined bound = false :=
    defined_of_isFinite (descends.finite _ _ _ (hcalls ▸ List.mem_singleton_self _))
  have upper : start.bracket.upper = greater bound start.bracket.lower := by
    rcases hbracket with ⟨-, hbracket, -⟩ | ⟨x, hx, hbracket, -⟩
    · rw [hbracket]
      exact (greater_of_not_lt defined (not_lt_of_le (negInfinity_le defined))).symm
    · have hseed := seeds x hx
      have hlower : greater (-infinity) (p.value x) ≤ bound :=
        (greater_le_iff defined_negInfinity (defined_of_le hseed).1).mpr
          ⟨negInfinity_le defined, hseed⟩
      rw [hbracket]
      exact (greater_of_not_lt defined (not_lt_of_le hlower)).symm
  refine ⟨rule, frontier ▸ rfl, ?_, ?_, ?_, fun best hbest => ?_⟩
  · intro node hnode
    rw [hnodes, List.mem_singleton] at hnode
    rw [hnode, hcalls]
    exact List.mem_singleton_self _
  · rw [htaken]
    simp
  · rw [htaken]
    exact .nil
  · rw [frontier] at hbest
    cases hbest
    exact upper

/-- **The nodes of every state are in order.** -/
theorem Ordered.reaches (best : S.settings.selection = .bestFirst) (run : Reaches S p s t)
    (h : ∃ events, session.Writes s.session events
      ∧ (Descends (calls events) → Ordered S p events s)) :
    ∃ events, session.Writes t.session events
      ∧ (Descends (calls events) → Ordered S p events t) := by
  refine run.invariant (P := fun s => ∃ events, session.Writes s.session events
    ∧ (Descends (calls events) → Ordered S p events s)) (fun s t hs _ hexpand => ?_) h
  obtain ⟨events, writes, ordered⟩ := hs
  obtain ⟨later, writesLater, step⟩ := Ordered.expand best hexpand
  refine ⟨events ++ later, writes.trans writesLater, fun descends => step events ?_ descends⟩
  rw [calls_append] at descends
  exact ordered descends.of_append

/-- The lower bound is `-∞` or an objective that was offered. -/
theorem Led.lower_cases (led : Led p session s) (writes : session.Writes s.session events)
    (candidates : ∀ c ∈ offered events, isFinite c.value = true) :
    s.bracket.lower = -infinity ∨ isFinite s.bracket.lower = true := by
  obtain ⟨⟨events', writes', incumbent, -⟩, lower⟩ := led
  cases List.append_cancel_left (writes'.symm.trans writes)
  rw [lower]
  cases hbest : s.incumbent.best with
  | none => exact .inl (Incumbent.value_of_best_none hbest)
  | some c =>
      rw [Incumbent.value_of_best hbest]
      rw [incumbent] at hbest
      exact .inr (candidates c (Incumbent.mem_of_best hbest).1)

/-- **A node that is taken carries the upper bound.**  Let the node of greatest bound be taken
first, the gap that is tolerated be no less than zero, the heuristic find nothing better than the
optimum of the root, and all objectives that have come up be finite, those of a part no greater than
those of the region.  Then a node that is about to be taken has the upper bound for its own, it
exceeds the lower bound, and the bounds of the nodes taken so far, this one included, never
increase. -/
theorem Solver.takesBest {α β η ε : Type} [Scalar α] [LawfulDistance α] {S : Solver α β η ε}
    {p : Program α} {session between : Session α β η ε} {bound : α} {vertex : List α}
    {start s : State α β η ε} {events : List (Event α ε)} {node : Node α} {rest : Frontier α}
    (best : S.settings.selection = .bestFirst) (gap : 0 ≤ S.settings.rule.absoluteGap)
    (hask : S.ask ⟨p, []⟩ session = .ok (.optimal bound vertex, between))
    (hbegin : S.begin p bound vertex between = .ok start)
    (seeds : ∀ x, (S.heuristic.find p vertex between.heuristic).point = .ok (some x) →
      p.value x ≤ bound)
    (run : Reaches S p start s) (writes : session.Writes s.session events)
    (descends : Descends (calls events))
    (candidates : ∀ c ∈ offered events, isFinite c.value = true)
    (goesOn : s.bracket.termination? s.frontier.isEmpty = none)
    (hpop : s.frontier.pop? = some (node, rest)) :
    node.bound = s.bracket.upper ∧ s.bracket.lower < node.bound
      ∧ (taken events ++ [node]).Pairwise fun earlier later => later.bound ≤ earlier.bound := by
  obtain ⟨events', writes', ordered⟩ := Ordered.reaches best run (Ordered.begin hask hbegin seeds)
  cases List.append_cancel_left (writes'.symm.trans writes)
  have h := ordered descends
  have hnode := (Frontier.mem_of_pop? hpop).1
  have led : Led p session s := by
    obtain ⟨-, rfl⟩ := Solver.ask_ok hask
    exact (Led.begin ⟨_, session.writes_afterReply _ _, offered_replyEvents _ _⟩ hbegin).reaches run
  obtain ⟨hupper, hlower⟩ := s.bracket.lt_of_not_closed (h.rule ▸ gap)
    (Bracket.not_closed_of_termination? goesOn)
    (descends.finite _ _ _ (h.answered node hnode))
    (h.upper _ (h.leads best descends hpop).1) (led.lower_cases writes candidates)
  refine ⟨hupper, hlower, ?_⟩
  rw [List.pairwise_append]
  refine ⟨h.sorted, List.pairwise_singleton _ _, fun earlier hearlier n hn => ?_⟩
  cases List.mem_singleton.mp hn
  exact h.below node hnode earlier hearlier

/-- Two steps in a row whose values are known to have some feature came to values. -/
theorem exists_oks_of_toOption {κ ρ ρ' τ : Type} {first : Except κ ρ} {second : ρ → Except κ ρ'}
    {feature : ρ → ρ' → τ} {a : τ}
    (h : (first.toOption.bind fun r => (second r).toOption.map (feature r)) = some a) :
    ∃ r r', first = .ok r ∧ second r = .ok r' ∧ feature r r' = a := by
  cases first with
  | error cause => cases h
  | ok r =>
      obtain ⟨r', hr', hfeature⟩ := exists_ok_of_toOption h
      exact ⟨r, r', rfl, hr', hfeature⟩

/-- The calls of the search of the square when its first node was split. -/
def squareCalls : List (Call ExtRat Unit) :=
  [(⟨square.embed, []⟩, .ok (.optimal (num 3) [num (3 / 2), num (3 / 2)])),
    (⟨square.embed, [.down 0 (num (3 / 2))]⟩, .ok (.optimal (num (5 / 2)) [num 1, num (3 / 2)])),
    (⟨square.embed, [.up 0 (num (3 / 2))]⟩, .ok .infeasible)]

theorem descends_squareCalls : Descends squareCalls where
  finite sub value vertex h := by
    simp only [squareCalls, List.mem_cons, List.not_mem_nil, or_false] at h
    rcases h with h | h | h
    · cases h
      rfl
    · cases h
      rfl
    · cases h
  part_le q changes change value vertex value' vertex' hregion hpart := by
    simp only [squareCalls, List.mem_cons, List.not_mem_nil, or_false] at hregion hpart
    rcases hregion with h | h | h
    · cases h
      rcases hpart with h | h | h
      · cases h
      · cases h
        exact ExtRat.num_le.mpr (by norm_num)
      · cases h
    · cases h
      rcases hpart with h | h | h
      · cases h
      · cases h
      · cases h
    · cases h

/-- The session after the answer for the whole square. -/
def squareSession : Session ExtRat Unit Unit Unit :=
  (Session.new () ()).afterReply ⟨square.embed, []⟩
    (squareSolver.oracle.ask ⟨square.embed, []⟩ ())

theorem ask_square : squareSolver.ask ⟨square.embed, []⟩ (.new () ())
    = .ok (.optimal (num 3) [num (3 / 2), num (3 / 2)], squareSession) := by
  have answer : (squareSolver.oracle.ask ⟨square.embed, []⟩ ()).answer
      = .ok (.optimal (num 3) [num (3 / 2), num (3 / 2)]) := by decide +kernel
  rw [Solver.ask]
  dsimp only [Session.new]
  rw [answer]
  rfl

/-- The second node of the square. -/
theorem takesBest_square :
    squareSolver.settings.selection = .bestFirst ∧ 0 ≤ squareSolver.settings.rule.absoluteGap
      ∧ ∃ start s node rest,
        squareSolver.ask ⟨square.embed, []⟩ (.new () ())
            = .ok (.optimal (num 3) [num (3 / 2), num (3 / 2)], squareSession)
          ∧ squareSolver.begin square.embed (num 3) [num (3 / 2), num (3 / 2)] squareSession
            = .ok start
          ∧ Reaches squareSolver square.embed start s
          ∧ Descends (calls s.session.journal.toList)
          ∧ (∀ c ∈ offered s.session.journal.toList, isFinite c.value = true)
          ∧ s.bracket.termination? s.frontier.isEmpty = none
          ∧ s.frontier.pop? = some (node, rest) ∧ node.bound = num (5 / 2)
          ∧ node.bound = s.bracket.upper ∧ s.bracket.lower < node.bound
          ∧ (taken s.session.journal.toList ++ [node]).Pairwise
            fun earlier later => later.bound ≤ earlier.bound := by
  have gap : 0 ≤ squareSolver.settings.rule.absoluteGap := by decide +kernel
  obtain ⟨start, s, hbegin, hexpand, hfeatures⟩ : ∃ start s,
      squareSolver.begin square.embed (num 3) [num (3 / 2), num (3 / 2)] squareSession = .ok start
        ∧ squareSolver.expand square.embed start = .ok s
        ∧ (start.bracket.termination? start.frontier.isEmpty,
            s.bracket.termination? s.frontier.isEmpty,
            s.frontier.pop?.map fun entry => entry.1.bound,
            decide (calls s.session.journal.toList = squareCalls),
            decide (offered s.session.journal.toList = [⟨nums (lattice [0, 0]), num 0⟩]))
          = (none, none, some (num (5 / 2)), true, true) :=
    exists_oks_of_toOption (by decide +kernel)
  simp only [Prod.mk.injEq, Option.map_eq_some_iff, decide_eq_true_eq] at hfeatures
  obtain ⟨hfirst, hsecond, ⟨⟨node, rest⟩, hpop, hbound⟩, hcalls, hoffered⟩ := hfeatures
  have run : Reaches squareSolver square.embed start s := .step hfirst hexpand (.refl s)
  have descends : Descends (calls s.session.journal.toList) := hcalls ▸ descends_squareCalls
  have candidates : ∀ c ∈ offered s.session.journal.toList, isFinite c.value = true := by
    rw [hoffered, List.forall_mem_singleton]
    rfl
  have seeds : ∀ x, (squareSolver.heuristic.find square.embed [num (3 / 2), num (3 / 2)]
      squareSession.heuristic).point = .ok (some x) → square.embed.value x ≤ num 3 := by
    intro x hx
    cases hx
    decide +kernel
  have writes : (Session.new () ()).Writes s.session s.session.journal.toList :=
    (List.nil_append _).symm
  have taken := Solver.takesBest rfl gap ask_square hbegin seeds run writes descends candidates
    hsecond hpop
  exact ⟨rfl, gap, start, s, node, rest, ask_square, hbegin, run, descends, candidates, hsecond,
    hpop, hbound, taken⟩

end IntegerProgramming.Search
