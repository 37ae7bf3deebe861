import Mathlib
import IntegerProgramming.Proofs.Search.Boxes
import IntegerProgramming.Proofs.Search.Optimality

/-!
# Search — how deep a search goes

Where the points of a program are bounded, the tree of a search has a depth, and so it is finite: a
node lies in a box that loses a unit with every split.  Of the strategies this takes only that a
vertex lies in the region it was asked for and that nodes are split at a fractional coordinate; the
heuristic, the policy and the objective have no part in it.

**A search of a bounded program stays within a full binary tree** (`Solver.staysShallow`), also if
it stops with an error: no child is created deeper than the first box is large, no more nodes are
taken than a full tree of that depth has inner nodes, and a limit on the iterations that leaves room
for them is not what stops the search.

The nodes are counted by what may still be split: below an open node there is room for a full tree
of the depth that is left to it, and a split takes one node off the room of its parent and gives the
rest to the children (`innerNodes_succ`).  What a run did is read off its journal, which goes on
from that of its start by events that the bounds allow (`Session.Within`).
-/

namespace IntegerProgramming

/-! ### Full trees -/

/-- How many nodes of a full binary tree have children. -/
def innerNodes (height : ℕ) : ℕ := 2 ^ height - 1

theorem innerNodes_succ (height : ℕ) : innerNodes (height + 1) = 2 * innerNodes height + 1 := by
  have := Nat.one_le_two_pow (n := height)
  simp only [innerNodes, pow_succ]
  omega

/-- How many nodes can still be split at and below the open ones, in a tree of a depth. -/
def room {α : Type} (depth : ℕ) (nodes : List (Node α)) : ℕ :=
  (nodes.map fun node => innerNodes (depth - node.depth)).sum

theorem room_append_singleton {α : Type} (depth : ℕ) (nodes : List (Node α)) (node : Node α) :
    room depth (nodes ++ [node]) = room depth nodes + innerNodes (depth - node.depth) := by
  simp [room]

/-- The node that is taken leaves its room behind. -/
theorem Frontier.room_pop? {α : Type} {f rest : Frontier α} {node : Node α}
    (h : f.pop? = some (node, rest)) (depth : ℕ) :
    room depth f.nodes = innerNodes (depth - node.depth) + room depth rest.nodes := by
  obtain ⟨hnode, rfl⟩ := pop?_eq_some_iff.mp h
  obtain ⟨hi, rfl⟩ := List.getElem?_eq_some_iff.mp hnode
  have perm := (List.getElem_cons_eraseIdx_perm hi).map fun node => innerNodes (depth - node.depth)
  rw [room, ← perm.sum_eq, List.map_cons, List.sum_cons, room]

end IntegerProgramming

namespace IntegerProgramming.Search

open ExtRat (num)

variable {α β η ε : Type}

/-! ### Journals within bounds -/

/-- Whether the event is the taking of a node. -/
def Event.takesNode : Event α ε → Bool
  | .selected _ => true
  | _ => false

/-- A child is no deeper than the bound, and a limit that leaves room for a full tree of that depth
is not what stops the search. -/
def Event.Within (depth limit : ℕ) : Event α ε → Prop
  | .created node => node.depth ≤ depth
  | .finished reason .. => 2 ^ (depth + 1) ≤ limit → reason ≠ .iterationLimit
  | _ => True

/-- A session goes on from another by events within the bounds, of which at most `taken` take a
node. -/
def Session.Within (depth limit taken : ℕ) (start s : Session α β η ε) : Prop :=
  ∃ events, s.journal.toList = start.journal.toList ++ events
    ∧ (∀ e ∈ events, e.Within depth limit) ∧ events.countP Event.takesNode ≤ taken

namespace Session.Within

variable {depth limit taken : ℕ} {start s : Session α β η ε}

theorem refl (s : Session α β η ε) : Within depth limit 0 s s :=
  ⟨[], (List.append_nil _).symm, by simp, le_rfl⟩

theorem mono (h : Within depth limit taken start s) {more : ℕ} (hle : taken ≤ more) :
    Within depth limit more start s := by
  obtain ⟨events, hjournal, within, hcount⟩ := h
  exact ⟨events, hjournal, within, hcount.trans hle⟩

/-- One more event. -/
theorem note (h : Within depth limit taken start s) {e : Event α ε}
    (within : e.Within depth limit) :
    Within depth limit (taken + if e.takesNode then 1 else 0) start (s.note e) := by
  obtain ⟨events, hjournal, hall, hcount⟩ := h
  refine ⟨events ++ [e], ?_, ?_, ?_⟩
  · rw [Session.note, Array.toList_push, hjournal, List.append_assoc]
  · rw [List.forall_mem_append, List.forall_mem_singleton]
    exact ⟨hall, within⟩
  · rw [List.countP_append, List.countP_singleton]
    exact Nat.add_le_add_right hcount _

theorem noteIf (h : Within depth limit taken start s) (condition : Bool) {e : Event α ε}
    (within : e.Within depth limit) (quiet : e.takesNode = false) :
    Within depth limit taken start (s.noteIf condition e) := by
  rw [Session.noteIf]
  split
  · simpa [quiet] using h.note within
  · exact h

theorem afterReply (h : Within depth limit taken start s) (sub : Subproblem α)
    (reply : Reply α β ε) : Within depth limit taken start (s.afterReply sub reply) := by
  have solved (results : List (LinearProgram.Result α)) : ∀ s : Session α β η ε,
      Within depth limit taken start s →
        Within depth limit taken start
          (results.foldl (fun s result => s.note (.solved result)) s) := by
    induction results with
    | nil => exact fun s hs => hs
    | cons result rest ih => exact fun s hs => ih _ (hs.note trivial)
  exact (solved reply.solved s h).note trivial

end Session.Within

/-! ### States within bounds -/

variable {S : Solver ExtRat β η ε} {p : Program ExtRat} {depth taken : ℕ}
  {start : Session ExtRat β η ε}

/-- An open node that can be split: it lies in its box, and it has a fractional vertex in its
region. -/
structure Splittable (S : Solver ExtRat β η ε) (p : Program ExtRat) (depth : ℕ)
    (node : Node ExtRat) : Prop extends Boxed p depth node, Inhabited p node where
  fractional : isIntegral node.vertex S.settings.integrality = false

theorem Splittable.depth_lt (ht : 0 ≤ S.settings.integrality) {node : Node ExtRat}
    (h : Splittable S p depth node) : node.depth < depth := by
  obtain ⟨x, hx, contains⟩ := h.vertex
  exact h.toBoxed.depth_lt contains ht (hx ▸ h.fractional)

/-- Splitting the node where the selector says gives two children in their boxes. -/
theorem Splittable.child (ht : 0 ≤ S.settings.integrality)
    (fractional : S.selector.FractionalAt S.settings.integrality) {node : Node ExtRat}
    (h : Splittable S p depth node) {var : ℕ} {value : ExtRat}
    (hvar : S.selector node.vertex S.settings.integrality = some var)
    (hvalue : node.vertex[var]? = some value) :
    (∀ id, Boxed p depth (node.child id (.down var value)))
      ∧ ∀ id, Boxed p depth (node.child id (.up var value)) := by
  obtain ⟨-, x, q, -, contains, hq, rfl⟩ := h.toInhabited.coordinate hvalue
  obtain ⟨v, hv, hfar⟩ := fractional _ _ hvar
  cases Option.some.inj (hv.symm.trans hvalue)
  exact h.toBoxed.child contains hq (floor_lt_and_lt_ceil ht hfar)

/-- What holds of a state: the events since the start are within the bounds, the open nodes can be
split, and the nodes that were taken fit into a full tree together with `reserve` and with those
that may still be. -/
structure Confined (S : Solver ExtRat β η ε) (p : Program ExtRat) (depth : ℕ)
    (start : Session ExtRat β η ε) (reserve : ℕ) (s : State ExtRat β η ε) : Prop where
  session : start.Within depth S.settings.rule.maxIterations s.explored s.session
  nodes : ∀ node ∈ s.frontier.nodes, Splittable S p depth node
  fits : s.explored + reserve + room depth s.frontier.nodes ≤ innerNodes depth

theorem Confined.explored_le {reserve : ℕ} {s : State ExtRat β η ε}
    (h : Confined S p depth start reserve s) : s.explored ≤ innerNodes depth := by
  have := h.fits
  omega

/-- A node that is taken can be split, and what is left of its room is kept for its children. -/
theorem Confined.select (ht : 0 ≤ S.settings.integrality) {s : State ExtRat β η ε}
    (h : Confined S p depth start 0 s) {node : Node ExtRat} {rest : Frontier ExtRat}
    (hpop : s.frontier.pop? = some (node, rest)) :
    Splittable S p depth node
      ∧ Confined S p depth start (2 * innerNodes (depth - (node.depth + 1)))
          (s.select node rest) := by
  obtain ⟨hnode, hrest⟩ := Frontier.mem_of_pop? hpop
  have splittable := h.nodes node hnode
  refine ⟨splittable, h.session.note (e := .selected node) trivial,
    fun n hn => h.nodes n (hrest n hn), ?_⟩
  have height : depth - node.depth = depth - (node.depth + 1) + 1 := by
    have := splittable.depth_lt ht
    omega
  have fits := h.fits
  rw [Frontier.room_pop? hpop, height, innerNodes_succ] at fits
  simp only [State.select]
  omega

/-- The session of a child that was asked for, before it is filed. -/
theorem Confined.asked {reserve : ℕ} {s : State ExtRat β η ε}
    (h : Confined S p depth start reserve s) {node : Node ExtRat} (boxed : Boxed p depth node) :
    start.Within depth S.settings.rule.maxIterations s.explored
      ((s.session.note (.created node)).afterReply ⟨p, node.changes⟩
        (S.oracle.ask ⟨p, node.changes⟩ s.session.oracle)) :=
  (h.session.note (e := .created node) boxed.depth_le).afterReply _ _

/-- **One child.**  A child that is placed uses its share of the reserve, or leaves it. -/
theorem Confined.place (within : S.oracle.InRegionOn p) {reserve : ℕ} {node : Node ExtRat}
    {s t : State ExtRat β η ε} (boxed : Boxed p depth node)
    (h : Confined S p depth start (reserve + innerNodes (depth - node.depth)) s)
    (ht : S.place p node s = .ok t) : Confined S p depth start reserve t := by
  have session := h.asked boxed
  have fits := h.fits
  obtain ⟨relaxation, fate, hanswer, hfate, rfl⟩ := Solver.place_ok ht
  generalize (s.session.note (.created node)).afterReply _ _ = asked at session ⊢
  have filed := session.note (e := .filed node fate) trivial
  rcases Solver.fate?_cases hfate with ⟨v, y, -, -, -, rfl⟩ | ⟨v, y, rfl, -, hy, rfl⟩
    | ⟨v, y, -, -, rfl⟩ | ⟨-, rfl⟩ | ⟨-, rfl⟩
  · rw [State.file, State.adopt]
    split
    · exact ⟨filed.note trivial, h.nodes, by simp only; omega⟩
    · exact ⟨filed, h.nodes, by simp only; omega⟩
  · -- the child stays open, with its vertex in its region
    have inhabited : Inhabited p (node.withRelaxation v y) :=
      ⟨boxed.proper, within _ _ _ _ boxed.proper hanswer⟩
    refine ⟨filed, fun n hn => ?_, ?_⟩
    · rcases List.mem_append.mp hn with hn | hn
      · exact h.nodes n hn
      · cases List.mem_singleton.mp hn
        exact ⟨⟨boxed.proper, boxed.box⟩, inhabited.vertex, hy⟩
    · have size : innerNodes (depth - (node.withRelaxation v y).depth)
          = innerNodes (depth - node.depth) := rfl
      simp only [State.file, State.adopt, Frontier.nodes_push, room_append_singleton, size]
      omega
  · exact ⟨filed, h.nodes, by simp only [State.file, State.adopt]; omega⟩
  · exact ⟨filed, h.nodes, by simp only [State.file, State.adopt]; omega⟩
  · exact ⟨filed, h.nodes, by simp only [State.file, State.adopt]; omega⟩

/-- **A step stays within the tree.** -/
theorem Confined.expand (within : S.oracle.InRegionOn p) (ht : 0 ≤ S.settings.integrality)
    (fractional : S.selector.FractionalAt S.settings.integrality) {s t : State ExtRat β η ε}
    (h : Confined S p depth start 0 s) (hexpand : S.expand p s = .ok t) :
    Confined S p depth start 0 t := by
  obtain ⟨parent, rest, var, value, down, up, hpop, hvar, hvalue, hdown, hup, rfl⟩ :=
    Solver.expand_ok hexpand
  obtain ⟨splittable, selected⟩ := h.select ht hpop
  obtain ⟨boxedDown, boxedUp⟩ := splittable.child ht fractional hvar hvalue
  rw [two_mul, ← Nat.zero_add (_ + _), ← Nat.add_assoc] at selected
  have placed := (selected.place within (boxedDown _) hdown).place within (boxedUp _) hup
  exact ⟨placed.session.noteIf _ trivial rfl, placed.nodes, placed.fits⟩

/-- A step that fails stays within the tree as well. -/
theorem Confined.expand_stop (within : S.oracle.InRegionOn p) (ht : 0 ≤ S.settings.integrality)
    (fractional : S.selector.FractionalAt S.settings.integrality) {s : State ExtRat β η ε}
    (h : Confined S p depth start 0 s) {stop : Stop ExtRat β η ε}
    (hexpand : S.expand p s = .error stop) :
    start.Within depth S.settings.rule.maxIterations (innerNodes depth) stop.session := by
  rcases Solver.expand_stop hexpand with ⟨-, hstop⟩ | ⟨parent, rest, hpop, hsplit⟩
  · exact hstop ▸ h.session.mono h.explored_le
  · obtain ⟨splittable, selected⟩ := h.select ht hpop
    rcases hsplit with ⟨hstop, -⟩ | ⟨var, value, hvar, hvalue, hchild⟩
    · exact hstop ▸ selected.session.mono selected.explored_le
    · obtain ⟨boxedDown, boxedUp⟩ := splittable.child ht fractional hvar hvalue
      rcases hchild with hdown | ⟨down, hdown, hup⟩
      · rw [(Solver.place_stop hdown).1]
        exact (selected.asked (boxedDown _)).mono selected.explored_le
      · rw [two_mul] at selected
        have placed := selected.place within (boxedDown _) hdown
        rw [(Solver.place_stop hup).1]
        exact (placed.asked (boxedUp _)).mono placed.explored_le

/-- **Every state of a search stays within the tree.** -/
theorem Confined.reaches (within : S.oracle.InRegionOn p) (ht : 0 ≤ S.settings.integrality)
    (fractional : S.selector.FractionalAt S.settings.integrality) {s t : State ExtRat β η ε}
    (run : Reaches S p s t) (h : Confined S p depth start 0 s) : Confined S p depth start 0 t :=
  run.invariant (fun _ _ hs _ hexpand => hs.expand within ht fractional hexpand) h

/-! ### Beginning and end -/

/-- Two iterations are counted for each node that was taken. -/
def State.CountsTwice (s : State α β η ε) : Prop := s.bracket.iterations = 2 * s.explored

theorem explored_place [Scalar α] {S : Solver α β η ε} {p : Program α} {node : Node α}
    {s t : State α β η ε} (h : S.place p node s = .ok t) : t.explored = s.explored := by
  obtain ⟨relaxation, fate, -, -, rfl⟩ := Solver.place_ok h
  cases fate with
  | candidate c =>
      rw [State.file, State.adopt]
      split
      · rfl
      · rfl
  | kept v x => rfl
  | pruned kind => rfl
  | discarded => rfl

theorem State.CountsTwice.expand [Scalar α] {S : Solver α β η ε} {p : Program α}
    {s t : State α β η ε} (hs : s.CountsTwice) (h : S.expand p s = .ok t) : t.CountsTwice := by
  have hiterations := (iterations_expand h).1
  obtain ⟨parent, rest, var, value, down, up, -, -, -, hdown, hup, rfl⟩ := Solver.expand_ok h
  have hexplored : (S.settle up).explored = s.explored + 1 :=
    (explored_place hup).trans (explored_place hdown)
  rw [CountsTwice, hiterations, hexplored, hs]
  ring

/-- A search begins by notes on the heuristic only. -/
theorem Solver.begin_within (S : Solver ExtRat β η ε) (p : Program ExtRat) (bound : ExtRat)
    (vertex : List ExtRat) {session : Session ExtRat β η ε} {limit : ℕ}
    (h : start.Within depth limit 0 session) :
    match S.begin p bound vertex session with
    | .ok s => start.Within depth limit 0 s.session ∧ s.explored = 0
    | .error stop => start.Within depth limit 0 stop.session := by
  have quiet : start.Within depth limit 0 { session with
      heuristic := (S.heuristic.find p vertex session.heuristic).state } := h
  simp only [Solver.begin]
  cases (S.heuristic.find p vertex session.heuristic).rounding with
  | none =>
      cases (S.heuristic.find p vertex session.heuristic).point with
      | error f => exact quiet
      | ok point =>
          cases point with
          | none => exact ⟨quiet, rfl⟩
          | some x => exact ⟨quiet.note (e := .seeded _) trivial, rfl⟩
  | some how =>
      have noted := quiet.note (e := .rounded how) trivial
      cases (S.heuristic.find p vertex session.heuristic).point with
      | error f => exact noted
      | ok point =>
          cases point with
          | none => exact ⟨noted, rfl⟩
          | some x => exact ⟨noted.note (e := .seeded _) trivial, rfl⟩

/-- The search begins with the root. -/
theorem Confined.begin {bound : ExtRat} {vertex : List ExtRat} {session : Session ExtRat β η ε}
    (boxed : Boxed p depth (Node.root.withRelaxation bound vertex))
    (inhabited : ∃ x, vertex = nums x ∧ Subproblem.Contains ⟨p, []⟩ x)
    (fractional : isIntegral vertex S.settings.integrality = false)
    (h : start.Within depth S.settings.rule.maxIterations 0 session) {s : State ExtRat β η ε}
    (hbegin : S.begin p bound vertex session = .ok s) : Confined S p depth start 0 s := by
  obtain ⟨hnodes, -⟩ := Solver.begin_ok hbegin
  obtain ⟨session, hexplored⟩ : _ ∧ _ := by
    simpa only [hbegin] using S.begin_within p bound vertex h
  refine ⟨hexplored ▸ session, fun node hnode => ?_, ?_⟩
  · rw [hnodes] at hnode
    cases List.mem_singleton.mp hnode
    exact ⟨boxed, inhabited, fractional⟩
  · simp [hexplored, hnodes, room, Node.root, Node.withRelaxation]

/-- A limit that leaves room for the tree does not stop the search. -/
theorem Confined.reason_ne {s : State ExtRat β η ε} (h : Confined S p depth start 0 s)
    (twice : s.CountsTwice) (hrule : s.bracket.rule = S.settings.rule)
    (hlimit : 2 ^ (depth + 1) ≤ S.settings.rule.maxIterations) {reason : Termination}
    (hstop : s.bracket.termination? s.frontier.isEmpty = some reason) :
    reason ≠ .iterationLimit := by
  rintro rfl
  have exceeded : s.bracket.rule.maxIterations < s.bracket.iterations := by
    rcases Bracket.termination?_eq_some hstop with ⟨h, -⟩ | ⟨h, -⟩ | ⟨-, h⟩ | ⟨h, -⟩
    · cases h
    · cases h
    · exact h
    · cases h
  have explored := h.explored_le
  have := Nat.one_le_two_pow (n := depth)
  rw [hrule, twice] at exceeded
  rw [innerNodes] at explored
  rw [pow_succ] at hlimit
  omega

theorem State.explored_report [Scalar α] (s : State α β η ε) (reason : Termination) :
    (s.report reason).stats.explored = s.explored := by
  rw [State.report]
  split <;> rfl

/-- The run goes on from the start within the bounds, and so does the record that it comes to. -/
structure Outcome.Within (depth limit : ℕ) (start : Session α β η ε) (o : Outcome α β η ε) :
    Prop where
  session : start.Within depth limit (innerNodes depth) o.session
  explored : ∀ record, o.result = .ok record → record.stats.explored ≤ innerNodes depth

/-- An outcome without a tree. -/
theorem Outcome.within_of_unexplored {limit : ℕ} {start session : Session α β η ε}
    (h : start.Within depth limit 0 session) {result : Except (Failure (Error ε)) (Record α)}
    (unexplored : ∀ record, result = .ok record → record.stats.explored = 0) :
    Outcome.Within depth limit start ⟨result, session⟩ :=
  ⟨h.mono (Nat.zero_le _), fun record hrecord =>
    (unexplored record hrecord).trans_le (Nat.zero_le _)⟩

/-- The search below the root of a bounded program. -/
theorem Solver.searchTree_within (within : S.oracle.InRegionOn p)
    (ht : 0 ≤ S.settings.integrality)
    (fractional : S.selector.FractionalAt S.settings.integrality) {bound : ExtRat}
    {vertex : List ExtRat} {session : Session ExtRat β η ε}
    (boxed : Boxed p depth (Node.root.withRelaxation bound vertex))
    (inhabited : ∃ x, vertex = nums x ∧ Subproblem.Contains ⟨p, []⟩ x)
    (hvertex : isIntegral vertex S.settings.integrality = false)
    (h : start.Within depth S.settings.rule.maxIterations 0 session) :
    (Outcome.ofAttempt (S.searchTree p bound vertex session)).Within depth
      S.settings.rule.maxIterations start := by
  have begins {s : State ExtRat β η ε} (hbegin : S.begin p bound vertex session = .ok s) :
      Confined S p depth start 0 s := .begin boxed inhabited hvertex h hbegin
  cases htree : S.searchTree p bound vertex session with
  | error stop =>
      refine ⟨?_, fun record hrecord => by cases hrecord⟩
      rcases Solver.searchTree_stop htree with hbegin | ⟨s, t, hbegin, run, -, hexpand⟩
      · have := S.begin_within p bound vertex h
        rw [hbegin] at this
        exact this.mono (Nat.zero_le _)
      · exact ((begins hbegin).reaches within ht fractional run).expand_stop within ht fractional
          hexpand
  | ok pair =>
      obtain ⟨record, session'⟩ := pair
      obtain ⟨s, t, reason, hbegin, run, hstop, rfl, rfl⟩ := Solver.searchTree_ok htree
      have confined := (begins hbegin).reaches within ht fractional run
      have twice : t.CountsTwice ∧ t.bracket.rule = S.settings.rule := by
        obtain ⟨-, hrule, hiterations, -⟩ := Solver.begin_ok hbegin
        have explored : s.explored = 0 := by
          have := S.begin_within p bound vertex h
          rw [hbegin] at this
          exact this.2
        refine run.invariant (P := fun s => s.CountsTwice ∧ s.bracket.rule = S.settings.rule)
          (fun _ _ hs _ hexpand => ⟨hs.1.expand hexpand, (iterations_expand hexpand).2.trans hs.2⟩)
          ⟨?_, hrule⟩
        rw [State.CountsTwice, hiterations, explored]
      refine ⟨?_, fun record hrecord => ?_⟩
      · exact (confined.session.note (e := .finished reason _ _ _)
          fun hlimit => confined.reason_ne twice.1 twice.2 hlimit hstop).mono confined.explored_le
      · cases hrecord
        exact (State.explored_report t reason).trans_le confined.explored_le

/-- The search of a bounded program, given what to do if its relaxation is unbounded. -/
theorem Solver.searchProgram_within (within : S.oracle.InRegionOn p)
    (ht : 0 ≤ S.settings.integrality)
    (fractional : S.selector.FractionalAt S.settings.integrality)
    (boxed : ∀ bound vertex, Boxed p depth (Node.root.withRelaxation bound vertex))
    {ifUnbounded : Session ExtRat β η ε →
      Attempt ExtRat β η ε (Record ExtRat × Session ExtRat β η ε)}
    (unbounded : ∀ session, start.Within depth S.settings.rule.maxIterations 0 session →
      (Outcome.ofAttempt (ifUnbounded session)).Within depth S.settings.rule.maxIterations start)
    {session : Session ExtRat β η ε}
    (h : start.Within depth S.settings.rule.maxIterations 0 session) :
    (Outcome.ofAttempt (S.searchProgram p ifUnbounded session)).Within depth
      S.settings.rule.maxIterations start := by
  have asked := h.afterReply ⟨p, []⟩ (S.oracle.ask ⟨p, []⟩ session.oracle)
  rw [Solver.searchProgram]
  cases hask : S.ask ⟨p, []⟩ session with
  | error stop =>
      rw [← (Solver.ask_stop hask).1] at asked
      exact Outcome.within_of_unexplored asked fun record hrecord => by cases hrecord
  | ok pair =>
      obtain ⟨root, between⟩ := pair
      obtain ⟨hanswer, rfl⟩ := Solver.ask_ok hask
      cases root with
      | optimal bound vertex =>
          simp only
          split
          · refine Outcome.within_of_unexplored (asked.note (e := .rootIntegral _) trivial) ?_
            rintro record ⟨⟩
            rfl
          · rename_i hvertex
            exact Solver.searchTree_within within ht fractional (boxed bound vertex)
              (within [] _ bound vertex (fun c hc => absurd hc List.not_mem_nil) hanswer)
              (by simpa using hvertex) asked
      | infeasible =>
          refine Outcome.within_of_unexplored (asked.note (e := .rootInfeasible) trivial) ?_
          rintro record ⟨⟩
          rfl
      | unbounded => exact unbounded _ asked
      | iterationLimit | numericalError =>
          exact Outcome.within_of_unexplored asked fun record hrecord => by cases hrecord

/-- The probe of a bounded program whose relaxation is said to be unbounded. -/
theorem Solver.searchUnbounded_within (within : S.oracle.InRegionOn p.withZeroObjective)
    (ht : 0 ≤ S.settings.integrality)
    (fractional : S.selector.FractionalAt S.settings.integrality)
    (boxed : ∀ bound vertex,
      Boxed p.withZeroObjective depth (Node.root.withRelaxation bound vertex))
    {session : Session ExtRat β η ε}
    (h : start.Within depth S.settings.rule.maxIterations 0 session) :
    (Outcome.ofAttempt (S.searchUnbounded p session)).Within depth
      S.settings.rule.maxIterations start := by
  have probe : (Outcome.ofAttempt (S.probe p (session.note .rootUnbounded))).Within depth
      S.settings.rule.maxIterations start := by
    refine Solver.searchProgram_within within ht fractional boxed (fun between hbetween => ?_)
      (h.note (e := .rootUnbounded) trivial)
    exact Outcome.within_of_unexplored hbetween fun record hrecord => by cases hrecord
  rw [Solver.searchUnbounded]
  cases hprobe : S.probe p (session.note .rootUnbounded) with
  | error stop =>
      rw [hprobe] at probe
      exact ⟨probe.session, fun record hrecord => by cases hrecord⟩
  | ok pair =>
      rw [hprobe] at probe
      refine ⟨probe.session, ?_⟩
      rintro record ⟨⟩
      rw [afterProbe]
      split <;> exact Nat.zero_le _

/-- **The search of a bounded program stays within a full tree.**  If no point of a program exceeds
`U`, vertices lie in the regions they were asked for and nodes are split at fractional coordinates,
then whatever else the strategies do, a search goes on from its session by events among which no
child is deeper than `∑ U`, at most `2 ^ (∑ U) - 1` nodes are taken, and a limit of at least
`2 ^ (∑ U + 1)` iterations is never the reason to stop. -/
theorem Solver.staysShallow {U : ℕ → ℕ} (bounded : p.BoundedBy U)
    (ht : 0 ≤ S.settings.integrality)
    (fractional : S.selector.FractionalAt S.settings.integrality)
    (within : S.oracle.InRegionOn p) (within₀ : S.oracle.InRegionOn p.withZeroObjective)
    (session : Session ExtRat β η ε) :
    ∃ events : List (Event ExtRat ε),
      (S.solve p session).session.journal.toList = session.journal.toList ++ events
        ∧ (∀ node, .created node ∈ events → node.depth ≤ ∑ j ∈ Finset.range p.numVars, U j)
        ∧ events.countP Event.takesNode ≤ 2 ^ (∑ j ∈ Finset.range p.numVars, U j) - 1
        ∧ (2 ^ (∑ j ∈ Finset.range p.numVars, U j + 1) ≤ S.settings.rule.maxIterations →
            ∀ iterations explored pruned,
              .finished .iterationLimit iterations explored pruned ∉ events)
        ∧ ∀ record, (S.solve p session).result = .ok record →
            record.stats.explored ≤ 2 ^ (∑ j ∈ Finset.range p.numVars, U j) - 1 := by
  have bounded₀ : p.withZeroObjective.BoundedBy U := fun x hx =>
    bounded x ((p.satisfies_withZeroObjective _ _).symm.trans hx)
  have boxed₀ (bound : ExtRat) (vertex : List ExtRat) := Boxed.root bounded₀ bound vertex
  rw [Program.numVars_withZeroObjective] at boxed₀
  have begins : session.Within (∑ j ∈ Finset.range p.numVars, U j) S.settings.rule.maxIterations 0
      { session with heuristic := S.heuristic.reset session.heuristic } := .refl session
  obtain ⟨⟨events, hjournal, hevents, htaken⟩, hexplored⟩ :=
    Solver.searchProgram_within within ht fractional (Boxed.root bounded)
      (fun between hbetween =>
        Solver.searchUnbounded_within within₀ ht fractional boxed₀ hbetween) begins
  refine ⟨events, hjournal, fun node hnode => hevents _ hnode, htaken, fun hlimit i e pr hmem => ?_,
    hexplored⟩
  exact hevents _ hmem hlimit rfl

/-- At the square, where no coordinate exceeds two. -/
theorem staysShallow_square :
    square.embed.BoundedBy (fun _ => 2) ∧ 0 ≤ squareSolver.settings.integrality
      ∧ squareSolver.selector.FractionalAt squareSolver.settings.integrality
      ∧ squareSolver.oracle.InRegionOn square.embed
      ∧ squareSolver.oracle.InRegionOn square.embed.withZeroObjective
      ∧ ∃ record, (squareSolver.solve square.embed (.new () ())).result = .ok record
        ∧ record.stats.explored = 2 ∧ record.stats.explored ≤ 2 ^ 4 - 1
        ∧ ∀ iterations explored pruned, .finished .iterationLimit iterations explored pruned
            ∉ (squareSolver.solve square.embed (.new () ())).session.journal.toList := by
  have bounded : square.embed.BoundedBy (fun _ => 2) := by
    intro x hx j
    obtain ⟨a, b, rfl, -, -, ha, hb⟩ :=
      feasible_square_iff.mp ((Program.satisfies_embed_iff regular_square).mp hx)
    rcases j with _ | _ | j
    · norm_num
      linarith
    · norm_num
      linarith
    · simp
  have ht := soundOn_squareSolver.integrality
  have fractional : squareSolver.selector.FractionalAt squareSolver.settings.integrality :=
    firstFractional_fractionalAt _
  have within := soundOn_squareSolver.oracle.inRegionOn
  have within₀ : squareSolver.oracle.InRegionOn square.embed.withZeroObjective :=
    (Oracle.exactOn_ofTable solvedBy_square _).inRegionOn
  obtain ⟨record, h, hexplored⟩ : ∃ record,
      (squareSolver.solve square.embed (.new () ())).result = .ok record
        ∧ record.stats.explored = 2 := exists_ok_of_toOption (by decide +kernel)
  obtain ⟨events, hjournal, -, -, unlimited, few⟩ :=
    Solver.staysShallow bounded ht fractional within within₀ (.new () ())
  refine ⟨bounded, ht, fractional, within, within₀, record, h, hexplored, few record h, ?_⟩
  rw [hjournal]
  exact unlimited (by decide +kernel)

end IntegerProgramming.Search
