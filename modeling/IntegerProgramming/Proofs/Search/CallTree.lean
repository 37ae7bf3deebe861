import Mathlib
import IntegerProgramming.Proofs.Search.Failures

/-!
# Search — the tree behind the calls

Of its tree a search keeps no more than the open nodes, but the calls of the oracle spell the tree
out: the whole program comes first, and then, two by two, the parts of regions that were asked for
before (`InPairs`).  A part is written as the list of its changes, and the sides of the changes
alone tell the parts apart.

* `InPairs.exists_of_sides`: what is asked for is a part of something that was asked for.
* `Chart.expand`: **a step adds a pair of calls** to the tree of those made, and leaves it a tree in
  which the open nodes have no parts yet.
* `Chart.expand_stop`: a step that fails adds a pair, the first half of one, or nothing.
* `Solver.mapsTree`: **the calls of a search are a tree**, or those of the probe of an unbounded
  program are, and its nodes are numbered in the order of their creation.
-/

namespace IntegerProgramming

theorem Status.hasSolution_iff {status : Status} :
    status.hasSolution = true ↔ status = .optimal ∨ status = .iterationLimit := by
  cases status <;> decide

/-- On which sides some changes cut, in order. -/
def sides {α : Type} (changes : List (BoundChange α)) : List Side := changes.map BoundChange.side

theorem sides_concat {α : Type} (changes : List (BoundChange α)) (change : BoundChange α) :
    sides (changes ++ [change]) = sides changes ++ [change.side] :=
  List.map_append

/-- The two parts of a region, by their sides. -/
def parts (path : List Side) : List (List Side) := [path ++ [Side.upper], path ++ [Side.lower]]

theorem parts_sides {α : Type} [Scalar α] (changes : List (BoundChange α)) (var : ℕ) (v : α) :
    parts (sides changes) = [sides (changes ++ [BoundChange.down var v]),
      sides (changes ++ [BoundChange.up var v])] := by
  rw [sides_concat, sides_concat]
  rfl

theorem mem_parts {path other : List Side} (h : other ∈ parts path) :
    ∃ side, other = path ++ [side] :=
  (List.mem_pair.mp h).elim (⟨_, ·⟩) (⟨_, ·⟩)

theorem nodup_parts (path : List Side) : (parts path).Nodup := by
  refine List.nodup_cons.mpr ⟨fun heq => ?_, List.nodup_singleton _⟩
  cases List.append_cancel_left (List.mem_singleton.mp heq)

/-- No part of a region is a part of another, or of itself. -/
theorem parts_ne {path first second : List Side} (h : first ∈ parts path)
    (h' : second ∈ parts path) (side : Side) : first ≠ second ++ [side] := by
  obtain ⟨_, rfl⟩ := mem_parts h
  obtain ⟨_, rfl⟩ := mem_parts h'
  intro heq
  have hlength := congrArg List.length heq
  simp at hlength

/-- Nodes in the order of their creation: the `k`-th has number `k`, is as deep as it has changes,
and comes after the node it was branched from. -/
def Numbered {α : Type} (nodes : List (Node α)) : Prop :=
  ∀ (k : ℕ) (node : Node α), nodes[k]? = some node →
    node.id = k + 1 ∧ node.depth = node.changes.length ∧ ∃ parent < node.id,
      node.parent = some parent

theorem Numbered.concat {α : Type} {nodes : List (Node α)} (h : Numbered nodes) {parent : Node α}
    {id : ℕ} (change : BoundChange α) (next : id = nodes.length + 1) (older : parent.id < id)
    (depth : parent.DepthCounts) : Numbered (nodes ++ [parent.child id change]) := by
  intro k node hk
  rcases Nat.lt_trichotomy k nodes.length with hlt | rfl | hgt
  · rw [List.getElem?_append_left hlt] at hk
    exact h k node hk
  · rw [List.getElem?_concat_length, Option.some_inj] at hk
    subst hk
    exact ⟨next, depth.child id change, parent.id, older, rfl⟩
  · rw [List.getElem?_eq_none (by simpa using hgt)] at hk
    cases hk

end IntegerProgramming

namespace IntegerProgramming.Search

open ExtRat (num)

variable {α β η ε : Type}

/-! ### Calls and creations -/

/-- A call of the oracle: what it was asked, and its answer. -/
abbrev Call (α ε : Type) := Subproblem α × Except (Failure ε) (Relaxation α)

/-- The calls among some events, in order. -/
def calls (events : List (Event α ε)) : List (Call α ε) := events.filterMap Event.call?

/-- The nodes that were created, in order. -/
def created (events : List (Event α ε)) : List (Node α) := events.filterMap Event.created?

/-- The node that an event takes. -/
def Event.taken? : Event α ε → Option (Node α)
  | .selected node => some node
  | _ => none

/-- The nodes that were taken, in order. -/
def taken (events : List (Event α ε)) : List (Node α) := events.filterMap Event.taken?

theorem calls_append (first second : List (Event α ε)) :
    calls (first ++ second) = calls first ++ calls second :=
  List.filterMap_append

theorem created_append (first second : List (Event α ε)) :
    created (first ++ second) = created first ++ created second :=
  List.filterMap_append

theorem taken_append (first second : List (Event α ε)) :
    taken (first ++ second) = taken first ++ taken second :=
  List.filterMap_append

theorem calls_cons (e : Event α ε) (rest : List (Event α ε)) :
    calls (e :: rest) = e.call?.toList ++ calls rest := by
  cases h : e.call? <;> simp [calls, h]

theorem created_cons (e : Event α ε) (rest : List (Event α ε)) :
    created (e :: rest) = e.created?.toList ++ created rest := by
  cases h : e.created? <;> simp [created, h]

theorem taken_cons (e : Event α ε) (rest : List (Event α ε)) :
    taken (e :: rest) = e.taken?.toList ++ taken rest := by
  cases h : e.taken? <;> simp [taken, h]

theorem Session.Writes.calls {s t : Session α β η ε} {events : List (Event α ε)}
    (h : s.Writes t events) : t.journal.calls = s.journal.calls ++ calls events := by
  rw [Journal.calls, h, List.filterMap_append]
  rfl

/-- A remark is no call, creates nothing and takes nothing. -/
theorem silent_remarks {remarks : List (Event α ε)} (h : ∀ e ∈ remarks, e.isRemark = true) :
    calls remarks = [] ∧ created remarks = [] ∧ taken remarks = [] := by
  have silent (e : Event α ε) (he : e.isRemark = true) :
      e.call? = none ∧ e.created? = none ∧ e.taken? = none := by
    cases e <;> first | exact ⟨rfl, rfl, rfl⟩ | cases he
  exact ⟨List.filterMap_eq_nil_iff.mpr fun e he => (silent e (h e he)).1,
    List.filterMap_eq_nil_iff.mpr fun e he => (silent e (h e he)).2.1,
    List.filterMap_eq_nil_iff.mpr fun e he => (silent e (h e he)).2.2⟩

/-- A reply is one call, and nothing else. -/
theorem calls_replyEvents (sub : Subproblem α) (reply : Reply α β ε) :
    calls (replyEvents sub reply) = [(sub, reply.answer)]
      ∧ created (replyEvents sub reply) = [] ∧ taken (replyEvents sub reply) = [] := by
  refine ⟨?_, ?_, ?_⟩
  · simp [calls, replyEvents, Event.call?]
  · simp [created, replyEvents, Event.created?]
  · simp [taken, replyEvents, Event.taken?]

/-! ### Calls in pairs -/

variable [Scalar α]

/-- The oracle gave a vertex for the program under the changes, and its coordinate `var` is the
number `v`, which is no integer. -/
structure SplitAt (q : Program α) (earlier : List (Call α ε)) (changes : List (BoundChange α))
    (var : ℕ) (v : α) : Prop where
  answered : ∃ value vertex, (⟨q, changes⟩, .ok (.optimal value vertex)) ∈ earlier
    ∧ vertex[var]? = some v
  fractional : 0 < fractionality v

/-- The calls for a program: the whole of it, and then two by two the parts of regions that were
asked for before. -/
inductive InPairs (q : Program α) : List (Call α ε) → Prop where
  | whole (answer : Except (Failure ε) (Relaxation α)) : InPairs q [(⟨q, []⟩, answer)]
  | parts {earlier : List (Call α ε)} {changes : List (BoundChange α)} {var : ℕ} {v : α}
      (h : InPairs q earlier) (split : SplitAt q earlier changes var v)
      (down up : Except (Failure ε) (Relaxation α)) :
      InPairs q (earlier ++ [(⟨q, changes ++ [BoundChange.down var v]⟩, down),
        (⟨q, changes ++ [BoundChange.up var v]⟩, up)])

/-- Calls that end with the first half of a pair, whose answer is of no use. -/
inductive Interrupted (q : Program α) : List (Call α ε) → Prop where
  | intro {earlier : List (Call α ε)} {changes : List (BoundChange α)} {var : ℕ} {v : α}
      (h : InPairs q earlier) (split : SplitAt q earlier changes var v)
      {answer : Except (Failure ε) (Relaxation α)}
      (useless : ∀ relaxation, answer = .ok relaxation → relaxation.givesUp = true) :
      Interrupted q (earlier ++ [(⟨q, changes ++ [BoundChange.down var v]⟩, answer)])

variable {q : Program α} {asked earlier : List (Call α ε)}

/-- What is asked for is a part of something that was asked for. -/
theorem InPairs.exists_of_sides (h : InPairs q asked) {path : List Side} {side : Side}
    (hpath : ∃ call ∈ asked, sides call.1.changes = path ++ [side]) :
    ∃ call ∈ asked, sides call.1.changes = path := by
  induction h with
  | whole answer =>
      obtain ⟨call, hcall, hsides⟩ := hpath
      cases List.mem_singleton.mp hcall
      exact absurd hsides.symm (List.append_ne_nil_of_right_ne_nil _ (List.cons_ne_nil _ _))
  | @parts earlier changes var v h split down up ih =>
      obtain ⟨call, hcall, hsides⟩ := hpath
      rcases List.mem_append.mp hcall with hcall | hcall
      · obtain ⟨call', hcall', hsides'⟩ := ih ⟨call, hcall, hsides⟩
        exact ⟨call', List.mem_append_left _ hcall', hsides'⟩
      · -- the two parts have the path of the region that is split
        have cut (change : BoundChange α) (heq : sides (changes ++ [change]) = path ++ [side]) :
            sides changes = path := by
          rw [sides_concat] at heq
          exact (List.append_inj' heq rfl).1
        obtain ⟨value, vertex, hmem, -⟩ := split.answered
        refine ⟨_, List.mem_append_left _ hmem, ?_⟩
        rcases List.mem_cons.mp hcall with rfl | hcall
        · exact cut _ hsides
        · cases List.mem_singleton.mp hcall
          exact cut _ hsides

/-- The first call is about the whole program, and the others are about parts of it. -/
def OfProgram (q : Program α) (asked : List (Call α ε)) : Prop :=
  ∃ answer rest, asked = (⟨q, []⟩, answer) :: rest
    ∧ ∀ call ∈ rest, call.1.program = q ∧ call.1.changes ≠ []

omit [Scalar α] in
theorem OfProgram.append (h : OfProgram q asked) {later : List (Call α ε)}
    (parts : ∀ call ∈ later, call.1.program = q ∧ call.1.changes ≠ []) :
    OfProgram q (asked ++ later) := by
  obtain ⟨answer, rest, rfl, hrest⟩ := h
  exact ⟨answer, rest ++ later, rfl, List.forall_mem_append.mpr ⟨hrest, parts⟩⟩

theorem InPairs.ofProgram (h : InPairs q asked) : OfProgram q asked := by
  induction h with
  | whole answer => exact ⟨answer, [], rfl, by simp⟩
  | parts h split down up ih => exact ih.append (by simp)

theorem Interrupted.ofProgram (h : Interrupted q asked) : OfProgram q asked := by
  obtain ⟨h, split, -⟩ := h
  exact h.ofProgram.append (by simp)

/-- The calls for a program are its tree, which may break off if they failed.  No region is asked
for twice: not even the sides of two calls are the same. -/
structure Phase (q : Program α) (failed : Prop) (asked : List (Call α ε)) : Prop where
  ofProgram : OfProgram q asked
  pairs : InPairs q asked ∨ failed ∧ Interrupted q asked
  distinct : (asked.map fun call => sides call.1.changes).Nodup

theorem Phase.imp {failed failed' : Prop} (h : Phase q failed asked) (himp : failed → failed') :
    Phase q failed' asked :=
  ⟨h.ofProgram, h.pairs.imp_right (And.imp_left himp), h.distinct⟩

/-- A single call, for the whole program. -/
theorem phase_whole (failed : Prop) (answer : Except (Failure ε) (Relaxation α)) :
    Phase q failed [(⟨q, []⟩, answer)] :=
  ⟨(InPairs.whole answer).ofProgram, .inl (.whole answer), List.nodup_singleton _⟩

/-! ### One node -/

variable {S : Solver α β η ε} {s t : State α β η ε} {start : Session α β η ε}

/-- Filing a child keeps the count of the children, and opens the child or not. -/
theorem State.file_opens (s : State α β η ε) (node : Node α) (fate : Fate α) :
    (s.file node fate).nextId = s.nextId
      ∧ ∃ opened, (s.file node fate).frontier.nodes = s.frontier.nodes ++ opened
        ∧ (opened.map Node.changes).Sublist [node.changes]
        ∧ ∀ n ∈ opened, ∃ v x, fate = .kept v x ∧ n = node.withRelaxation v x := by
  cases fate with
  | candidate c =>
      rw [State.file, State.adopt]
      split
      · exact ⟨rfl, [], (List.append_nil _).symm, List.nil_sublist _, by simp⟩
      · exact ⟨rfl, [], (List.append_nil _).symm, List.nil_sublist _, by simp⟩
  | kept v x =>
      exact ⟨rfl, [node.withRelaxation v x], rfl, List.Sublist.refl _,
        List.forall_mem_singleton.mpr ⟨v, x, rfl, rfl⟩⟩
  | pruned kind => exact ⟨rfl, [], (List.append_nil _).symm, List.nil_sublist _, by simp⟩
  | discarded => exact ⟨rfl, [], (List.append_nil _).symm, List.nil_sublist _, by simp⟩

/-- A child that is placed is created and asked for, and if it stays open then with the vertex that
the oracle gave. -/
theorem Solver.place_calls {node : Node α} (h : S.place q node s = .ok t) :
    ∃ events relaxation opened, s.session.Writes t.session events
      ∧ calls events = [(⟨q, node.changes⟩, .ok relaxation)] ∧ created events = [node]
      ∧ taken events = []
      ∧ t.nextId = s.nextId + 1 ∧ t.frontier.nodes = s.frontier.nodes ++ opened
      ∧ (opened.map Node.changes).Sublist [node.changes]
      ∧ ∀ n ∈ opened, ∃ v x, relaxation = .optimal v x ∧ n = node.withRelaxation v x := by
  obtain ⟨relaxation, fate, answer, hfate, rfl⟩ := Solver.place_ok h
  have asked := (s.session.writes_note (.created node)).trans
    (Session.writes_afterReply _ ⟨q, node.changes⟩
      (S.oracle.ask ⟨q, node.changes⟩ s.session.oracle))
  obtain ⟨call, barren, idle⟩ := calls_replyEvents ⟨q, node.changes⟩
    (S.oracle.ask ⟨q, node.changes⟩ s.session.oracle)
  generalize (s.session.note (.created node)).afterReply _ _ = session at asked ⊢
  obtain ⟨remarks, filed, remarked⟩ :=
    State.file_writes { s with nextId := s.nextId + 1, session } node fate
  obtain ⟨nextId, opened, hopened, hchanges, kept⟩ :=
    State.file_opens { s with nextId := s.nextId + 1, session } node fate
  obtain ⟨silent, none, still⟩ := silent_remarks remarked
  refine ⟨_, relaxation, opened, asked.trans filed, ?_, ?_, ?_, nextId, hopened, hchanges,
    fun n hn => ?_⟩
  · rw [calls_append, calls_append, call, answer, calls_cons, calls_cons, silent]
    rfl
  · rw [created_append, created_append, barren, created_cons, created_cons, none]
    rfl
  · rw [taken_append, taken_append, idle, taken_cons, taken_cons, still]
    rfl
  · obtain ⟨v, x, rfl, rfl⟩ := kept n hn
    exact ⟨v, x, Solver.relaxation_of_kept hfate, rfl⟩

/-- A child that cannot be placed is created and asked for, and its answer is of no use. -/
theorem Solver.place_stop_calls {node : Node α} {stop : Stop α β η ε}
    (h : S.place q node s = .error stop) :
    ∃ events answer, s.session.Writes stop.session events
      ∧ calls events = [(⟨q, node.changes⟩, answer)] ∧ created events = [node]
      ∧ ∀ relaxation, answer = .ok relaxation → relaxation.givesUp = true := by
  obtain ⟨writes, refusal⟩ := Solver.place_refusal h
  obtain ⟨call, barren, -⟩ := calls_replyEvents ⟨q, node.changes⟩
    (S.oracle.ask ⟨q, node.changes⟩ s.session.oracle)
  refine ⟨_, _, writes, (calls_cons _ _).trans call, ?_, fun relaxation useful => ?_⟩
  · rw [created_cons, barren]
    rfl
  · generalize stop.cause = cause at refusal
    cases refusal with
    | error answer => cases answer.symm.trans useful
    | fault answer => cases answer.symm.trans useful
    | unusable answer givesUp =>
        cases answer.symm.trans useful
        exact givesUp

/-- What a split does: a call and a node for each part, in order, of which some stay open. -/
structure Splits (q : Program α) (s t : State α β η ε) (parent : Node α) (var : ℕ) (v : α)
    (asked : List (Call α ε)) (nodes opened : List (Node α)) : Prop where
  calls : ∃ down up, asked = [(⟨q, parent.changes ++ [BoundChange.down var v]⟩, .ok down),
    (⟨q, parent.changes ++ [BoundChange.up var v]⟩, .ok up)]
  nodes : nodes = [parent.child s.nextId (.down var v), parent.child (s.nextId + 1) (.up var v)]
  nextId : t.nextId = s.nextId + 2
  changes : (opened.map Node.changes).Sublist
    [parent.changes ++ [BoundChange.down var v], parent.changes ++ [BoundChange.up var v]]
  answered : ∀ n ∈ opened, (⟨q, n.changes⟩, .ok (.optimal n.bound n.vertex)) ∈ asked
  numbers : ∀ n ∈ opened, n.id < t.nextId ∧ (parent.DepthCounts → n.DepthCounts)

/-- A node that is expanded is taken from the frontier and split. -/
theorem Solver.expand_calls (h : S.expand q s = .ok t) :
    ∃ parent rest var v events opened, s.frontier.pop? = some (parent, rest)
      ∧ S.selector parent.vertex S.settings.integrality = some var
      ∧ parent.vertex[var]? = some v ∧ s.session.Writes t.session events
      ∧ taken events = [parent] ∧ t.frontier.nodes = rest.nodes ++ opened
      ∧ Splits q s t parent var v (calls events) (created events) opened := by
  obtain ⟨parent, rest, var, v, down, up, hpop, hvar, hv, hdown, hup, rfl⟩ := Solver.expand_ok h
  have selected : s.session.Writes (s.select parent rest).session [.selected parent] :=
    Session.writes_note _ _
  obtain ⟨downEvents, downAnswer, downOpened, writesDown, callDown, createdDown, takenDown,
    nextDown, openedDown, changesDown, keptDown⟩ := Solver.place_calls hdown
  obtain ⟨upEvents, upAnswer, upOpened, writesUp, callUp, createdUp, takenUp, nextUp, openedUp,
    changesUp, keptUp⟩ := Solver.place_calls hup
  obtain ⟨remarks, settled, remarked⟩ := S.settle_writes up
  obtain ⟨silent, none, still⟩ := silent_remarks remarked
  have asked : calls ([Event.selected parent] ++ (downEvents ++ upEvents ++ remarks))
      = [(⟨q, parent.changes ++ [BoundChange.down var v]⟩, .ok downAnswer),
        (⟨q, parent.changes ++ [BoundChange.up var v]⟩, .ok upAnswer)] := by
    rw [calls_append, calls_append, calls_append, callDown, callUp, silent]
    rfl
  refine ⟨parent, rest, var, v, _, downOpened ++ upOpened, hpop, hvar, hv,
    selected.trans ((writesDown.trans writesUp).trans settled), ?_, ?_, ?_⟩
  · rw [taken_append, taken_append, taken_append, takenDown, takenUp, still]
    rfl
  · exact openedUp.trans ((congrArg (· ++ upOpened) openedDown).trans (List.append_assoc _ _ _))
  · rw [asked]
    refine ⟨⟨downAnswer, upAnswer, rfl⟩, ?_, ?_, ?_, ?_, ?_⟩
    · rw [created_append, created_append, created_append, createdDown, createdUp, none, nextDown]
      rfl
    · exact nextUp.trans (congrArg (· + 1) nextDown)
    · rw [List.map_append]
      exact changesDown.append changesUp
    · intro n hn
      rcases List.mem_append.mp hn with hn | hn
      · obtain ⟨v, x, rfl, rfl⟩ := keptDown n hn
        exact List.mem_cons_self
      · obtain ⟨v, x, rfl, rfl⟩ := keptUp n hn
        exact List.mem_cons_of_mem _ (List.mem_singleton_self _)
    · have nextSettled : (S.settle up).nextId = s.nextId + 2 :=
        nextUp.trans (congrArg (· + 1) nextDown)
      intro n hn
      rcases List.mem_append.mp hn with hn | hn
      · obtain ⟨v, x, rfl, rfl⟩ := keptDown n hn
        refine ⟨?_, fun depth => (depth.child _ _).withRelaxation _ _⟩
        rw [nextSettled]
        exact Nat.lt_add_of_pos_right Nat.two_pos
      · obtain ⟨v, x, rfl, rfl⟩ := keptUp n hn
        refine ⟨?_, fun depth => (depth.child _ _).withRelaxation _ _⟩
        rw [nextSettled]
        exact nextDown.trans_lt (Nat.lt_succ_self _)

/-! ### Charts -/

/-- What the calls for a program and the nodes that were created say of a state that is about to
take its next node: an open node was answered with its vertex, and no part of it was asked for. -/
structure Chart (q : Program α) (asked : List (Call α ε)) (nodes : List (Node α))
    (s : State α β η ε) : Prop where
  pairs : InPairs q asked
  distinct : (asked.map fun call => sides call.1.changes).Nodup
  length : asked.length = 1 + 2 * s.explored
  numbered : Numbered nodes
  nextId : s.nextId = nodes.length + 1
  answered : ∀ node ∈ s.frontier.nodes,
    (⟨q, node.changes⟩, .ok (.optimal node.bound node.vertex)) ∈ asked
  numbers : ∀ node ∈ s.frontier.nodes, node.id < s.nextId ∧ node.DepthCounts
  unsplit : ∀ node ∈ s.frontier.nodes, ∀ call ∈ asked, ∀ side,
    sides call.1.changes ≠ sides node.changes ++ [side]
  apart : (s.frontier.nodes.map fun node => sides node.changes).Nodup

variable {nodes : List (Node α)}

theorem Chart.phase (h : Chart q asked nodes s) (failed : Prop) : Phase q failed asked :=
  ⟨h.pairs.ofProgram, .inl h.pairs, h.distinct⟩

/-- A node that is taken is apart from the nodes that stay open. -/
theorem Chart.taken (h : Chart q asked nodes s) {parent : Node α} {rest : Frontier α}
    (hpop : s.frontier.pop? = some (parent, rest)) :
    parent ∈ s.frontier.nodes ∧ (∀ node ∈ rest.nodes, node ∈ s.frontier.nodes)
      ∧ (sides parent.changes :: rest.nodes.map fun node => sides node.changes).Nodup := by
  obtain ⟨hparent, hrest⟩ := Frontier.mem_of_pop? hpop
  refine ⟨hparent, hrest, ?_⟩
  obtain ⟨hnode, rfl⟩ := Frontier.pop?_eq_some_iff.mp hpop
  obtain ⟨hi, rfl⟩ := List.getElem?_eq_some_iff.mp hnode
  have perm := (List.getElem_cons_eraseIdx_perm hi).map fun node => sides node.changes
  exact perm.nodup_iff.mpr h.apart

/-- A node that is taken can be split where the selector says. -/
theorem Chart.splitAt [LawfulScalar α] (ht : 0 ≤ S.settings.integrality)
    (fractional : S.selector.FractionalAt S.settings.integrality) (h : Chart q asked nodes s)
    {parent : Node α} (hparent : parent ∈ s.frontier.nodes) {var : ℕ} {v : α}
    (hvar : S.selector parent.vertex S.settings.integrality = some var)
    (hv : parent.vertex[var]? = some v) : SplitAt q asked parent.changes var v := by
  obtain ⟨v', hv', hfar⟩ := fractional _ _ hvar
  cases Option.some.inj (hv.symm.trans hv')
  exact ⟨⟨_, _, h.answered parent hparent, hv⟩, LawfulScalar.lt_of_le_of_lt ht hfar⟩

/-- What a split adds is the two parts of the parent, and some of them stay open. -/
theorem Splits.sides {parent : Node α} {var : ℕ} {v : α} {opened : List (Node α)}
    (h : Splits q s t parent var v asked nodes opened) :
    (asked.map fun call => sides call.1.changes) = parts (sides parent.changes)
      ∧ (opened.map fun node => sides node.changes).Sublist (parts (sides parent.changes)) := by
  obtain ⟨down, up, rfl⟩ := h.calls
  have hsub := h.changes.map IntegerProgramming.sides
  rw [List.map_map] at hsub
  rw [parts_sides _ var v]
  exact ⟨rfl, hsub⟩

/-- The parts of an open node were not asked for. -/
theorem Chart.fresh (h : Chart q asked nodes s) {node : Node α} (hnode : node ∈ s.frontier.nodes)
    {path : List Side} (hpath : path ∈ parts (sides node.changes)) :
    path ∉ asked.map fun call => sides call.1.changes := by
  intro hasked
  obtain ⟨call, hcall, rfl⟩ := List.mem_map.mp hasked
  obtain ⟨side, heq⟩ := mem_parts hpath
  exact h.unsplit node hnode call hcall side heq

/-- Once parts of an open node are asked for, still none is asked for twice. -/
theorem Chart.nodup_append (h : Chart q asked nodes s) {node : Node α}
    (hnode : node ∈ s.frontier.nodes) {added : List (Call α ε)}
    (hadded : (added.map fun call => sides call.1.changes).Sublist (parts (sides node.changes))) :
    ((asked ++ added).map fun call => sides call.1.changes).Nodup := by
  rw [List.map_append, List.nodup_append']
  exact ⟨h.distinct, hadded.nodup (nodup_parts _),
    fun _ hold hnew => h.fresh hnode (hadded.subset hnew) hold⟩

/-- The next child of an open node has the next number. -/
theorem Chart.numbered_child (h : Chart q asked nodes s) {node : Node α}
    (hnode : node ∈ s.frontier.nodes) (change : BoundChange α) :
    Numbered (nodes ++ [node.child s.nextId change]) :=
  h.numbered.concat change h.nextId (h.numbers node hnode).1 (h.numbers node hnode).2

/-- The next two children of an open node have the next two numbers. -/
theorem Chart.numbered_children (h : Chart q asked nodes s) {node : Node α}
    (hnode : node ∈ s.frontier.nodes) (first second : BoundChange α) :
    Numbered (nodes ++ [node.child s.nextId first, node.child (s.nextId + 1) second]) := by
  obtain ⟨older, depth⟩ := h.numbers node hnode
  have next : s.nextId + 1 = (nodes ++ [node.child s.nextId first]).length + 1 := by
    rw [h.nextId, List.length_append, List.length_singleton]
  have both := (h.numbered_child hnode first).concat second next
    (older.trans (Nat.lt_succ_self _)) depth
  rwa [List.append_assoc] at both

/-- **A step adds a pair of calls.** -/
theorem Chart.expand [LawfulScalar α] (ht : 0 ≤ S.settings.integrality)
    (fractional : S.selector.FractionalAt S.settings.integrality) (h : Chart q asked nodes s)
    (hexpand : S.expand q s = .ok t) :
    ∃ events, s.session.Writes t.session events
      ∧ Chart q (asked ++ calls events) (nodes ++ created events) t := by
  obtain ⟨parent, rest, var, v, events, opened, hpop, hvar, hv, writes, -, hnodes, splits⟩ :=
    Solver.expand_calls hexpand
  obtain ⟨hparent, hrest, apart⟩ := h.taken hpop
  obtain ⟨notMem, apartRest⟩ := List.nodup_cons.mp apart
  obtain ⟨down, up, hcalls⟩ := splits.calls
  obtain ⟨newSides, openedSides⟩ := splits.sides
  have isNew {call : Call α ε} (hcall : call ∈ calls events) :
      sides call.1.changes ∈ parts (sides parent.changes) :=
    newSides ▸ List.mem_map_of_mem hcall
  have isPart {node : Node α} (hnode : node ∈ opened) :
      sides node.changes ∈ parts (sides parent.changes) :=
    openedSides.subset (List.mem_map_of_mem hnode)
  have openNode {node : Node α} (hnode : node ∈ t.frontier.nodes) :
      node ∈ rest.nodes ∨ node ∈ opened :=
    List.mem_append.mp (hnodes ▸ hnode)
  refine ⟨events, writes, ?pairs, ?distinct, ?length, ?numbered, ?nextId, ?answered, ?numbers,
    ?unsplit, ?apart⟩
  case pairs =>
    rw [hcalls]
    exact h.pairs.parts (h.splitAt ht fractional hparent hvar hv) _ _
  case distinct => exact h.nodup_append hparent (newSides ▸ List.Sublist.refl _)
  case length =>
    rw [List.length_append, h.length, hcalls, (Solver.history_expand hexpand).1, Nat.mul_succ,
      Nat.add_assoc]
    rfl
  case numbered =>
    rw [splits.nodes]
    exact h.numbered_children hparent _ _
  case nextId =>
    rw [splits.nextId, h.nextId, splits.nodes, List.length_append]
    rfl
  case answered =>
    intro node hnode
    rcases openNode hnode with hnode | hnode
    · exact List.mem_append_left _ (h.answered node (hrest node hnode))
    · exact List.mem_append_right _ (splits.answered node hnode)
  case numbers =>
    intro node hnode
    rcases openNode hnode with hnode | hnode
    · obtain ⟨hid, hdepth⟩ := h.numbers node (hrest node hnode)
      refine ⟨hid.trans_le ?_, hdepth⟩
      rw [splits.nextId]
      exact Nat.le_add_right _ _
    · obtain ⟨hid, hdepth⟩ := splits.numbers node hnode
      exact ⟨hid, hdepth (h.numbers parent hparent).2⟩
  case unsplit =>
    intro node hnode call hcall side heq
    rcases openNode hnode with hnode | hnode
    · rcases List.mem_append.mp hcall with hcall | hcall
      · exact h.unsplit node (hrest node hnode) call hcall side heq
      · -- a new call is about a part of the parent, which is not this node
        obtain ⟨cut, hcut⟩ := mem_parts (isNew hcall)
        obtain ⟨hpath, -⟩ := List.append_inj' (hcut.symm.trans heq) rfl
        exact notMem (hpath ▸ List.mem_map_of_mem hnode)
    · rcases List.mem_append.mp hcall with hcall | hcall
      · -- had a part of this node been asked for, then so had this node
        obtain ⟨call', hcall', hpath⟩ := h.pairs.exists_of_sides ⟨call, hcall, heq⟩
        exact h.fresh hparent (isPart hnode) (hpath ▸ List.mem_map_of_mem hcall')
      · exact parts_ne (isNew hcall) (isPart hnode) side heq
  case apart =>
    rw [hnodes, List.map_append, List.nodup_append']
    refine ⟨apartRest, openedSides.nodup (nodup_parts _), fun path hpath hpart => ?_⟩
    obtain ⟨node, hnode, rfl⟩ := List.mem_map.mp hpath
    exact h.fresh hparent (openedSides.subset hpart)
      (List.mem_map_of_mem (h.answered node (hrest node hnode)))

/-- **A step that stops adds a pair of calls, the first half of one, or nothing.** -/
theorem Chart.expand_stop [LawfulScalar α] (ht : 0 ≤ S.settings.integrality)
    (fractional : S.selector.FractionalAt S.settings.integrality) (h : Chart q asked nodes s)
    {stop : Stop α β η ε} (hexpand : S.expand q s = .error stop) :
    ∃ events, s.session.Writes stop.session events
      ∧ Phase q True (asked ++ calls events) ∧ Numbered (nodes ++ created events) := by
  rcases Solver.expand_stop hexpand with ⟨-, hsession⟩ | ⟨parent, rest, hpop, hsplit⟩
  · refine ⟨[], hsession ▸ .refl _, ?_, ?_⟩
    · exact (List.append_nil asked).symm ▸ h.phase True
    · exact (List.append_nil nodes).symm ▸ h.numbered
  have hparent := (Frontier.mem_of_pop? hpop).1
  have selected : s.session.Writes (s.select parent rest).session [.selected parent] :=
    Session.writes_note _ _
  rcases hsplit with ⟨hsession, -⟩ | ⟨var, v, hvar, hv, hdown | ⟨down, hdown, hup⟩⟩
  · refine ⟨[.selected parent], hsession ▸ selected, ?_, ?_⟩
    · exact (List.append_nil asked).symm ▸ h.phase True
    · exact (List.append_nil nodes).symm ▸ h.numbered
  · have split := h.splitAt ht fractional hparent hvar hv
    obtain ⟨events, answer, writes, hcalls, hcreated, useless⟩ := Solver.place_stop_calls hdown
    have broken : Interrupted q
        (asked ++ [(⟨q, parent.changes ++ [BoundChange.down var v]⟩, answer)]) :=
      .intro h.pairs split useless
    refine ⟨_, selected.trans writes, ?_, ?_⟩
    · rw [calls_append, hcalls]
      refine ⟨broken.ofProgram, .inr ⟨trivial, broken⟩, h.nodup_append hparent ?_⟩
      rw [parts_sides _ var v]
      exact List.singleton_sublist.mpr List.mem_cons_self
    · rw [created_append, hcreated]
      exact h.numbered_child hparent _
  · have split := h.splitAt ht fractional hparent hvar hv
    obtain ⟨downEvents, downAnswer, -, writesDown, callDown, createdDown, -, nextDown, -⟩ :=
      Solver.place_calls hdown
    obtain ⟨upEvents, upAnswer, writesUp, callUp, createdUp, -⟩ := Solver.place_stop_calls hup
    have paired := h.pairs.parts split (.ok downAnswer) upAnswer
    refine ⟨_, selected.trans (writesDown.trans writesUp), ?_, ?_⟩
    · rw [calls_append, calls_append, callDown, callUp]
      refine ⟨paired.ofProgram, .inl paired, h.nodup_append hparent ?_⟩
      rw [parts_sides _ var v]
      exact List.Sublist.refl _
    · rw [created_append, created_append, createdDown, createdUp, nextDown]
      exact h.numbered_children hparent _ _

/-! ### A whole search -/

variable {p : Program α} {session between : Session α β η ε}

/-- What is asked before the first node: the whole program, and nothing else. -/
theorem Solver.begin_calls {bound : α} {vertex : List α}
    (hask : S.ask ⟨q, []⟩ session = .ok (.optimal bound vertex, between))
    (hbegin : S.begin q bound vertex between = .ok s) :
    ∃ events, session.Writes s.session events
      ∧ calls events = [(⟨q, []⟩, .ok (.optimal bound vertex))] ∧ created events = []
      ∧ taken events = [] := by
  obtain ⟨answer, rfl⟩ := Solver.ask_ok hask
  have asked := session.writes_afterReply ⟨q, []⟩ (S.oracle.ask ⟨q, []⟩ session.oracle)
  obtain ⟨call, barren, idle⟩ := calls_replyEvents ⟨q, []⟩ (S.oracle.ask ⟨q, []⟩ session.oracle)
  obtain ⟨remarks, seeded, writes, remarked, hseeded⟩ := Solver.begin_writes hbegin
  obtain ⟨silent, none, still⟩ := silent_remarks remarked
  have quiet : calls seeded = [] ∧ created seeded = [] ∧ taken seeded = [] := by
    rcases hseeded with ⟨rfl, -⟩ | ⟨x, rfl, -⟩
    · exact ⟨rfl, rfl, rfl⟩
    · exact ⟨rfl, rfl, rfl⟩
  refine ⟨_, asked.trans writes, ?_, ?_, ?_⟩
  · rw [calls_append, calls_append, call, answer, silent, quiet.1]
    rfl
  · rw [created_append, created_append, barren, none, quiet.2.1]
    rfl
  · rw [taken_append, taken_append, idle, still, quiet.2.2]
    rfl

/-- The search begins with the answer for the whole program, and no child. -/
theorem Chart.begin {bound : α} {vertex : List α}
    (hask : S.ask ⟨q, []⟩ session = .ok (.optimal bound vertex, between))
    (hbegin : S.begin q bound vertex between = .ok s) :
    ∃ events, session.Writes s.session events ∧ Chart q (calls events) (created events) s := by
  obtain ⟨events, writes, hcalls, hcreated, -⟩ := Solver.begin_calls hask hbegin
  obtain ⟨frontier, nextId⟩ := Solver.frontier_begin hbegin
  have hnodes : s.frontier.nodes = [Node.root.withRelaxation bound vertex] := by
    rw [frontier]
    rfl
  have root (node : Node α) (hnode : node ∈ s.frontier.nodes) :
      node = Node.root.withRelaxation bound vertex := by
    rwa [hnodes, List.mem_singleton] at hnode
  refine ⟨events, writes, ?_⟩
  rw [hcalls, hcreated]
  refine ⟨.whole _, List.nodup_singleton _, ?_, ?_, nextId, ?_, ?_, ?_, ?_⟩
  · rw [Solver.explored_begin hbegin]
    rfl
  · intro k node hk
    cases hk
  · intro node hnode
    rw [root node hnode]
    exact List.mem_singleton_self _
  · intro node hnode
    rw [root node hnode, nextId]
    exact ⟨Nat.one_pos, Node.depthCounts_root⟩
  · intro node hnode call hcall side heq
    cases List.mem_singleton.mp hcall
    exact List.append_ne_nil_of_right_ne_nil _ (List.cons_ne_nil _ _) heq.symm
  · rw [hnodes]
    exact List.nodup_singleton _

/-- **The calls below a fractional root are a tree.** -/
theorem Chart.reaches [LawfulScalar α] (ht : 0 ≤ S.settings.integrality)
    (fractional : S.selector.FractionalAt S.settings.integrality) (run : Reaches S q s t)
    (h : Chart q asked nodes s) :
    ∃ events, s.session.Writes t.session events
      ∧ Chart q (asked ++ calls events) (nodes ++ created events) t := by
  induction run generalizing asked nodes with
  | refl s =>
      refine ⟨[], .refl _, ?_⟩
      rw [calls, created, List.filterMap_nil, List.filterMap_nil, List.append_nil, List.append_nil]
      exact h
  | step _ hexpand _ ih =>
      obtain ⟨events, writes, charted⟩ := h.expand ht fractional hexpand
      obtain ⟨later, writesLater, chartedLater⟩ := ih charted
      refine ⟨events ++ later, writes.trans writesLater, ?_⟩
      rwa [calls_append, created_append, ← List.append_assoc, ← List.append_assoc]

omit [Scalar α] in
/-- What stops comes to no record. -/
theorem no_record {P : Record α → Prop} (stop : Stop α β η ε) :
    ∀ record, (Outcome.ofAttempt (.error stop)).result = .ok record → P record := by
  intro record hrecord
  cases hrecord

/-- What the events of a search say of its outcome: they are the tree of its calls, which may break
off if it failed, and a record with a point says how many calls there are. -/
structure Maps (q : Program α) (events : List (Event α ε)) (o : Outcome α β η ε) : Prop where
  phase : Phase q (∃ cause, o.result = .error cause) (calls events)
  numbered : Numbered (created events)
  counted : ∀ record, o.result = .ok record → record.status.hasSolution = true →
    (calls events).length = 1 + record.stats.iterations

/-- A search that is over with its first call. -/
theorem Maps.whole {remarks : List (Event α ε)} {reply : Reply α β ε} {o : Outcome α β η ε}
    (remarked : ∀ e ∈ remarks, e.isRemark = true)
    (still : ∀ record, o.result = .ok record → record.stats.iterations = 0) :
    Maps q (replyEvents ⟨q, []⟩ reply ++ remarks) o := by
  obtain ⟨call, barren, -⟩ := calls_replyEvents ⟨q, []⟩ reply
  obtain ⟨silent, none, -⟩ := silent_remarks remarked
  have hcalls : calls (replyEvents ⟨q, []⟩ reply ++ remarks) = [(⟨q, []⟩, reply.answer)] := by
    rw [calls_append, call, silent, List.append_nil]
  have hcreated : created (replyEvents ⟨q, []⟩ reply ++ remarks) = [] := by
    rw [created_append, barren, none, List.append_nil]
  refine ⟨hcalls ▸ phase_whole _ _, ?_, fun record hrecord _ => ?_⟩
  · intro k node hk
    rw [hcreated] at hk
    cases hk
  · rw [hcalls, still record hrecord]
    rfl

/-- Wherever a search has come, it has asked a tree of calls so far. -/
theorem Chart.after [LawfulScalar α] (ht : 0 ≤ S.settings.integrality)
    (fractional : S.selector.FractionalAt S.settings.integrality) {bound : α} {vertex : List α}
    (hask : S.ask ⟨q, []⟩ session = .ok (.optimal bound vertex, between))
    (hbegin : S.begin q bound vertex between = .ok s) (run : Reaches S q s t) :
    ∃ events, session.Writes t.session events ∧ Chart q (calls events) (created events) t := by
  obtain ⟨first, writesFirst, charted⟩ := Chart.begin hask hbegin
  obtain ⟨later, writesLater, charted⟩ := charted.reaches ht fractional run
  rw [← calls_append, ← created_append] at charted
  exact ⟨first ++ later, writesFirst.trans writesLater, charted⟩

/-- A search that stops at a charted state has asked a tree of calls, and its record counts them. -/
theorem Chart.maps {events remarks : List (Event α ε)} {reason : Termination} {o : Session α β η ε}
    (h : Chart q (calls events) (created events) s) (twice : s.CountsTwice)
    (remarked : ∀ e ∈ remarks, e.isRemark = true) :
    Maps q (events ++ remarks) ⟨.ok (s.report reason), o⟩ := by
  obtain ⟨silent, none, -⟩ := silent_remarks remarked
  refine ⟨?_, ?_, fun record hrecord _ => ?_⟩
  · rw [calls_append, silent, List.append_nil]
    exact h.phase _
  · rw [created_append, none, List.append_nil]
    exact h.numbered
  · cases hrecord
    rw [calls_append, silent, List.append_nil, h.length, ← twice, State.report]
    split
    · rfl
    · rfl

/-- A search below a fractional root. -/
theorem Solver.searchTree_maps [LawfulScalar α] (ht : 0 ≤ S.settings.integrality)
    (fractional : S.selector.FractionalAt S.settings.integrality) {bound : α} {vertex : List α}
    (hask : S.ask ⟨q, []⟩ session = .ok (.optimal bound vertex, between)) :
    ∃ events,
      session.Writes (Outcome.ofAttempt (S.searchTree q bound vertex between)).session events
        ∧ Maps q events (.ofAttempt (S.searchTree q bound vertex between)) := by
  cases htree : S.searchTree q bound vertex between with
  | error stop =>
      rcases Solver.searchTree_stop htree with hbegin | ⟨s, t, hbegin, run, -, hexpand⟩
      · obtain ⟨remarks, -, writes, remarked, -⟩ := Solver.begin_stop hbegin
        obtain ⟨-, rfl⟩ := Solver.ask_ok hask
        exact ⟨_, (session.writes_afterReply _ _).trans writes,
          .whole remarked (no_record _)⟩
      · obtain ⟨events, writes, charted⟩ := Chart.after ht fractional hask hbegin run
        obtain ⟨last, writesLast, phase, numbered⟩ := charted.expand_stop ht fractional hexpand
        refine ⟨_, writes.trans writesLast, ?_, ?_, no_record _⟩
        · rw [calls_append]
          exact phase.imp fun _ => ⟨_, rfl⟩
        · rwa [created_append]
  | ok pair =>
      obtain ⟨record, session'⟩ := pair
      obtain ⟨s, t, reason, hbegin, run, -, rfl, rfl⟩ := Solver.searchTree_ok htree
      obtain ⟨events, writes, charted⟩ := Chart.after ht fractional hask hbegin run
      have recorded := (Recorded.begin hbegin).reaches run
      exact ⟨_, writes.trans (Session.writes_note _ _),
        charted.maps recorded.twice (List.forall_mem_singleton.mpr rfl)⟩

/-- A search of a program, unless its relaxation is unbounded. -/
theorem Solver.searchProgram_maps [LawfulScalar α] (ht : 0 ≤ S.settings.integrality)
    (fractional : S.selector.FractionalAt S.settings.integrality)
    (ifUnbounded : Session α β η ε → Attempt α β η ε (Record α × Session α β η ε))
    (session : Session α β η ε) :
    (∃ events,
        session.Writes (Outcome.ofAttempt (S.searchProgram q ifUnbounded session)).session events
          ∧ Maps q events (.ofAttempt (S.searchProgram q ifUnbounded session)))
      ∨ ∃ between, S.ask ⟨q, []⟩ session = .ok (.unbounded, between)
        ∧ S.searchProgram q ifUnbounded session = ifUnbounded between := by
  have asked := session.writes_afterReply ⟨q, []⟩ (S.oracle.ask ⟨q, []⟩ session.oracle)
  have silent : ∀ e ∈ ([] : List (Event α ε)), e.isRemark = true := by simp
  rw [Solver.searchProgram]
  cases hask : S.ask ⟨q, []⟩ session with
  | error stop =>
      refine .inl ⟨_ ++ [], asked.trans ?_, .whole silent (no_record _)⟩
      exact (Solver.ask_stop hask).1 ▸ .refl _
  | ok pair =>
      obtain ⟨root, between⟩ := pair
      obtain ⟨-, rfl⟩ := Solver.ask_ok hask
      cases root with
      | optimal bound vertex =>
          dsimp only
          split
          · refine .inl ⟨_, asked.trans (Session.writes_note _ _),
              .whole (List.forall_mem_singleton.mpr rfl) fun record hrecord => ?_⟩
            cases hrecord
            rfl
          · exact .inl (Solver.searchTree_maps ht fractional hask)
      | infeasible =>
          refine .inl ⟨_, asked.trans (Session.writes_note _ _),
            .whole (List.forall_mem_singleton.mpr rfl) fun record hrecord => ?_⟩
          cases hrecord
          rfl
      | unbounded => exact .inr ⟨_, rfl, rfl⟩
      | iterationLimit | numericalError =>
          exact .inl ⟨_ ++ [], asked.trans (.refl _),
            .whole silent (no_record _)⟩

/-- The probe of an unbounded program is a search that ends in any case. -/
theorem Solver.probe_maps [LawfulScalar α] (ht : 0 ≤ S.settings.integrality)
    (fractional : S.selector.FractionalAt S.settings.integrality) (session : Session α β η ε) :
    ∃ events, session.Writes (Outcome.ofAttempt (S.probe p session)).session events
      ∧ Maps p.withZeroObjective events (.ofAttempt (S.probe p session)) := by
  rcases Solver.searchProgram_maps (q := p.withZeroObjective) ht fractional
    (fun session => session.fail .unboundedProbe) session with h | ⟨between, hask, hprobe⟩
  · exact h
  · rw [Solver.probe, hprobe]
    obtain ⟨-, rfl⟩ := Solver.ask_ok hask
    exact ⟨_ ++ [], (session.writes_afterReply _ _).trans (.refl _),
      .whole (by simp) (no_record _)⟩

omit [Scalar α] in
/-- No point is reported after a probe. -/
theorem hasSolution_afterProbe (probe : Record α) :
    (afterProbe probe).status.hasSolution = false := by
  rw [afterProbe]
  split
  · rfl
  · rfl

/-- An unbounded program: its probe follows, and gives no point away. -/
theorem Solver.searchUnbounded_maps [LawfulScalar α] (ht : 0 ≤ S.settings.integrality)
    (fractional : S.selector.FractionalAt S.settings.integrality) (session : Session α β η ε) :
    ∃ events, session.Writes (Outcome.ofAttempt (S.searchUnbounded p session)).session
        (.rootUnbounded :: events)
      ∧ Phase p.withZeroObjective
        (∃ cause, (Outcome.ofAttempt (S.searchUnbounded p session)).result = .error cause)
        (calls events)
      ∧ Numbered (created events)
      ∧ ∀ record, (Outcome.ofAttempt (S.searchUnbounded p session)).result = .ok record →
        record.status.hasSolution = false := by
  obtain ⟨events, writes, maps⟩ :=
    Solver.probe_maps (p := p) ht fractional (session.note .rootUnbounded)
  rw [Solver.searchUnbounded]
  cases hprobe : S.probe p (session.note .rootUnbounded) with
  | error stop =>
      rw [hprobe] at writes maps
      exact ⟨events, (session.writes_note _).trans writes, maps.phase, maps.numbered,
        no_record _⟩
  | ok pair =>
      rw [hprobe] at writes maps
      refine ⟨events, (session.writes_note _).trans writes, maps.phase.imp ?_, maps.numbered,
        fun record hrecord => ?_⟩
      · rintro ⟨cause, h⟩
        cases h
      · cases hrecord
        exact hasSolution_afterProbe _

/-- **The calls of a search are a tree.**  The first call is for the whole program, and every other
one comes from it in pairs: the two parts of a region that was asked for before and answered with a
vertex, cut at a coordinate that is no integer.  The second part is missing only where the search
failed at the first, and no region is asked for twice.  Only an answer that the program is unbounded
is followed by a second call for a whole program; that is the program with a zero objective, and all
calls after it are the tree of that one.  A record with a point took one call for the root and as
many more as iterations, and the nodes are numbered in the order of their creation. -/
theorem Solver.mapsTree [LawfulScalar α] (S : Solver α β η ε) (ht : 0 ≤ S.settings.integrality)
    (fractional : S.selector.FractionalAt S.settings.integrality) (p : Program α)
    (session : Session α β η ε) :
    ∃ events, session.Writes (S.solve p session).session events
      ∧ (Phase p (∃ cause, (S.solve p session).result = .error cause) (calls events)
        ∨ ∃ rest, calls events = (⟨p, []⟩, .ok .unbounded) :: rest
          ∧ Phase p.withZeroObjective (∃ cause, (S.solve p session).result = .error cause) rest)
      ∧ (∀ record, (S.solve p session).result = .ok record →
        (record.status = .optimal ∨ record.status = .iterationLimit) →
          (calls events).length = 1 + record.stats.iterations)
      ∧ Numbered (created events) := by
  rw [Solver.solve]
  rcases Solver.searchProgram_maps (q := p) ht fractional (S.searchUnbounded p)
      { session with heuristic := S.heuristic.reset session.heuristic }
    with ⟨events, writes, maps⟩ | ⟨between, hask, hsearch⟩
  · exact ⟨events, writes, .inl maps.phase,
      fun record hrecord point => maps.counted record hrecord (Status.hasSolution_iff.mpr point),
      maps.numbered⟩
  · obtain ⟨answer, rfl⟩ := Solver.ask_ok hask
    rw [hsearch]
    have asked := Session.writes_afterReply
      { session with heuristic := S.heuristic.reset session.heuristic } ⟨p, []⟩
      (S.oracle.ask ⟨p, []⟩ session.oracle)
    obtain ⟨events, writes, phase, numbered, noPoint⟩ := Solver.searchUnbounded_maps (p := p) ht
      fractional (Session.afterReply
        { session with heuristic := S.heuristic.reset session.heuristic } ⟨p, []⟩
        (S.oracle.ask ⟨p, []⟩ session.oracle))
    obtain ⟨call, barren, -⟩ := calls_replyEvents ⟨p, []⟩ (S.oracle.ask ⟨p, []⟩ session.oracle)
    refine ⟨_, asked.trans writes, .inr ⟨calls events, ?_, phase⟩, fun record hrecord point => ?_,
      ?_⟩
    · rw [calls_append, call, answer]
      rfl
    · rw [← Status.hasSolution_iff, noPoint record hrecord] at point
      cases point
    · rw [created_append, barren]
      exact numbered

/-- The square takes five calls, for its root and two nodes. -/
theorem mapsTree_square :
    0 ≤ squareSolver.settings.integrality
      ∧ squareSolver.selector.FractionalAt squareSolver.settings.integrality
      ∧ ∃ events record,
        (Session.new () ()).Writes (squareSolver.solve square.embed (.new () ())).session events
          ∧ (squareSolver.solve square.embed (.new () ())).result = .ok record
          ∧ record.status = .optimal ∧ record.stats.iterations = 4
          ∧ Phase square.embed False (calls events) ∧ (calls events).length = 1 + 4
          ∧ Numbered (created events) := by
  have ht : 0 ≤ squareSolver.settings.integrality := by decide +kernel
  have fractional : squareSolver.selector.FractionalAt squareSolver.settings.integrality :=
    firstFractional_fractionalAt _
  obtain ⟨record, h, hrecord⟩ : ∃ record,
      (squareSolver.solve square.embed (.new () ())).result = .ok record
        ∧ (record.status, record.stats.iterations) = (.optimal, 4) :=
    exists_ok_of_toOption (by decide +kernel)
  obtain ⟨hstatus, hiterations⟩ := Prod.mk.inj hrecord
  have first : ((squareSolver.solve square.embed (.new () ())).session.journal.calls.head?.bind
      fun call => call.2.toOption.map Relaxation.kind) = some .optimal := by decide +kernel
  obtain ⟨events, writes, hphase, counted, numbered⟩ :=
    Solver.mapsTree squareSolver ht fractional square.embed (.new () ())
  have hcalls : (squareSolver.solve square.embed (.new () ())).session.journal.calls
      = calls events := writes.calls
  refine ⟨ht, fractional, events, record, writes, h, hstatus, hiterations, ?_,
    hiterations ▸ counted record h (.inl hstatus), numbered⟩
  rcases hphase with phase | ⟨rest, hrest, -⟩
  · refine phase.imp ?_
    rintro ⟨cause, hcause⟩
    cases hcause.symm.trans h
  · rw [hcalls, hrest] at first
    cases first

end IntegerProgramming.Search
