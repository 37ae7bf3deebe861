import Mathlib
import IntegerProgramming.Proofs.Search.Depth
import IntegerProgramming.Proofs.Search.Trajectories

/-!
# Search — what a run writes down

A run leaves two accounts behind: the journal, which every step continues by events of its own, and
the history of the two bounds, which gets a pair when the search begins and one more for each node.

* `Session.Writes`: a session goes on from another by certain events.
* `Solver.place_writes`, `Solver.expand_writes`: the events of a child and of a node, in order.
* `Solver.begin_writes`: the events of the beginning.
* `Solver.expand_stop_writes`: the events of a node at which the search stops, and the cause.
* `Recorded.reaches`: **the history of every state ends with its bounds, and has a pair for the
  start and for each node**, two iterations for a node.
-/

namespace IntegerProgramming

/-- Whether no use can be made of the answer. -/
def Relaxation.givesUp {α : Type} : Relaxation α → Bool
  | .iterationLimit | .numericalError => true
  | .optimal .. | .infeasible | .unbounded => false

end IntegerProgramming

namespace IntegerProgramming.Search

variable {α β η ε : Type}

/-! ### Events of a session -/

/-- The journal of one session is that of another and then these events. -/
def Session.Writes (s t : Session α β η ε) (events : List (Event α ε)) : Prop :=
  t.journal.toList = s.journal.toList ++ events

/-- Whether the event is a remark: nothing is asked, no node is taken, created or filed, and no
candidate is offered. -/
def Event.isRemark : Event α ε → Bool
  | .asked .. | .seeded _ | .selected _ | .created _ | .filed .. => false
  | _ => true

/-- The events that a reply leaves behind. -/
def replyEvents (sub : Subproblem α) (reply : Reply α β ε) : List (Event α ε) :=
  reply.solved.map .solved ++ [.asked sub reply.answer]

namespace Session

theorem Writes.refl (s : Session α β η ε) : s.Writes s [] := (List.append_nil _).symm

theorem Writes.trans {s t u : Session α β η ε} {first second : List (Event α ε)}
    (h : s.Writes t first) (h' : t.Writes u second) : s.Writes u (first ++ second) := by
  rw [Writes, h', h, List.append_assoc]

theorem writes_note (s : Session α β η ε) (e : Event α ε) : s.Writes (s.note e) [e] := by
  rw [Writes, note, Array.toList_push]

theorem writes_foldl_note (s : Session α β η ε) (results : List (LinearProgram.Result α)) :
    s.Writes (results.foldl (fun s result => s.note (.solved result)) s)
      (results.map .solved) := by
  induction results generalizing s with
  | nil => exact .refl s
  | cons result rest ih => exact (s.writes_note (.solved result)).trans (ih _)

theorem writes_afterReply (s : Session α β η ε) (sub : Subproblem α) (reply : Reply α β ε) :
    s.Writes (s.afterReply sub reply) (replyEvents sub reply) :=
  (s.writes_foldl_note reply.solved).trans (writes_note _ _)

end Session

variable [Scalar α] {S : Solver α β η ε} {p : Program α}

/-! ### Events of a step -/

/-- The events of a child that is created, asked for and filed, with remarks. -/
inductive Placing (S : Solver α β η ε) (p : Program α) (node : Node α) (fate : Fate α) :
    List (Event α ε) → Prop where
  | intro {lower : α} {state : β} {relaxation : Relaxation α} {remarks : List (Event α ε)}
      (answer : (S.oracle.ask ⟨p, node.changes⟩ state).answer = .ok relaxation)
      (fate_eq : S.fate? p lower relaxation = some fate)
      (remarked : ∀ e ∈ remarks, e.isRemark = true) :
      Placing S p node fate
        (.created node :: (replyEvents ⟨p, node.changes⟩ (S.oracle.ask ⟨p, node.changes⟩ state)
          ++ .filed node fate :: remarks))

theorem State.file_writes (s : State α β η ε) (node : Node α) (fate : Fate α) :
    ∃ remarks, s.session.Writes (s.file node fate).session (.filed node fate :: remarks)
      ∧ ∀ e ∈ remarks, e.isRemark = true := by
  have filed := s.session.writes_note (.filed node fate)
  have silent : ∀ e ∈ ([] : List (Event α ε)), e.isRemark = true := by simp
  cases fate with
  | candidate c =>
      rw [State.file, State.adopt]
      split
      · refine ⟨[.improved node c.value], filed.trans (Session.writes_note _ _), ?_⟩
        exact List.forall_mem_singleton.mpr rfl
      · exact ⟨[], filed, silent⟩
  | kept v x => exact ⟨[], filed, silent⟩
  | pruned kind => exact ⟨[], filed, silent⟩
  | discarded => exact ⟨[], filed, silent⟩

/-- A child that is placed is filed, and leaves its events behind. -/
theorem Solver.place_writes {node : Node α} {s t : State α β η ε} (h : S.place p node s = .ok t) :
    ∃ fate events nextId session, Placing S p node fate events ∧ s.session.Writes t.session events
      ∧ t = State.file { s with nextId, session } node fate := by
  obtain ⟨relaxation, fate, hanswer, hfate, rfl⟩ := Solver.place_ok h
  have asked := (s.session.writes_note (.created node)).trans
    (Session.writes_afterReply _ ⟨p, node.changes⟩
      (S.oracle.ask ⟨p, node.changes⟩ s.session.oracle))
  obtain ⟨remarks, filed, remarked⟩ := State.file_writes
    { s with
      nextId := s.nextId + 1
      session := (s.session.note (.created node)).afterReply ⟨p, node.changes⟩
        (S.oracle.ask ⟨p, node.changes⟩ s.session.oracle) } node fate
  exact ⟨fate, _, _, _, .intro hanswer hfate remarked, asked.trans filed, rfl⟩

/-- The end of a step leaves at most a remark on the progress behind. -/
theorem Solver.settle_writes (S : Solver α β η ε) (s : State α β η ε) :
    ∃ remarks, s.session.Writes (S.settle s).session remarks
      ∧ ∀ e ∈ remarks, e.isRemark = true := by
  simp only [Solver.settle, Session.noteIf]
  split
  · exact ⟨_, s.session.writes_note _, List.forall_mem_singleton.mpr rfl⟩
  · exact ⟨[], .refl s.session, by simp⟩

/-- A node that is expanded is selected, and has its two children placed. -/
theorem Solver.expand_writes {s t : State α β η ε} (h : S.expand p s = .ok t) :
    ∃ parent ∈ s.frontier.nodes, ∃ var down up downFate upFate downEvents upEvents remarks,
      S.selector parent.vertex S.settings.integrality = some var
        ∧ s.session.Writes t.session (.selected parent :: (downEvents ++ upEvents ++ remarks))
        ∧ down.changes ≠ [] ∧ Placing S p down downFate downEvents
        ∧ up.changes ≠ [] ∧ Placing S p up upFate upEvents
        ∧ ∀ e ∈ remarks, e.isRemark = true := by
  obtain ⟨parent, rest, var, value, down, up, hpop, hvar, -, hdown, hup, rfl⟩ :=
    Solver.expand_ok h
  obtain ⟨downFate, downEvents, -, -, placedDown, writesDown, -⟩ := Solver.place_writes hdown
  obtain ⟨upFate, upEvents, -, -, placedUp, writesUp, -⟩ := Solver.place_writes hup
  have selected : s.session.Writes (s.select parent rest).session [.selected parent] :=
    Session.writes_note _ _
  obtain ⟨remarks, settled, remarked⟩ := S.settle_writes up
  refine ⟨parent, (Frontier.mem_of_pop? hpop).1, var, _, _, downFate, upFate, downEvents, upEvents,
    remarks, hvar, selected.trans ((writesDown.trans writesUp).trans settled), ?_, placedDown, ?_,
    placedUp, remarked⟩
  · exact List.append_ne_nil_of_right_ne_nil _ (List.cons_ne_nil _ _)
  · exact List.append_ne_nil_of_right_ne_nil _ (List.cons_ne_nil _ _)

omit [Scalar α] in
/-- The heuristic leaves at most a remark behind. -/
theorem Session.writes_rounding (s : Session α β η ε) (rounding : Option Rounding) :
    ∃ remarks,
      s.Writes (match rounding with | none => s | some how => s.note (.rounded how)) remarks
        ∧ ∀ e ∈ remarks, e.isRemark = true := by
  cases rounding with
  | none => exact ⟨[], .refl s, by simp⟩
  | some how => exact ⟨[.rounded how], s.writes_note _, List.forall_mem_singleton.mpr rfl⟩

/-- What a search writes before its first node: a remark on the heuristic, and the candidate that it
found. -/
theorem Solver.begin_writes {bound : α} {vertex : List α} {session : Session α β η ε}
    {s : State α β η ε} (h : S.begin p bound vertex session = .ok s) :
    ∃ remarks seeded, session.Writes s.session (remarks ++ seeded)
      ∧ (∀ e ∈ remarks, e.isRemark = true)
      ∧ (seeded = [] ∧ s.bracket.lower = -infinity ∧ s.incumbent = .none
        ∨ ∃ x, seeded = [.seeded ⟨x, p.value x⟩]
          ∧ s.bracket.lower = greater (-infinity) (p.value x)
          ∧ s.incumbent = Incumbent.none.offer ⟨x, p.value x⟩) := by
  simp only [Solver.begin] at h
  obtain ⟨remarks, writes, remarked⟩ := Session.writes_rounding
    { session with heuristic := (S.heuristic.find p vertex session.heuristic).state }
    (S.heuristic.find p vertex session.heuristic).rounding
  split at h
  · cases h
  · cases h
    exact ⟨remarks, [], (List.append_nil remarks).symm ▸ writes, remarked, .inl ⟨rfl, rfl, rfl⟩⟩
  · rename_i x _
    cases h
    exact ⟨remarks, [.seeded ⟨x, p.value x⟩], writes.trans (Session.writes_note _ _), remarked,
      .inr ⟨x, rfl, rfl, rfl⟩⟩

/-- A search that cannot begin stops for the fault of its heuristic. -/
theorem Solver.begin_stop {bound : α} {vertex : List α} {session : Session α β η ε}
    {stop : Stop α β η ε} (h : S.begin p bound vertex session = .error stop) :
    ∃ remarks f, session.Writes stop.session remarks ∧ (∀ e ∈ remarks, e.isRemark = true)
      ∧ stop.cause = .fault f := by
  simp only [Solver.begin] at h
  obtain ⟨remarks, writes, remarked⟩ := Session.writes_rounding
    { session with heuristic := (S.heuristic.find p vertex session.heuristic).state }
    (S.heuristic.find p vertex session.heuristic).rounding
  split at h
  · rename_i f _
    cases h
    exact ⟨remarks, f, writes, remarked, rfl⟩
  · cases h
  · cases h

/-! ### Events of a stop -/

theorem Solver.givesUp_of_fate?_eq_none {lower : α} {relaxation : Relaxation α}
    (h : S.fate? p lower relaxation = none) : relaxation.givesUp = true := by
  cases relaxation with
  | optimal v x =>
      simp only [Solver.fate?] at h
      split at h
      · split at h <;> cases h
      · cases h
  | infeasible | unbounded => cases h
  | iterationLimit | numericalError => rfl

/-- A question stops an attempt: the oracle fails, or it gives up, which is an error that depends on
what was asked. -/
inductive Refusal (S : Solver α β η ε) (sub : Subproblem α) (state : β)
    (unusable : Relaxation.Kind → Error ε) : Failure (Error ε) → Prop where
  | error {e : ε} (answer : (S.oracle.ask sub state).answer = .error (.error e)) :
      Refusal S sub state unusable (.error (.oracle e))
  | fault {f : Fault} (answer : (S.oracle.ask sub state).answer = .error (.fault f)) :
      Refusal S sub state unusable (.fault f)
  | unusable {relaxation : Relaxation α}
      (answer : (S.oracle.ask sub state).answer = .ok relaxation)
      (givesUp : relaxation.givesUp = true) :
      Refusal S sub state unusable (.error (unusable relaxation.kind))

omit [Scalar α] in
theorem Solver.ask_refusal {sub : Subproblem α} {s : Session α β η ε} {stop : Stop α β η ε}
    (h : S.ask sub s = .error stop) (unusable : Relaxation.Kind → Error ε) :
    s.Writes stop.session (replyEvents sub (S.oracle.ask sub s.oracle))
      ∧ Refusal S sub s.oracle unusable stop.cause := by
  obtain ⟨hsession, ⟨e, answer, hcause⟩ | ⟨f, answer, hcause⟩⟩ := Solver.ask_stop h
  · rw [hsession, hcause]
    exact ⟨s.writes_afterReply _ _, .error answer⟩
  · rw [hsession, hcause]
    exact ⟨s.writes_afterReply _ _, .fault answer⟩

theorem Solver.place_refusal {node : Node α} {s : State α β η ε} {stop : Stop α β η ε}
    (h : S.place p node s = .error stop) :
    s.session.Writes stop.session (.created node
        :: replyEvents ⟨p, node.changes⟩ (S.oracle.ask ⟨p, node.changes⟩ s.session.oracle))
      ∧ Refusal S ⟨p, node.changes⟩ s.session.oracle (.nodeAnswer node.id) stop.cause := by
  have created := s.session.writes_note (.created node)
  obtain ⟨hsession, hask | ⟨relaxation, answer, hfate, hcause⟩⟩ := Solver.place_stop h
  · obtain ⟨writes, refusal⟩ := Solver.ask_refusal hask (.nodeAnswer node.id)
    exact ⟨created.trans writes, refusal⟩
  · rw [hsession, hcause]
    exact ⟨created.trans (Session.writes_afterReply _ _ _),
      .unusable answer (Solver.givesUp_of_fate?_eq_none hfate)⟩

/-- A node that cannot be expanded was not there, was not split, or has a child that is refused,
perhaps after the other was placed. -/
theorem Solver.expand_stop_writes {s : State α β η ε} {stop : Stop α β η ε}
    (h : S.expand p s = .error stop) :
    (s.frontier.pop? = none ∧ stop.session = s.session)
      ∨ ∃ parent ∈ s.frontier.nodes,
        (s.session.Writes stop.session [.selected parent]
          ∧ ((∃ var f, S.selector parent.vertex S.settings.integrality = some var
              ∧ stop.cause = .fault f)
            ∨ S.selector parent.vertex S.settings.integrality = none
              ∧ stop.cause = .error (.integralVertex parent.id)))
        ∨ ∃ var node state placed, S.selector parent.vertex S.settings.integrality = some var
          ∧ node.changes ≠ []
          ∧ (placed = [] ∨ ∃ sibling fate, sibling.changes ≠ [] ∧ Placing S p sibling fate placed)
          ∧ s.session.Writes stop.session (.selected parent :: (placed ++ .created node
              :: replyEvents ⟨p, node.changes⟩ (S.oracle.ask ⟨p, node.changes⟩ state)))
          ∧ Refusal S ⟨p, node.changes⟩ state (.nodeAnswer node.id) stop.cause := by
  rcases Solver.expand_stop h with hnone | ⟨parent, rest, hpop, hsplit⟩
  · exact .inl hnone
  have selected : s.session.Writes (s.select parent rest).session [.selected parent] :=
    s.session.writes_note _
  have changes (id : ℕ) (change : BoundChange α) : (parent.child id change).changes ≠ [] :=
    List.append_ne_nil_of_right_ne_nil _ (List.cons_ne_nil _ _)
  refine .inr ⟨parent, (Frontier.mem_of_pop? hpop).1, ?_⟩
  rcases hsplit with ⟨hsession, hcause⟩ | ⟨var, value, hvar, -, hdown | ⟨down, hdown, hup⟩⟩
  · exact .inl ⟨hsession ▸ selected, hcause⟩
  · obtain ⟨writes, refusal⟩ := Solver.place_refusal hdown
    exact .inr ⟨var, _, _, [], hvar, changes _ _, .inl rfl, selected.trans writes, refusal⟩
  · obtain ⟨fate, placed, -, -, placing, writesDown, -⟩ := Solver.place_writes hdown
    obtain ⟨writes, refusal⟩ := Solver.place_refusal hup
    exact .inr ⟨var, _, _, placed, hvar, changes _ _, .inr ⟨_, fate, changes _ _, placing⟩,
      selected.trans (writesDown.trans writes), refusal⟩

/-! ### The history -/

/-- Filing a child leaves the policy alone. -/
theorem Solver.policy_place {node : Node α} {s t : State α β η ε} (h : S.place p node s = .ok t) :
    t.frontier.policy = s.frontier.policy := by
  obtain ⟨relaxation, fate, -, -, rfl⟩ := Solver.place_ok h
  cases fate with
  | candidate c =>
      rw [State.file, State.adopt]
      split <;> rfl
  | kept v x => rfl
  | pruned kind => rfl
  | discarded => rfl

/-- A step takes one node and adds its bounds to the history. -/
theorem Solver.history_expand {s t : State α β η ε} (h : S.expand p s = .ok t) :
    t.explored = s.explored + 1
      ∧ t.bracket.history = s.bracket.history ++ [t.bracket.bounds]
      ∧ t.frontier.policy = s.frontier.policy := by
  obtain ⟨parent, rest, var, value, down, up, hpop, -, -, hdown, hup, rfl⟩ := Solver.expand_ok h
  have rest_policy : rest.policy = s.frontier.policy := by
    rw [(Frontier.pop?_eq_some_iff.mp hpop).2]
  have explored : up.explored = s.explored + 1 :=
    (explored_place hup).trans (explored_place hdown)
  have history : up.bracket.history = s.bracket.history :=
    (Solver.history_place hup).trans (Solver.history_place (s := s.select parent rest) hdown)
  have policy : up.frontier.policy = s.frontier.policy :=
    ((Solver.policy_place hup).trans (Solver.policy_place hdown)).trans rest_policy
  exact ⟨explored, congrArg (· ++ [(S.settle up).bracket.bounds]) history, policy⟩

/-- The history ends with the bounds; it has a pair for the start and one for each node that was
taken, and two iterations are counted for a node. -/
structure Recorded (s : State α β η ε) : Prop where
  last : s.bracket.history.getLast? = some s.bracket.bounds
  length : s.bracket.history.length = s.explored + 1
  twice : s.CountsTwice

theorem Solver.explored_begin {bound : α} {vertex : List α} {session : Session α β η ε}
    {s : State α β η ε} (h : S.begin p bound vertex session = .ok s) : s.explored = 0 := by
  simp only [Solver.begin] at h
  split at h
  · cases h
  · cases h
    rfl
  · cases h
    rfl

/-- The search begins with the root open, and without children. -/
theorem Solver.frontier_begin {bound : α} {vertex : List α} {session : Session α β η ε}
    {s : State α β η ε} (h : S.begin p bound vertex session = .ok s) :
    s.frontier = (Frontier.empty S.settings.selection.policy).push
        (Node.root.withRelaxation bound vertex)
      ∧ s.nextId = 1 := by
  simp only [Solver.begin] at h
  split at h
  · cases h
  · cases h
    exact ⟨rfl, rfl⟩
  · cases h
    exact ⟨rfl, rfl⟩

theorem Recorded.begin {bound : α} {vertex : List α} {session : Session α β η ε}
    {s : State α β η ε} (h : S.begin p bound vertex session = .ok s) : Recorded s := by
  simp only [Solver.begin] at h
  split at h
  · cases h
  · cases h
    exact ⟨rfl, rfl, rfl⟩
  · cases h
    exact ⟨rfl, rfl, rfl⟩

/-- **A step records its bounds.** -/
theorem Recorded.expand {s t : State α β η ε} (recorded : Recorded s)
    (h : S.expand p s = .ok t) : Recorded t := by
  obtain ⟨hexplored, hhistory, -⟩ := Solver.history_expand h
  refine ⟨?_, ?_, recorded.twice.expand h⟩
  · rw [hhistory, List.getLast?_concat]
  · rw [hhistory, List.length_append, recorded.length, hexplored, List.length_singleton]

/-- **The history of every state is complete.** -/
theorem Recorded.reaches {s t : State α β η ε} (run : Reaches S p s t) (recorded : Recorded s) :
    Recorded t :=
  run.invariant (fun _ _ hs _ hexpand => hs.expand hexpand) recorded

/-! ### Records -/

/-- Where a record comes from: an integral vertex of the root, the last state of a tree, or neither,
and then there are no points and no bounds in it. -/
theorem Solver.record_cases {session : Session α β η ε} {record : Record α}
    (h : (S.solve p session).result = .ok record) :
    (∃ vertex, record = .atRoot (rootSolution p vertex))
      ∨ (∃ start s reason,
          S.Explores p { session with heuristic := S.heuristic.reset session.heuristic } start s
            ∧ s.bracket.termination? s.frontier.isEmpty = some reason ∧ record = s.report reason
            ∧ s.session.Writes (S.solve p session).session
              [.finished reason s.bracket.iterations s.explored s.pruned])
      ∨ (record.best = none ∧ record.stats.history = [] ∧ record.stats.explored = 0) := by
  obtain ⟨root, between, hask, hroot⟩ := Solver.searchProgram_cases (Solver.solve_ok h)
  rcases hroot with ⟨bound, vertex, rfl, -, rfl, -⟩ | ⟨bound, vertex, rfl, -, htree⟩
    | ⟨-, rfl, -⟩ | ⟨-, hunbounded⟩
  · exact .inl ⟨vertex, rfl⟩
  · obtain ⟨start, s, reason, hbegin, run, hstop, rfl, hend⟩ := Solver.searchTree_ok htree
    refine .inr (.inl
      ⟨start, s, reason, ⟨bound, vertex, between, hask, hbegin, run⟩, hstop, rfl, ?_⟩)
    rw [hend]
    exact s.session.writes_note _
  · exact .inr (.inr ⟨rfl, rfl, rfl⟩)
  · obtain ⟨probe, -, rfl⟩ := Solver.searchUnbounded_ok hunbounded
    refine .inr (.inr ?_)
    rw [afterProbe]
    split
    · exact ⟨rfl, rfl, rfl⟩
    · exact ⟨rfl, rfl, rfl⟩

end IntegerProgramming.Search
