import Mathlib
import IntegerProgramming.Proofs.Search.CallTree

/-!
# Search — what the oracle is asked

A search asks for a whole program, and then for parts of what it asked for before, cut off at a
coordinate of the optimum there.  So what holds of the whole program, and passes from a region to
the parts that its optimum suggests, holds of every question (`Hereditary`).  It need only pass on
at vertices of some kind, if the oracle gives no others; whether it does is read off the events.

Nothing is assumed of the strategies, and a search that fails is no exception.

* `Heirs.expand`, `Heirs.expand_stop`: a step asks for parts of a node.
* `Heirs.reaches`: a run asks for parts of what was asked for.
* `Solver.asks_hereditary`: **every question of a search has what is hereditary**, and is answered
  by the oracle.
-/

namespace IntegerProgramming.Search

variable {α β η ε : Type} [Scalar α]

/-! ### What passes from a region to its parts -/

/-- It holds of the whole program, and of the two parts of a region that is cut at a coordinate of
its optimum, if the vertex is of the right kind. -/
structure Hereditary (oracle : Oracle α β ε) (kind : List α → Prop) (q : Program α)
    (P : Subproblem α → Prop) : Prop where
  whole : P ⟨q, []⟩
  part : ∀ {changes : List (BoundChange α)} {state : β} {bound : α} {vertex : List α} {var : ℕ}
    {v : α}, P ⟨q, changes⟩ →
      (oracle.ask ⟨q, changes⟩ state).answer = .ok (.optimal bound vertex) → kind vertex →
      vertex[var]? = some v →
        P ⟨q, changes ++ [BoundChange.down var v]⟩ ∧ P ⟨q, changes ++ [BoundChange.up var v]⟩

/-- If something was asked, it is of this sort, and the oracle gave the answer. -/
def Event.AskedOf (oracle : Oracle α β ε) (P : Subproblem α → Prop) : Event α ε → Prop
  | .asked sub answer => P sub ∧ ∃ state, (oracle.ask sub state).answer = answer
  | _ => True

/-- If the answer is an optimum, its vertex is of this kind. -/
def Event.Gives (kind : List α → Prop) : Event α ε → Prop
  | .asked _ (.ok (.optimal _ vertex)) => kind vertex
  | _ => True

omit [Scalar α] in
theorem forall_gives_iff {kind : List α → Prop} {events : List (Event α ε)} :
    (∀ e ∈ events, e.Gives kind) ↔ ∀ sub bound vertex,
      .asked sub (.ok (.optimal bound vertex)) ∈ events → kind vertex := by
  refine ⟨fun h sub bound vertex he => h _ he, fun h e he => ?_⟩
  cases e with
  | asked sub answer =>
      cases answer with
      | error cause => trivial
      | ok relaxation =>
          cases relaxation with
          | optimal bound vertex => exact h sub bound vertex he
          | _ => trivial
  | _ => trivial

variable {S : Solver α β η ε} {q : Program α} {P : Subproblem α → Prop} {kind : List α → Prop}
  {s t : State α β η ε}

omit [Scalar α] in
theorem askedOf_of_remarks {remarks : List (Event α ε)} (h : ∀ e ∈ remarks, e.isRemark = true) :
    ∀ e ∈ remarks, e.AskedOf S.oracle P := by
  intro e he
  cases e with
  | asked sub answer => cases h _ he
  | _ => trivial

omit [Scalar α] in
theorem askedOf_replyEvents {sub : Subproblem α} (state : β) (h : P sub) :
    ∀ e ∈ replyEvents sub (S.oracle.ask sub state), e.AskedOf S.oracle P := by
  rw [replyEvents, List.forall_mem_append, List.forall_mem_singleton, List.forall_mem_map]
  exact ⟨fun _ _ => trivial, h, state, rfl⟩

/-- What holds of every state: the oracle gave the vertices of the open nodes, which are of the
right kind, and their regions have what is hereditary. -/
def Heirs (oracle : Oracle α β ε) (kind : List α → Prop) (q : Program α) (P : Subproblem α → Prop)
    (s : State α β η ε) : Prop :=
  ∀ node ∈ s.frontier.nodes, P ⟨q, node.changes⟩ ∧ kind node.vertex
    ∧ ∃ state, (oracle.ask ⟨q, node.changes⟩ state).answer = .ok (.optimal node.bound node.vertex)

/-- The parts of the region of an open node. -/
theorem Heirs.parts (hereditary : Hereditary S.oracle kind q P) (h : Heirs S.oracle kind q P s)
    {parent : Node α} (hparent : parent ∈ s.frontier.nodes) {var : ℕ} {v : α}
    (hv : parent.vertex[var]? = some v) : P ⟨q, parent.changes ++ [BoundChange.down var v]⟩
      ∧ P ⟨q, parent.changes ++ [BoundChange.up var v]⟩ := by
  obtain ⟨hP, hkind, state, answer⟩ := h parent hparent
  exact hereditary.part hP answer hkind hv

/-! ### One step -/

variable (kind) in
/-- A child that is placed is asked for, and is an heir if it stays open. -/
theorem Heirs.place {node : Node α} (h : S.place q node s = .ok t) :
    ∃ events, s.session.Writes t.session events
      ∧ (P ⟨q, node.changes⟩ → ∀ e ∈ events, e.AskedOf S.oracle P)
      ∧ (P ⟨q, node.changes⟩ → Heirs S.oracle kind q P s → (∀ e ∈ events, e.Gives kind) →
        Heirs S.oracle kind q P t) := by
  obtain ⟨relaxation, fate, answer, hfate, rfl⟩ := Solver.place_ok h
  have asked := (s.session.writes_note (.created node)).trans
    (Session.writes_afterReply _ ⟨q, node.changes⟩
      (S.oracle.ask ⟨q, node.changes⟩ s.session.oracle))
  generalize (s.session.note (.created node)).afterReply _ _ = session at asked ⊢
  obtain ⟨remarks, filed, remarked⟩ :=
    State.file_writes { s with nextId := s.nextId + 1, session } node fate
  obtain ⟨-, opened, hopened, -, kept⟩ :=
    State.file_opens { s with nextId := s.nextId + 1, session } node fate
  refine ⟨_, asked.trans filed, fun hP => ?_, fun hP heirs given n hn => ?_⟩
  · rw [List.forall_mem_append, List.forall_mem_append, List.forall_mem_singleton,
      List.forall_mem_cons]
    exact ⟨⟨trivial, askedOf_replyEvents _ hP⟩, trivial, askedOf_of_remarks remarked⟩
  · rw [hopened, List.mem_append] at hn
    rcases hn with hn | hn
    · exact heirs n hn
    · obtain ⟨v, x, rfl, rfl⟩ := kept n hn
      cases Solver.relaxation_of_kept hfate
      refine ⟨hP, ?_, s.session.oracle, answer⟩
      have := given (.asked ⟨q, node.changes⟩ (.ok (.optimal v x))) (by simp [replyEvents, answer])
      exact this

/-- A child that cannot be placed is asked for. -/
theorem askedOf_place_stop {node : Node α} {stop : Stop α β η ε}
    (h : S.place q node s = .error stop) : ∃ events, s.session.Writes stop.session events
      ∧ (P ⟨q, node.changes⟩ → ∀ e ∈ events, e.AskedOf S.oracle P) := by
  obtain ⟨writes, -⟩ := Solver.place_refusal h
  exact ⟨_, writes, fun hP => List.forall_mem_cons.mpr ⟨trivial, askedOf_replyEvents _ hP⟩⟩

/-- **A step asks for parts of a node**, and those that stay open are heirs. -/
theorem Heirs.expand (hereditary : Hereditary S.oracle kind q P) (h : S.expand q s = .ok t) :
    ∃ events, s.session.Writes t.session events ∧ (Heirs S.oracle kind q P s →
      (∀ e ∈ events, e.AskedOf S.oracle P)
        ∧ ((∀ e ∈ events, e.Gives kind) → Heirs S.oracle kind q P t)) := by
  obtain ⟨parent, rest, var, v, down, up, hpop, -, hv, hdown, hup, rfl⟩ := Solver.expand_ok h
  obtain ⟨hparent, hrest⟩ := Frontier.mem_of_pop? hpop
  have selected : s.session.Writes (s.select parent rest).session [.selected parent] :=
    Session.writes_note _ _
  obtain ⟨downEvents, writesDown, askedDown, heirsDown⟩ := Heirs.place kind (P := P) hdown
  obtain ⟨upEvents, writesUp, askedUp, heirsUp⟩ := Heirs.place kind (P := P) hup
  obtain ⟨remarks, settled, remarked⟩ := S.settle_writes up
  refine ⟨_, ((selected.trans writesDown).trans writesUp).trans settled, fun heirs => ?_⟩
  obtain ⟨partDown, partUp⟩ := heirs.parts hereditary hparent hv
  simp only [List.forall_mem_append, List.forall_mem_singleton]
  refine ⟨⟨⟨⟨trivial, askedDown partDown⟩, askedUp partUp⟩, askedOf_of_remarks remarked⟩, ?_⟩
  rintro ⟨⟨⟨-, givenDown⟩, givenUp⟩, -⟩
  have left : Heirs S.oracle kind q P (s.select parent rest) := fun node hnode =>
    heirs node (hrest node hnode)
  exact heirsUp partUp (heirsDown partDown left givenDown) givenUp

/-- A step that stops asks for no more than parts of a node. -/
theorem Heirs.expand_stop (hereditary : Hereditary S.oracle kind q P) {stop : Stop α β η ε}
    (h : S.expand q s = .error stop) :
    ∃ events, s.session.Writes stop.session events
      ∧ (Heirs S.oracle kind q P s → ∀ e ∈ events, e.AskedOf S.oracle P) := by
  rcases Solver.expand_stop h with ⟨-, hsession⟩ | ⟨parent, rest, hpop, hsplit⟩
  · exact ⟨[], hsession ▸ .refl _, fun _ => by simp⟩
  have hparent := (Frontier.mem_of_pop? hpop).1
  have selected : s.session.Writes (s.select parent rest).session [.selected parent] :=
    Session.writes_note _ _
  rcases hsplit with ⟨hsession, -⟩ | ⟨var, v, -, hv, hstop⟩
  · refine ⟨[.selected parent], hsession ▸ selected, fun _ => ?_⟩
    exact List.forall_mem_singleton.mpr trivial
  rcases hstop with hdown | ⟨down, hdown, hup⟩
  · obtain ⟨events, writes, asked⟩ := askedOf_place_stop (P := P) hdown
    refine ⟨_, selected.trans writes, fun heirs => ?_⟩
    exact List.forall_mem_cons.mpr ⟨trivial, asked (heirs.parts hereditary hparent hv).1⟩
  · obtain ⟨downEvents, writesDown, askedDown, -⟩ := Heirs.place kind (P := P) hdown
    obtain ⟨events, writes, asked⟩ := askedOf_place_stop (P := P) hup
    refine ⟨.selected parent :: (downEvents ++ events), selected.trans (writesDown.trans writes),
      fun heirs => ?_⟩
    obtain ⟨partDown, partUp⟩ := heirs.parts hereditary hparent hv
    rw [List.forall_mem_cons, List.forall_mem_append]
    exact ⟨trivial, askedDown partDown, asked partUp⟩

/-! ### A run -/

/-- **A run asks for parts of what was asked for.** -/
theorem Heirs.reaches (hereditary : Hereditary S.oracle kind q P) (run : Reaches S q s t) :
    ∃ events, s.session.Writes t.session events ∧ (Heirs S.oracle kind q P s →
      (∀ e ∈ events, e.Gives kind) →
        (∀ e ∈ events, e.AskedOf S.oracle P) ∧ Heirs S.oracle kind q P t) := by
  induction run with
  | refl s => exact ⟨[], .refl _, fun heirs _ => ⟨by simp, heirs⟩⟩
  | step _ hexpand _ ih =>
      obtain ⟨first, writesFirst, stepped⟩ := Heirs.expand hereditary hexpand
      obtain ⟨later, writesLater, ran⟩ := ih
      refine ⟨_, writesFirst.trans writesLater, fun heirs => ?_⟩
      rw [List.forall_mem_append, List.forall_mem_append]
      rintro ⟨givenFirst, givenLater⟩
      obtain ⟨askedFirst, passed⟩ := stepped heirs
      obtain ⟨askedLater, last⟩ := ran (passed givenFirst) givenLater
      exact ⟨⟨askedFirst, askedLater⟩, last⟩

variable (kind) in
/-- The search begins with the root, which is an heir. -/
theorem Heirs.begin {bound : α} {vertex : List α} {session : Session α β η ε}
    (h : S.begin q bound vertex session = .ok s) :
    ∃ events, session.Writes s.session events ∧ (∀ e ∈ events, e.AskedOf S.oracle P)
      ∧ (P ⟨q, []⟩ → kind vertex →
        (∃ state, (S.oracle.ask ⟨q, []⟩ state).answer = .ok (.optimal bound vertex)) →
          Heirs S.oracle kind q P s) := by
  obtain ⟨remarks, seeded, writes, remarked, hseeded⟩ := Solver.begin_writes h
  obtain ⟨frontier, -⟩ := Solver.frontier_begin h
  refine ⟨_, writes, ?_, fun hP hkind answered node hnode => ?_⟩
  · rw [List.forall_mem_append]
    refine ⟨askedOf_of_remarks remarked, ?_⟩
    rcases hseeded with ⟨rfl, -⟩ | ⟨x, rfl, -⟩
    · simp
    · exact List.forall_mem_singleton.mpr trivial
  · rw [frontier] at hnode
    cases List.mem_singleton.mp hnode
    exact ⟨hP, hkind, answered⟩

/-! ### A whole search -/

/-- If all vertices are of the right kind, every question is of this sort, and is answered by the
oracle. -/
def Conforms (oracle : Oracle α β ε) (kind : List α → Prop) (P : Subproblem α → Prop)
    (events : List (Event α ε)) : Prop :=
  (∀ e ∈ events, e.Gives kind) → ∀ e ∈ events, e.AskedOf oracle P

/-- An attempt that started in a session wrote events that conform. -/
def Inherits (oracle : Oracle α β ε) (kind : List α → Prop) (P : Subproblem α → Prop)
    (session : Session α β η ε) (a : Attempt α β η ε (Record α × Session α β η ε)) : Prop :=
  ∃ events, session.Writes (Outcome.ofAttempt a).session events ∧ Conforms oracle kind P events

variable {session between : Session α β η ε} {a : Attempt α β η ε (Record α × Session α β η ε)}
  {events : List (Event α ε)}

omit [Scalar α] in
/-- Questions of the right sort may come first. -/
theorem Inherits.prepend (writes : session.Writes between events)
    (asked : ∀ e ∈ events, e.AskedOf S.oracle P) (h : Inherits S.oracle kind P between a) :
    Inherits S.oracle kind P session a := by
  obtain ⟨later, writesLater, conforms⟩ := h
  refine ⟨_, writes.trans writesLater, fun given => ?_⟩
  rw [List.forall_mem_append] at given ⊢
  exact ⟨asked, conforms given.2⟩

/-- The search below the root. -/
theorem Solver.searchTree_inherits (hereditary : Hereditary S.oracle kind q P) {bound : α}
    {vertex : List α}
    (answered : ∃ state, (S.oracle.ask ⟨q, []⟩ state).answer = .ok (.optimal bound vertex)) :
    ∃ events,
      session.Writes (Outcome.ofAttempt (S.searchTree q bound vertex session)).session events
      ∧ (kind vertex → Conforms S.oracle kind P events) := by
  -- the beginning and a run from there
  have began {start s : State α β η ε} (hbegin : S.begin q bound vertex session = .ok start)
      (run : Reaches S q start s) : ∃ events, session.Writes s.session events
        ∧ (kind vertex → (∀ e ∈ events, e.Gives kind) →
          (∀ e ∈ events, e.AskedOf S.oracle P) ∧ Heirs S.oracle kind q P s) := by
    obtain ⟨first, begins, asked, heirs⟩ := Heirs.begin kind (P := P) hbegin
    obtain ⟨later, writes, ran⟩ := Heirs.reaches hereditary run
    refine ⟨_, begins.trans writes, fun hkind given => ?_⟩
    rw [List.forall_mem_append] at given ⊢
    obtain ⟨askedLater, last⟩ := ran (heirs hereditary.whole hkind answered) given.2
    exact ⟨⟨asked, askedLater⟩, last⟩
  cases htree : S.searchTree q bound vertex session with
  | ok pair =>
      obtain ⟨record, session'⟩ := pair
      obtain ⟨start, s, reason, hbegin, run, -, -, rfl⟩ := Solver.searchTree_ok htree
      obtain ⟨events, writes, conforms⟩ := began hbegin run
      refine ⟨_, writes.trans (Session.writes_note _ _), fun hkind given => ?_⟩
      rw [List.forall_mem_append, List.forall_mem_singleton] at given ⊢
      exact ⟨(conforms hkind given.1).1, trivial⟩
  | error stop =>
      rcases Solver.searchTree_stop htree with hbegin | ⟨start, s, hbegin, run, -, hexpand⟩
      · obtain ⟨remarks, f, writes, remarked, -⟩ := Solver.begin_stop hbegin
        exact ⟨remarks, writes, fun _ _ => askedOf_of_remarks remarked⟩
      · obtain ⟨events, writes, conforms⟩ := began hbegin run
        obtain ⟨later, writesLater, asked⟩ := Heirs.expand_stop hereditary hexpand
        refine ⟨_, writes.trans writesLater, fun hkind given => ?_⟩
        rw [List.forall_mem_append] at given ⊢
        obtain ⟨askedFirst, heirs⟩ := conforms hkind given.1
        exact ⟨askedFirst, asked heirs⟩

/-- The search of a program, given what to do if its relaxation is unbounded. -/
theorem Solver.searchProgram_inherits (hereditary : Hereditary S.oracle kind q P)
    {ifUnbounded : Session α β η ε → Attempt α β η ε (Record α × Session α β η ε)}
    (unbounded : ∀ between, Inherits S.oracle kind P between (ifUnbounded between)) :
    Inherits S.oracle kind P session (S.searchProgram q ifUnbounded session) := by
  have asked := session.writes_afterReply ⟨q, []⟩ (S.oracle.ask ⟨q, []⟩ session.oracle)
  have askedOf := askedOf_replyEvents (S := S) session.oracle hereditary.whole
  rw [Solver.searchProgram]
  cases hask : S.ask ⟨q, []⟩ session with
  | error stop =>
      obtain ⟨writes, -⟩ := Solver.ask_refusal hask .rootAnswer
      exact ⟨_, writes, fun _ => askedOf⟩
  | ok pair =>
      obtain ⟨root, between⟩ := pair
      obtain ⟨answer, rfl⟩ := Solver.ask_ok hask
      have noted (e : Event α ε) (he : e.isRemark = true) {record : Record α} :
          Inherits S.oracle kind P session (.ok (record, Session.note _ e)) :=
        Inherits.prepend asked askedOf ⟨_, Session.writes_note _ e, fun _ =>
          askedOf_of_remarks (List.forall_mem_singleton.mpr he)⟩
      cases root with
      | optimal bound vertex =>
          simp only
          split
          · exact noted _ rfl
          · obtain ⟨later, writes, conforms⟩ := Solver.searchTree_inherits hereditary ⟨_, answer⟩
            refine ⟨_, asked.trans writes, fun given => ?_⟩
            rw [List.forall_mem_append] at given ⊢
            have hkind := given.1 (.asked ⟨q, []⟩ (.ok (.optimal bound vertex)))
              (by simp [replyEvents, answer])
            exact ⟨askedOf, conforms hkind given.2⟩
      | infeasible => exact noted _ rfl
      | unbounded => exact Inherits.prepend asked askedOf (unbounded _)
      | iterationLimit | numericalError => exact ⟨_, asked, fun _ => askedOf⟩

/-- **Every question of a search has what is hereditary.**  Whatever the strategies do and however
the search ends, if all vertices that it is given are of the right kind, it asks for nothing but
regions of this sort, of the program or of its probe, and has its answers from the oracle. -/
theorem Solver.asks_hereditary (S : Solver α β η ε) {p : Program α}
    (program : Hereditary S.oracle kind p P)
    (probe : Hereditary S.oracle kind p.withZeroObjective P) (session : Session α β η ε) :
    ∃ events, session.Writes (S.solve p session).session events
      ∧ Conforms S.oracle kind P events := by
  have inherits : Inherits S.oracle kind P { session with
      heuristic := S.heuristic.reset session.heuristic }
      (S.searchProgram p (S.searchUnbounded p)
        { session with heuristic := S.heuristic.reset session.heuristic }) := by
    refine Solver.searchProgram_inherits program fun between => ?_
    have noted : ∀ e ∈ [Event.rootUnbounded (α := α) (ε := ε)], e.AskedOf S.oracle P :=
      List.forall_mem_singleton.mpr trivial
    have probed : Inherits S.oracle kind P between (S.probe p (between.note .rootUnbounded)) := by
      refine Inherits.prepend (between.writes_note _) noted ?_
      exact Solver.searchProgram_inherits probe fun between =>
        ⟨[], .refl _, fun _ => by simp⟩
    rw [Solver.searchUnbounded]
    cases hprobe : S.probe p (between.note .rootUnbounded) with
    | error stop =>
        rw [hprobe] at probed
        exact probed
    | ok pair =>
        rw [hprobe] at probed
        exact probed
  exact inherits

end IntegerProgramming.Search
