import Mathlib
import IntegerProgramming.Proofs.Search.Exits

/-!
# Search — which errors there are

A search that fails has met one event that it cannot go on from, and that event is the last one
(`Fatal`): the oracle failed, it gave up on a relaxation, it found a constant objective unbounded,
or the selector named no coordinate of a node that was taken.

* `Fatal.unique`: an event is fatal for one error only.
* `Ends.prepend`: what ends a run ends it also after events that are not fatal (`Calm`).
* `NodeSelection.policy_lt`: **the policies always name an open node**, so the search does not fail
  for want of one.
* `Solver.failsOnly`: **a search fails exactly for these reasons, at once**; with the first
  fractional coordinate and finite vertices, the selector is never one of them.
-/

namespace IntegerProgramming

/-! ### Policies -/

section Policies

variable {α : Type} [Arith α]

theorem greatestNode_lt {nodes : List (Node α)} (h : nodes ≠ []) :
    greatestNode nodes < nodes.length := by
  cases nodes with
  | nil => exact absurd rfl h
  | cons first rest =>
      rw [greatestNode]
      refine List.foldlRecOn (motive := fun best : ℕ × α => best.1 < (first :: rest).length)
        (rest.zipIdx 1) _ (Nat.succ_pos _) fun best hbest entry hentry => ?_
      have index := (List.mem_zipIdx hentry).2.1
      rw [betterNode]
      split
      · simp only [List.length_cons]
        omega
      · exact hbest

/-- **The policies always name an open node.** -/
theorem NodeSelection.policy_lt (selection : NodeSelection) {nodes : List (Node α)}
    (h : nodes ≠ []) : selection.policy nodes < nodes.length := by
  have positive := List.length_pos_iff.mpr h
  cases selection with
  | bestFirst => exact greatestNode_lt h
  | depthFirst => exact Nat.sub_lt positive Nat.one_pos
  | breadthFirst => exact positive

theorem Frontier.pop?_ne_none {f : Frontier α} {selection : NodeSelection}
    (policy : f.policy = selection.policy) (h : f.isEmpty = false) : f.pop? ≠ none := by
  have nonempty : f.nodes ≠ [] := by simpa [Frontier.isEmpty] using h
  have found := List.getElem?_eq_getElem (policy ▸ selection.policy_lt nonempty)
  exact Option.ne_none_iff_exists'.mpr ⟨_, pop?_eq_some_iff.mpr ⟨found, rfl⟩⟩

end Policies

/-- The error to report, if it is not a fault. -/
def Failure.error? {ε : Type} : Failure ε → Option ε
  | .error e => some e
  | .fault _ => none

end IntegerProgramming

namespace IntegerProgramming.Search

open ExtRat (num)

variable {α β η ε : Type}

/-! ### Fatal events -/

/-- The child that an event creates. -/
def Event.created? : Event α ε → Option (Node α)
  | .created node => some node
  | _ => none

variable [Scalar α]

/-- After these events, the event ends the search with the error. -/
inductive Fatal (S : Solver α β η ε) (p : Program α) (before : List (Event α ε)) :
    Event α ε → Error ε → Prop where
  /-- The oracle fails. -/
  | oracle {sub : Subproblem α} {e : ε} :
      Fatal S p before (.asked sub (.error (.error e))) (.oracle e)
  /-- The oracle gives up at a root. -/
  | root {sub : Subproblem α} {relaxation : Relaxation α} (whole : sub.changes = [])
      (givesUp : relaxation.givesUp = true) :
      Fatal S p before (.asked sub (.ok relaxation)) (.rootAnswer relaxation.kind)
  /-- The oracle gives up on the child that was created last. -/
  | child {sub : Subproblem α} {relaxation : Relaxation α} {node : Node α}
      (created : (before.filterMap Event.created?).getLast? = some node)
      (changes : sub.changes = node.changes) (part : sub.changes ≠ [])
      (givesUp : relaxation.givesUp = true) :
      Fatal S p before (.asked sub (.ok relaxation)) (.nodeAnswer node.id relaxation.kind)
  /-- The program is unbounded, and so is its probe. -/
  | probe {sub : Subproblem α} (earlier : .asked ⟨p, []⟩ (.ok .unbounded) ∈ before)
      (again : sub = ⟨p.withZeroObjective, []⟩) :
      Fatal S p before (.asked sub (.ok .unbounded)) .unboundedProbe
  /-- The selector names no coordinate of a node that is taken. -/
  | vertex {node : Node α} (none : S.selector node.vertex S.settings.integrality = none) :
      Fatal S p before (.selected node) (.integralVertex node.id)

variable {S : Solver α β η ε} {p : Program α} {past before events later : List (Event α ε)}

/-- An event is fatal for one error only. -/
theorem Fatal.unique {e : Event α ε} {err err' : Error ε} (h : Fatal S p before e err)
    (h' : Fatal S p before e err') : err = err' := by
  cases h with
  | oracle =>
      cases h'
      rfl
  | root whole givesUp =>
      cases h' with
      | root => rfl
      | child _ _ part => exact absurd whole part
      | probe => cases givesUp
  | child created changes part givesUp =>
      cases h' with
      | root whole => exact absurd whole part
      | child created' =>
          cases Option.some.inj (created.symm.trans created')
          rfl
      | probe => cases givesUp
  | probe earlier again =>
      cases h' with
      | root _ givesUp => cases givesUp
      | child _ _ _ givesUp => cases givesUp
      | probe => rfl
  | vertex =>
      cases h'
      rfl

/-- None of the events is fatal, after the past and those before it. -/
def Calm (S : Solver α β η ε) (p : Program α) (past events : List (Event α ε)) : Prop :=
  ∀ before e after err, events = before ++ e :: after → ¬ Fatal S p (past ++ before) e err

/-- An event that is never fatal. -/
def Event.Harmless (S : Solver α β η ε) (p : Program α) (e : Event α ε) : Prop :=
  ∀ before err, ¬ Fatal S p before e err

theorem calm_of_harmless (h : ∀ e ∈ events, e.Harmless S p) : Calm S p past events := by
  rintro before e after err rfl
  exact h e (List.mem_append_right _ (List.mem_cons_self ..)) _ err

theorem Calm.append (first : Calm S p past events) (second : Calm S p (past ++ events) later) :
    Calm S p past (events ++ later) := by
  intro before e after err h fatal
  rcases List.append_eq_append_iff.mp h with ⟨between, rfl, hlater⟩ | ⟨between, rfl, hafter⟩
  · exact second between e after err hlater (by rwa [List.append_assoc])
  · cases between with
    | nil =>
        rw [List.append_nil] at second
        exact second [] e after err hafter.symm (by rwa [List.append_nil])
    | cons e' between =>
        obtain ⟨rfl, -⟩ := List.cons.inj hafter
        exact first before e between err rfl fatal

/-- How events end: none of them is fatal, or the last one is. -/
inductive Ends (S : Solver α β η ε) (p : Program α) (past : List (Event α ε)) :
    List (Event α ε) → Option (Error ε) → Prop where
  | calm {events : List (Event α ε)} (h : Calm S p past events) : Ends S p past events none
  | fatal {before : List (Event α ε)} {e : Event α ε} {err : Error ε} (h : Calm S p past before)
      (fatal : Fatal S p (past ++ before) e err) : Ends S p past (before ++ [e]) (some err)

/-- What ends a run ends it also after calm events. -/
theorem Ends.prepend {err? : Option (Error ε)} (first : Calm S p past events)
    (second : Ends S p (past ++ events) later err?) : Ends S p past (events ++ later) err? := by
  cases second with
  | calm h => exact .calm (first.append h)
  | fatal h fatal =>
      rw [← List.append_assoc]
      exact .fatal (first.append h) (by rwa [← List.append_assoc])

/-- A run ends with an error exactly if its last event is fatal for it. -/
theorem Ends.eq_some_iff {err? : Option (Error ε)} (h : Ends S p past events err?) (err : Error ε) :
    err? = some err ↔ ∃ before e, events = before ++ [e] ∧ Fatal S p (past ++ before) e err := by
  cases h with
  | calm h =>
      refine ⟨fun h => (nomatch h), ?_⟩
      rintro ⟨before, e, rfl, fatal⟩
      exact absurd fatal (h before e [] err rfl)
  | @fatal before e err' h fatal =>
      refine ⟨fun h => ⟨before, e, rfl, Option.some.inj h ▸ fatal⟩, ?_⟩
      rintro ⟨before', e', heq, fatal'⟩
      obtain ⟨rfl, he⟩ := List.append_inj' heq rfl
      cases he
      exact congrArg some (fatal.unique fatal')

/-- Nothing follows a fatal event. -/
theorem Ends.last {err? : Option (Error ε)} (h : Ends S p past events err?) {e : Event α ε}
    {after : List (Event α ε)} {err : Error ε} (heq : events = before ++ e :: after)
    (fatal : Fatal S p (past ++ before) e err) : after = [] := by
  cases h with
  | calm h => exact absurd fatal (h before e after err heq)
  | @fatal before' e' err' h fatal' =>
      rcases List.eq_nil_or_concat after with rfl | ⟨after, e'', rfl⟩
      · rfl
      · rw [List.concat_eq_append, ← List.cons_append, ← List.append_assoc] at heq
        obtain ⟨rfl, -⟩ := List.append_inj' heq rfl
        exact absurd fatal (h before e after err rfl)

/-! ### Harmless events -/

/-- A remark, a creation or a filing is never fatal. -/
theorem harmless_remark {e : Event α ε} (h : e.isRemark = true) : e.Harmless S p := by
  rintro before err ⟨⟩ <;> cases h

theorem harmless_created (node : Node α) : (Event.created node : Event α ε).Harmless S p := by
  rintro before err ⟨⟩

theorem harmless_filed (node : Node α) (fate : Fate α) :
    (Event.filed node fate : Event α ε).Harmless S p := by
  rintro before err ⟨⟩

theorem harmless_seeded (c : Solution α) : (Event.seeded c : Event α ε).Harmless S p := by
  rintro before err ⟨⟩

/-- A node that the selector can split is taken without harm. -/
theorem harmless_selected {node : Node α} {var : ℕ}
    (h : S.selector node.vertex S.settings.integrality = some var) :
    (Event.selected node : Event α ε).Harmless S p := by
  intro before err fatal
  cases fatal with
  | vertex none => cases none.symm.trans h

/-- A useful answer does no harm, if it is not that a root is unbounded. -/
theorem harmless_answer {sub : Subproblem α} {relaxation : Relaxation α}
    (useful : relaxation.givesUp = false) (bounded : relaxation = .unbounded → sub.changes ≠ []) :
    (Event.asked sub (.ok relaxation) : Event α ε).Harmless S p := by
  intro before err fatal
  cases fatal with
  | root _ givesUp => exact absurd givesUp (by simp [useful])
  | child _ _ _ givesUp => exact absurd givesUp (by simp [useful])
  | probe _ again => exact bounded rfl (congrArg Subproblem.changes again)

/-- A fault of the oracle is no error. -/
theorem harmless_fault (sub : Subproblem α) (f : Fault) :
    (Event.asked sub (.error (.fault f)) : Event α ε).Harmless S p := by
  rintro before err ⟨⟩

/-- If a node is taken, the oracle gave its vertex, which does not count as integral. -/
def Event.TakesFractional (S : Solver α β η ε) : Event α ε → Prop
  | .selected node =>
    S.oracle.Gives node.vertex ∧ isIntegral node.vertex S.settings.integrality = false
  | _ => True

/-- What is said of every event that the search goes on from. -/
structure Event.Plain (S : Solver α β η ε) (p : Program α) (e : Event α ε) : Prop where
  harmless : e.Harmless S p
  fractional : e.TakesFractional S

theorem plain_of_remarks (h : ∀ e ∈ events, e.isRemark = true) : ∀ e ∈ events, e.Plain S p := by
  intro e he
  refine ⟨harmless_remark (h e he), ?_⟩
  have := h e he
  cases e <;> trivial

theorem plain_solved (results : List (LinearProgram.Result α)) :
    ∀ e ∈ results.map (Event.solved (ε := ε)), e.Plain S p := by
  refine plain_of_remarks fun e he => ?_
  obtain ⟨result, -, rfl⟩ := List.mem_map.mp he
  rfl

theorem fractional_replyEvents (sub : Subproblem α) (reply : Reply α β ε) :
    ∀ e ∈ replyEvents sub reply, e.TakesFractional S := by
  rw [replyEvents, List.forall_mem_append, List.forall_mem_singleton]
  refine ⟨fun e he => ?_, trivial⟩
  obtain ⟨result, -, rfl⟩ := List.mem_map.mp he
  trivial

theorem plain_replyEvents {sub : Subproblem α} {reply : Reply α β ε}
    (h : (Event.asked sub reply.answer).Harmless S p) :
    ∀ e ∈ replyEvents sub reply, e.Plain S p := by
  rw [replyEvents, List.forall_mem_append, List.forall_mem_singleton]
  exact ⟨plain_solved _, h, trivial⟩

variable {q : Program α}

/-- A child that is placed leaves no fatal event behind, whatever program it is for. -/
theorem Placing.plain {node : Node α} {fate : Fate α} (h : Placing S q node fate events)
    (part : node.changes ≠ []) : ∀ e ∈ events, e.Plain S p := by
  obtain ⟨answer, hfate, remarked⟩ := h
  rename_i relaxation _
  have useful : relaxation.givesUp = false := by
    cases relaxation <;> first | rfl | cases hfate
  refine List.forall_mem_cons.mpr ⟨⟨harmless_created node, trivial⟩, ?_⟩
  rw [List.forall_mem_append]
  refine ⟨plain_replyEvents ?_, ?_⟩
  · rw [answer]
    exact harmless_answer useful fun _ => part
  · exact List.forall_mem_cons.mpr ⟨⟨harmless_filed node fate, trivial⟩, plain_of_remarks remarked⟩

/-! ### Open nodes -/

/-- What holds of the frontier of every state: its policy is one of the search, and its nodes have
vertices that the oracle gave and that do not count as integral. -/
structure Open (S : Solver α β η ε) (s : State α β η ε) : Prop where
  policy : s.frontier.policy = S.settings.selection.policy
  nodes : ∀ node ∈ s.frontier.nodes,
    S.oracle.Gives node.vertex ∧ isIntegral node.vertex S.settings.integrality = false

variable {s t : State α β η ε}

theorem Open.begin {bound : α} {vertex : List α} {session : Session α β η ε}
    (gives : S.oracle.Gives vertex)
    (fractional : isIntegral vertex S.settings.integrality = false)
    (h : S.begin q bound vertex session = .ok s) : Open S s := by
  obtain ⟨frontier, -⟩ := Solver.frontier_begin h
  refine ⟨by rw [frontier]; rfl, fun node hnode => ?_⟩
  rw [frontier] at hnode
  cases List.mem_singleton.mp hnode
  exact ⟨gives, fractional⟩

theorem Open.place {node : Node α} (h : Open S s) (ht : S.place q node s = .ok t) : Open S t := by
  refine ⟨(Solver.policy_place ht).trans h.policy, ?_⟩
  obtain ⟨relaxation, fate, answer, hfate, rfl⟩ := Solver.place_ok ht
  rcases Solver.fate?_cases hfate with ⟨v, x, -, -, -, rfl⟩ | ⟨v, x, rfl, -, fractional, rfl⟩
    | ⟨v, x, -, -, rfl⟩ | ⟨-, rfl⟩ | ⟨-, rfl⟩
  · rw [State.file, State.adopt]
    split
    · exact h.nodes
    · exact h.nodes
  · intro n hn
    rcases List.mem_append.mp hn with hn | hn
    · exact h.nodes n hn
    · cases List.mem_singleton.mp hn
      exact ⟨⟨_, _, v, answer⟩, fractional⟩
  all_goals exact h.nodes

theorem Open.expand (h : Open S s) (ht : S.expand q s = .ok t) : Open S t := by
  obtain ⟨parent, rest, var, value, down, up, hpop, -, -, hdown, hup, rfl⟩ := Solver.expand_ok ht
  obtain ⟨-, hrest⟩ := Frontier.mem_of_pop? hpop
  have selected : Open S (s.select parent rest) := by
    refine ⟨?_, fun node hnode => h.nodes node (hrest node hnode)⟩
    exact (congrArg Frontier.policy (Frontier.pop?_eq_some_iff.mp hpop).2).trans h.policy
  have placed := (selected.place hdown).place hup
  exact ⟨placed.policy, placed.nodes⟩

/-- A step leaves no fatal event behind. -/
theorem Open.expand_plain (h : Open S s) (ht : S.expand q s = .ok t) :
    ∃ events, s.session.Writes t.session events ∧ ∀ e ∈ events, e.Plain S p := by
  obtain ⟨parent, hparent, var, down, up, _, _, downEvents, upEvents, remarks, hvar, writes,
    partDown, placedDown, partUp, placedUp, remarked⟩ := Solver.expand_writes ht
  refine ⟨_, writes,
    List.forall_mem_cons.mpr ⟨⟨harmless_selected hvar, h.nodes parent hparent⟩, ?_⟩⟩
  rw [List.forall_mem_append, List.forall_mem_append]
  exact ⟨⟨placedDown.plain partDown, placedUp.plain partUp⟩, plain_of_remarks remarked⟩

/-- **A run leaves no fatal event behind.** -/
theorem Open.reaches (run : Reaches S q s t) (h : Open S s) :
    Open S t ∧ ∃ events, s.session.Writes t.session events ∧ ∀ e ∈ events, e.Plain S p := by
  refine run.invariant (P := fun t => Open S t
    ∧ ∃ events, s.session.Writes t.session events ∧ ∀ e ∈ events, e.Plain S p) ?_
    ⟨h, [], .refl s.session, by simp⟩
  rintro t u ⟨ht, events, writes, plain⟩ - hexpand
  obtain ⟨later, writesLater, plainLater⟩ := ht.expand_plain hexpand
  exact ⟨ht.expand hexpand, _, writes.trans writesLater,
    List.forall_mem_append.mpr ⟨plain, plainLater⟩⟩

/-- A search begins with plain events. -/
theorem Solver.begin_plain {bound : α} {vertex : List α} {session : Session α β η ε}
    (h : S.begin q bound vertex session = .ok s) :
    ∃ events, session.Writes s.session events ∧ ∀ e ∈ events, e.Plain S p := by
  obtain ⟨remarks, seeded, writes, remarked, hseeded⟩ := Solver.begin_writes h
  refine ⟨_, writes, List.forall_mem_append.mpr ⟨plain_of_remarks remarked, ?_⟩⟩
  rcases hseeded with ⟨rfl, -⟩ | ⟨x, rfl, -⟩
  · simp
  · exact List.forall_mem_singleton.mpr ⟨harmless_seeded _, trivial⟩

/-! ### Accounts -/

/-- Events that end as told, and in which every node that is taken has a fractional vertex. -/
structure Tells (S : Solver α β η ε) (p : Program α) (past events : List (Event α ε))
    (err? : Option (Error ε)) : Prop where
  ends : Ends S p past events err?
  fractional : ∀ e ∈ events, e.TakesFractional S

variable {err? : Option (Error ε)}

theorem tells_of_plain (plain : ∀ e ∈ events, e.Plain S p) : Tells S p past events none :=
  ⟨.calm (calm_of_harmless fun e he => (plain e he).harmless), fun e he => (plain e he).fractional⟩

/-- Calm events may come first. -/
theorem Tells.prepend (calm : Calm S p past events) (fractional : ∀ e ∈ events, e.TakesFractional S)
    (h : Tells S p (past ++ events) later err?) : Tells S p past (events ++ later) err? :=
  ⟨h.ends.prepend calm, List.forall_mem_append.mpr ⟨fractional, h.fractional⟩⟩

theorem Tells.prepend_plain (plain : ∀ e ∈ events, e.Plain S p)
    (h : Tells S p (past ++ events) later err?) : Tells S p past (events ++ later) err? :=
  h.prepend (calm_of_harmless fun e he => (plain e he).harmless) fun e he => (plain e he).fractional

/-- A question that stops the search is the last event, and fatal if it stops it with an error. -/
theorem Refusal.tells {sub : Subproblem α} {state : β} {unusable : Relaxation.Kind → Error ε}
    {cause : Failure (Error ε)} (h : Refusal S sub state unusable cause)
    (fatal : ∀ (results : List (LinearProgram.Result α)) relaxation, relaxation.givesUp = true →
      Fatal S p (past ++ results.map .solved) (.asked sub (.ok relaxation))
        (unusable relaxation.kind)) :
    Tells S p past (replyEvents sub (S.oracle.ask sub state)) cause.error? := by
  have solved := plain_solved (S := S) (p := p) (S.oracle.ask sub state).solved
  refine Tells.prepend_plain solved ⟨?_, by simp [Event.TakesFractional]⟩
  have nothing : Calm S p (past ++ (S.oracle.ask sub state).solved.map .solved) [] :=
    calm_of_harmless (by simp)
  cases h with
  | error answer =>
      rw [answer]
      exact .fatal nothing .oracle
  | fault answer =>
      rw [answer]
      exact .calm (calm_of_harmless (List.forall_mem_singleton.mpr (harmless_fault sub _)))
  | unusable answer givesUp =>
      rw [answer]
      exact .fatal nothing (by rw [List.append_nil]; exact fatal _ _ givesUp)

omit [Scalar α] in
/-- Solved programs do not change which child was created last. -/
theorem getLast?_created (before : List (Event α ε)) (node : Node α)
    (results : List (LinearProgram.Result α)) :
    ((before ++ Event.created node :: results.map Event.solved).filterMap Event.created?).getLast?
      = some node := by
  have none : (results.map Event.solved).filterMap (Event.created? (α := α) (ε := ε)) = [] := by
    simp [Event.created?]
  rw [List.filterMap_append, List.filterMap_cons, none]
  exact List.getLast?_concat

/-- A node at which the search stops. -/
theorem Open.expand_stop_tells (h : Open S s)
    (hnone : s.bracket.termination? s.frontier.isEmpty = none) {stop : Stop α β η ε}
    (hexpand : S.expand q s = .error stop) :
    ∃ events, s.session.Writes stop.session events ∧ Tells S p past events stop.cause.error? := by
  rcases Solver.expand_stop_writes hexpand with ⟨empty, -⟩ | ⟨parent, hparent, ⟨writes, hstop⟩
    | ⟨var, node, state, placed, hvar, part, hplaced, writes, refusal⟩⟩
  · exact absurd empty (Frontier.pop?_ne_none h.policy (Bracket.termination?_eq_none hnone).2)
  · have taken : ∀ e ∈ [Event.selected (ε := ε) parent], e.TakesFractional S :=
      List.forall_mem_singleton.mpr (h.nodes parent hparent)
    refine ⟨_, writes, ?_, taken⟩
    rcases hstop with ⟨var, f, hvar, hcause⟩ | ⟨unnamed, hcause⟩
    · rw [hcause]
      exact .calm (calm_of_harmless (List.forall_mem_singleton.mpr (harmless_selected hvar)))
    · rw [hcause]
      rw [← List.nil_append [_]]
      exact .fatal (calm_of_harmless (by simp)) (.vertex unnamed)
  · have plainPlaced : ∀ e ∈ placed, e.Plain S p := by
      rcases hplaced with rfl | ⟨sibling, fate, part', placing⟩
      · simp
      · exact placing.plain part'
    have plain : ∀ e ∈ Event.selected parent :: (placed ++ [.created node]), e.Plain S p := by
      refine List.forall_mem_cons.mpr ⟨⟨harmless_selected hvar, h.nodes parent hparent⟩, ?_⟩
      rw [List.forall_mem_append, List.forall_mem_singleton]
      exact ⟨plainPlaced, harmless_created node, trivial⟩
    refine ⟨_, writes, ?_⟩
    rw [List.append_cons, ← List.cons_append]
    refine Tells.prepend_plain plain (refusal.tells fun results relaxation givesUp => ?_)
    refine .child ?_ rfl part givesUp
    simpa using getLast?_created (past ++ .selected parent :: placed) node results

/-! ### A whole search -/

/-- The error that a search ends with, if it ends with one. -/
def Outcome.error? (o : Outcome α β η ε) : Option (Error ε) :=
  match o.result with
  | .ok _ => none
  | .error cause => cause.error?

/-- An attempt that started in a session wrote events that tell how it ended. -/
def Accounts (S : Solver α β η ε) (p : Program α) (past : List (Event α ε))
    (session : Session α β η ε) (a : Attempt α β η ε (Record α × Session α β η ε)) : Prop :=
  ∃ events, session.Writes (Outcome.ofAttempt a).session events
    ∧ Tells S p past events (Outcome.ofAttempt a).error?

variable {session between : Session α β η ε}
  {a : Attempt α β η ε (Record α × Session α β η ε)}

theorem Accounts.prepend (writes : session.Writes between events) (calm : Calm S p past events)
    (fractional : ∀ e ∈ events, e.TakesFractional S)
    (h : Accounts S p (past ++ events) between a) : Accounts S p past session a := by
  obtain ⟨later, writesLater, tells⟩ := h
  exact ⟨_, writes.trans writesLater, tells.prepend calm fractional⟩

theorem Accounts.prepend_plain (writes : session.Writes between events)
    (plain : ∀ e ∈ events, e.Plain S p) (h : Accounts S p (past ++ events) between a) :
    Accounts S p past session a :=
  h.prepend writes (calm_of_harmless fun e he => (plain e he).harmless)
    fun e he => (plain e he).fractional

/-- A record comes after plain events. -/
theorem accounts_ok {record : Record α} (writes : session.Writes between events)
    (plain : ∀ e ∈ events, e.Plain S p) :
    Accounts S p past session (.ok (record, between)) :=
  ⟨events, writes, tells_of_plain plain⟩

/-- The search below a fractional root. -/
theorem Solver.searchTree_accounts {bound : α} {vertex : List α} (gives : S.oracle.Gives vertex)
    (fractional : isIntegral vertex S.settings.integrality = false) :
    Accounts S p past session (S.searchTree q bound vertex session) := by
  cases htree : S.searchTree q bound vertex session with
  | ok pair =>
      obtain ⟨record, session'⟩ := pair
      obtain ⟨start, s, reason, hbegin, run, -, -, rfl⟩ := Solver.searchTree_ok htree
      obtain ⟨first, begins, plainFirst⟩ := Solver.begin_plain (p := p) hbegin
      obtain ⟨-, events, writes, plain⟩ := (Open.begin gives fractional hbegin).reaches (p := p) run
      have finished := s.session.writes_note
        (.finished reason s.bracket.iterations s.explored s.pruned)
      refine accounts_ok ((begins.trans writes).trans finished) ?_
      rw [List.forall_mem_append, List.forall_mem_append]
      exact ⟨⟨plainFirst, plain⟩, plain_of_remarks (List.forall_mem_singleton.mpr rfl)⟩
  | error stop =>
      rcases Solver.searchTree_stop htree with hbegin | ⟨start, s, hbegin, run, hnone, hexpand⟩
      · obtain ⟨remarks, f, writes, remarked, hcause⟩ := Solver.begin_stop hbegin
        refine ⟨remarks, writes, ?_⟩
        simp only [Outcome.ofAttempt, Outcome.error?, hcause, Failure.error?]
        exact tells_of_plain (plain_of_remarks remarked)
      · obtain ⟨first, begins, plainFirst⟩ := Solver.begin_plain (p := p) hbegin
        obtain ⟨opened, events, writes, plain⟩ :=
          (Open.begin gives fractional hbegin).reaches (p := p) run
        exact Accounts.prepend_plain (begins.trans writes)
          (List.forall_mem_append.mpr ⟨plainFirst, plain⟩) (opened.expand_stop_tells hnone hexpand)

/-- The search of a program, given what to do if its relaxation is unbounded. -/
theorem Solver.searchProgram_accounts
    {ifUnbounded : Session α β η ε → Attempt α β η ε (Record α × Session α β η ε)}
    (unbounded : (S.oracle.ask ⟨q, []⟩ session.oracle).answer = .ok .unbounded →
      Accounts S p past session
        (ifUnbounded (session.afterReply ⟨q, []⟩ (S.oracle.ask ⟨q, []⟩ session.oracle)))) :
    Accounts S p past session (S.searchProgram q ifUnbounded session) := by
  have asked := session.writes_afterReply ⟨q, []⟩ (S.oracle.ask ⟨q, []⟩ session.oracle)
  rw [Solver.searchProgram]
  cases hask : S.ask ⟨q, []⟩ session with
  | error stop =>
      obtain ⟨writes, refusal⟩ := Solver.ask_refusal hask .rootAnswer
      exact ⟨_, writes, refusal.tells fun results relaxation givesUp => .root rfl givesUp⟩
  | ok pair =>
      obtain ⟨root, between⟩ := pair
      obtain ⟨answer, rfl⟩ := Solver.ask_ok hask
      have plain (useful : root.givesUp = false) (bounded : root ≠ .unbounded) :
          ∀ e ∈ replyEvents ⟨q, []⟩ (S.oracle.ask ⟨q, []⟩ session.oracle), e.Plain S p := by
        refine plain_replyEvents ?_
        rw [answer]
        exact harmless_answer useful fun h => absurd h bounded
      cases root with
      | optimal bound vertex =>
          have plain := plain rfl (by simp)
          simp only
          split
          · refine accounts_ok (asked.trans (Session.writes_note _ _)) ?_
            rw [List.forall_mem_append]
            exact ⟨plain, plain_of_remarks (List.forall_mem_singleton.mpr rfl)⟩
          · rename_i fractional
            exact Accounts.prepend_plain asked plain
              (Solver.searchTree_accounts ⟨_, _, bound, answer⟩ (by simpa using fractional))
      | infeasible =>
          refine accounts_ok (asked.trans (Session.writes_note _ _)) ?_
          rw [List.forall_mem_append]
          exact ⟨plain rfl (by simp), plain_of_remarks (List.forall_mem_singleton.mpr rfl)⟩
      | unbounded => exact unbounded answer
      | iterationLimit | numericalError =>
          have refusal : Refusal S ⟨q, []⟩ session.oracle .rootAnswer _ := .unusable answer rfl
          exact ⟨_, asked, refusal.tells fun results relaxation givesUp => .root rfl givesUp⟩

/-- The first answer that a program is unbounded is not fatal. -/
theorem calm_unbounded {reply : Reply α β ε} (answer : reply.answer = .ok .unbounded) :
    Calm S p [] (replyEvents ⟨p, []⟩ reply) := by
  rw [replyEvents, answer]
  refine Calm.append (calm_of_harmless fun e he => (plain_solved _ e he).harmless) ?_
  intro before e after err h fatal
  obtain ⟨rfl, ⟨rfl, rfl⟩⟩ | ⟨before, rfl, h⟩ := List.cons_eq_append_iff.mp h
  · cases fatal with
    | root _ givesUp => cases givesUp
    | child _ _ _ givesUp => cases givesUp
    | probe earlier _ => simp at earlier
  · simp at h

/-- The probe, after the answer that the program is unbounded. -/
theorem Solver.probe_accounts (earlier : .asked ⟨p, []⟩ (.ok .unbounded) ∈ past) :
    Accounts S p past session (S.probe p session) := by
  refine Solver.searchProgram_accounts fun answer => ⟨_, Session.writes_afterReply _ _ _, ?_⟩
  rw [replyEvents, answer]
  refine Tells.prepend_plain (plain_solved _) ⟨?_, by simp [Event.TakesFractional]⟩
  rw [← List.nil_append [_]]
  refine .fatal (calm_of_harmless (by simp)) (.probe ?_ rfl)
  exact List.mem_append_left _ (List.mem_append_left _ earlier)

/-- An unbounded program. -/
theorem Solver.searchUnbounded_accounts
    (answer : (S.oracle.ask ⟨p, []⟩ session.oracle).answer = .ok .unbounded) :
    Accounts S p [] session
      (S.searchUnbounded p (session.afterReply ⟨p, []⟩ (S.oracle.ask ⟨p, []⟩ session.oracle))) := by
  have noted := (session.writes_afterReply ⟨p, []⟩ (S.oracle.ask ⟨p, []⟩ session.oracle)).trans
    (Session.writes_note _ .rootUnbounded)
  generalize session.afterReply ⟨p, []⟩ (S.oracle.ask ⟨p, []⟩ session.oracle) = between at noted ⊢
  have probe : Accounts S p [] session (S.probe p (between.note .rootUnbounded)) := by
    refine Accounts.prepend noted ?_ ?_ (Solver.probe_accounts ?_)
    · exact (calm_unbounded answer).append
        (calm_of_harmless (List.forall_mem_singleton.mpr (harmless_remark rfl)))
    · rw [List.forall_mem_append, List.forall_mem_singleton]
      exact ⟨fractional_replyEvents _ _, trivial⟩
    · simp [replyEvents, answer]
  rw [Solver.searchUnbounded]
  cases hprobe : S.probe p (between.note .rootUnbounded) with
  | error stop =>
      rw [hprobe] at probe
      exact probe
  | ok pair =>
      rw [hprobe] at probe
      exact probe

/-- A search accounts for its outcome. -/
theorem Solver.solve_accounts (S : Solver α β η ε) (p : Program α) (session : Session α β η ε) :
    ∃ events, session.Writes (S.solve p session).session events
      ∧ Tells S p [] events (S.solve p session).error? := by
  have accounts : Accounts S p [] { session with heuristic := S.heuristic.reset session.heuristic }
      (S.searchProgram p (S.searchUnbounded p)
        { session with heuristic := S.heuristic.reset session.heuristic }) :=
    Solver.searchProgram_accounts Solver.searchUnbounded_accounts
  exact accounts

/-! ### The reasons to fail -/

omit [Scalar α] in
theorem Outcome.result_eq_error_iff {o : Outcome α β η ε} {err : Error ε} :
    o.result = .error (.error err) ↔ o.error? = some err := by
  rw [error?]
  cases o.result with
  | ok record => simp
  | error cause => cases cause <;> simp [Failure.error?]

/-- The first fractional coordinate of a finite vertex that does not count as integral is there. -/
theorem firstFractional_ne_none [LawfulScalar α] {x : List α} {tol : α}
    (defined : isUndefined tol = false) (finite : x.all isFinite = true)
    (fractional : isIntegral x tol = false) : firstFractional x tol ≠ none := by
  intro none
  have near := firstFractional_eq_none_iff.mp none
  rw [List.all_eq_true] at finite
  rw [isIntegral, List.all_eq_false] at fractional
  obtain ⟨v, hv, far⟩ := fractional
  have within := (LawfulScalar.not_lt_iff defined
    (LawfulScalar.defined_fractionality (finite v hv))).mp (near v hv)
  exact far (decide_eq_true within)

/-- **A search fails only for these reasons, and at once.**  Whatever the strategies do, a search
ends with an error exactly if its last event is fatal for it, and nothing follows a fatal event: the
oracle fails, it gives up at a root or at a child, it finds the probe of an unbounded program
unbounded, or the selector names no coordinate of a node that is taken.  The last does not happen
with the first fractional coordinate, a tolerance that is defined, and finite vertices.  A fault of
a strategy is no error. -/
theorem Solver.failsOnly (S : Solver α β η ε) (p : Program α) (session : Session α β η ε) :
    ∃ events, session.Writes (S.solve p session).session events
      ∧ (∀ err, (S.solve p session).result = .error (.error err)
          ↔ ∃ before e, events = before ++ [e] ∧ Fatal S p before e err)
      ∧ (∀ before e after err, events = before ++ e :: after → Fatal S p before e err → after = [])
      ∧ (LawfulScalar α → S.selector = firstFractional →
          isUndefined S.settings.integrality = false →
          (∀ x, S.oracle.Gives x → x.all isFinite = true) →
          ∀ id, (S.solve p session).result ≠ .error (.error (.integralVertex id))) := by
  obtain ⟨events, writes, ends, fractional⟩ := S.solve_accounts p session
  have reason (err : Error ε) : (S.solve p session).result = .error (.error err)
      ↔ ∃ before e, events = before ++ [e] ∧ Fatal S p before e err := by
    rw [Outcome.result_eq_error_iff]
    exact ends.eq_some_iff err
  refine ⟨events, writes, reason, fun before e after err heq fatal => ends.last heq fatal, ?_⟩
  intro lawful hselector defined finite id h
  obtain ⟨before, e, rfl, fatal⟩ := (reason _).mp h
  cases fatal with
  | vertex none =>
      rename_i node
      obtain ⟨gives, notIntegral⟩ :=
        fractional _ (List.mem_append_right before (List.mem_singleton_self (Event.selected node)))
      rw [hselector] at none
      exact firstFractional_ne_none defined (finite _ gives) notIntegral none

/-- The search of the square with an answer for its root only. -/
def muteSolver : Solver ExtRat Unit Unit Unit :=
  { squareSolver with
    oracle := .ofTable square.embed [([], .optimal (num 3) (nums [3 / 2, 3 / 2]))] }

/-- At the square: without an answer for its first child the search fails, and with all answers no
vertex is taken for integral. -/
theorem failsOnly_square :
    (∃ events before e, (Session.new () ()).Writes
          (muteSolver.solve square.embed (.new () ())).session events
        ∧ (muteSolver.solve square.embed (.new () ())).result = .error (.error (.oracle ()))
        ∧ events = before ++ [e] ∧ Fatal muteSolver square.embed before e (.oracle ()))
      ∧ ∀ id, (squareSolver.solve square.embed (.new () ())).result
          ≠ .error (.error (.integralVertex id)) := by
  have failed : (muteSolver.solve square.embed (.new () ())).result
      = .error (.error (.oracle ())) := Outcome.result_eq_error_iff.mpr (by decide +kernel)
  have finite : ∀ x, squareSolver.oracle.Gives x → x.all isFinite = true := by
    rintro x ⟨sub, state, value, answer⟩
    have table : ∀ entry ∈ squareTable, entry.2.vertex.all isFinite = true := by decide +kernel
    exact table _ (Oracle.mem_of_answer_ofTable answer).2
  obtain ⟨events, writes, reason, -, -⟩ :=
    Solver.failsOnly muteSolver square.embed (.new () ())
  obtain ⟨before, e, heq, fatal⟩ := (reason _).mp failed
  obtain ⟨-, -, -, -, named⟩ := Solver.failsOnly squareSolver square.embed (.new () ())
  exact ⟨⟨events, before, e, writes, failed, heq, fatal⟩,
    named inferInstance rfl (by decide +kernel) finite⟩

end IntegerProgramming.Search
