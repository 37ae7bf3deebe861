import Mathlib
import IntegerProgramming.Proofs.Search.Steps

/-!
# Search — two searches in lockstep

Two searches agree for as long as nothing tells them apart: the answers of the oracle, the state of
the heuristic, and the rule by which they stop.  Sessions that a solver cannot tell apart are
related by an `Indistinct` relation, programs that it cannot tell apart are `Alike`, and states that
differ in nothing but the session and the rule are twins (`State.Twin`).

* `Solver.expand_agree`: **the same node is split in the same way**, or both searches stop for the
  same cause.
* `Solver.explore_agree`: so are all nodes, if the rule is the same too.
* `Solver.solve_alike`: **searches of programs that are alike come to the same end** in two sessions
  that are related, and so do searches of one program (`Solver.solve_agree`).
-/

namespace IntegerProgramming.Search

variable {α β η ε : Type}

/-- Two attempts agree: they come to values that are related, or they stop for the same cause, in
sessions that are related. -/
inductive Agree (R : Session α β η ε → Session α β η ε → Prop) {τ : Type} (P : τ → τ → Prop) :
    Attempt α β η ε τ → Attempt α β η ε τ → Prop where
  | ok {x y : τ} (h : P x y) : Agree R P (.ok x) (.ok y)
  | stop {cause : Failure (Error ε)} {s t : Session α β η ε} (h : R s t) :
      Agree R P (.error ⟨cause, s⟩) (.error ⟨cause, t⟩)

/-- Two values with the sessions they were found in: the values are the same. -/
def SameIn {τ : Type} (R : Session α β η ε → Session α β η ε → Prop)
    (x y : τ × Session α β η ε) : Prop :=
  y.1 = x.1 ∧ R x.2 y.2

/-- A relation between sessions that a solver cannot tell apart: the oracle gives the same answers
and the heuristic is in the same state, and both remain so. -/
structure Indistinct (S : Solver α β η ε) (R : Session α β η ε → Session α β η ε → Prop) :
    Prop where
  answer : ∀ {s t : Session α β η ε} (sub : Subproblem α), R s t →
    (S.oracle.ask sub t.oracle).answer = (S.oracle.ask sub s.oracle).answer
  reply : ∀ {s t : Session α β η ε} (sub : Subproblem α), R s t →
    R (s.afterReply sub (S.oracle.ask sub s.oracle)) (t.afterReply sub (S.oracle.ask sub t.oracle))
  note : ∀ {s t : Session α β η ε} (e e' : Event α ε), R s t → e.call? = none → e'.call? = none →
    R (s.note e) (t.note e')
  heuristic : ∀ {s t : Session α β η ε}, R s t → t.heuristic = s.heuristic
  found : ∀ {s t : Session α β η ε} (state : η), R s t →
    R { s with heuristic := state } { t with heuristic := state }

/-- Two programs that a solver cannot tell apart: they have the same objective, the oracle gives the
same replies, and the heuristic finds the same near a vertex of the whole program.  Sessions remain
related whichever of the two the oracle was asked about. -/
structure Alike (S : Solver α β η ε) (R : Session α β η ε → Session α β η ε → Prop)
    (p p' : Program α) : Prop where
  objective : p'.objective = p.objective
  reply : ∀ (changes : List (BoundChange α)) (state : β),
    S.oracle.ask ⟨p', changes⟩ state = S.oracle.ask ⟨p, changes⟩ state
  asked : ∀ {s t : Session α β η ε} (changes : List (BoundChange α)) (reply : Reply α β ε),
    R s (t.afterReply ⟨p, changes⟩ reply) → R s (t.afterReply ⟨p', changes⟩ reply)
  find : ∀ {state : β} {bound : α} {vertex : List α},
    (S.oracle.ask ⟨p, []⟩ state).answer = .ok (.optimal bound vertex) →
      ∀ s, S.heuristic.find p' vertex s = S.heuristic.find p vertex s

/-- The state in another session, under another rule. -/
def State.under (s : State α β η ε) (rule : StopRule α) (session : Session α β η ε) :
    State α β η ε :=
  { s with bracket := { s.bracket with rule }, session }

/-- The solver under another rule. -/
def Solver.under (S : Solver α β η ε) (rule : StopRule α) : Solver α β η ε :=
  { S with settings := { S.settings with rule } }

/-- Two states that differ in no more than the session and the rule, which is this one for the
second. -/
def State.Twin (R : Session α β η ε → Session α β η ε → Prop) (rule : StopRule α)
    (s t : State α β η ε) : Prop :=
  ∃ session, R s.session session ∧ t = s.under rule session

variable {R : Session α β η ε → Session α β η ε → Prop} {S : Solver α β η ε} {p p' : Program α}
  {rule : StopRule α} {s s' : State α β η ε} {session session' : Session α β η ε}

theorem Alike.refl (S : Solver α β η ε) (R : Session α β η ε → Session α β η ε → Prop)
    (p : Program α) : Alike S R p p :=
  ⟨rfl, fun _ _ => rfl, fun _ _ => id, fun _ _ => rfl⟩

/-- The oracle gives the same answer. -/
theorem Solver.ask_agree (indistinct : Indistinct S R) (alike : Alike S R p p')
    (h : R session session') (changes : List (BoundChange α)) :
    Agree R (SameIn R) (S.ask ⟨p, changes⟩ session) (S.ask ⟨p', changes⟩ session') := by
  have same := indistinct.answer ⟨p, changes⟩ h
  have reply := alike.asked changes _ (indistinct.reply ⟨p, changes⟩ h)
  simp only [Solver.ask, alike.reply, same]
  split
  · exact .ok ⟨rfl, reply⟩
  · exact .stop reply
  · exact .stop reply

/-- A reply leaves the state of the heuristic alone. -/
theorem Session.heuristic_afterReply (s : Session α β η ε) (sub : Subproblem α)
    (reply : Reply α β ε) : (s.afterReply sub reply).heuristic = s.heuristic := by
  have noted (results : List (LinearProgram.Result α)) (s : Session α β η ε) :
      (results.foldl (fun s result => s.note (.solved result)) s).heuristic = s.heuristic := by
    induction results generalizing s with
    | nil => rfl
    | cons result rest ih => exact ih (s.note (.solved result))
  exact noted reply.solved s

/-- Related sessions remain related if a remark is made or not. -/
theorem Indistinct.noteIf (indistinct : Indistinct S R) (h : R session session')
    (condition : Bool) {e e' : Event α ε} (he : e.call? = none) (he' : e'.call? = none) :
    R (session.noteIf condition e) (session'.noteIf condition e') := by
  cases condition with
  | true => exact indistinct.note e e' h he he'
  | false => exact h

/-- Related sessions remain related if a rounding is noted, where there was one. -/
theorem Indistinct.noteRounding (indistinct : Indistinct S R) (h : R session session')
    (rounding : Option Rounding) :
    R (match rounding with
        | none => session
        | some how => session.note (.rounded how))
      (match rounding with
        | none => session'
        | some how => session'.note (.rounded how)) := by
  cases rounding with
  | none => exact h
  | some how => exact indistinct.note _ _ h rfl rfl

variable [Scalar α]

/-- The objective has the same value everywhere. -/
theorem Alike.value (alike : Alike S R p p') (x : List α) : p'.value x = p.value x :=
  congrArg (dot · x) alike.objective

theorem Alike.fate? (alike : Alike S R p p') (lower : α) (relaxation : Relaxation α) :
    S.fate? p' lower relaxation = S.fate? p lower relaxation := by
  cases relaxation with
  | optimal v x => rw [Solver.fate?, Solver.fate?, alike.value]
  | infeasible | unbounded | iterationLimit | numericalError => rfl

/-- A child meets its fate in the same way. -/
theorem State.file_twin (indistinct : Indistinct S R) (twin : s.Twin R rule s')
    (node : Node α) (fate : Fate α) : (s.file node fate).Twin R rule (s'.file node fate) := by
  obtain ⟨session, h, rfl⟩ := twin
  have filed := indistinct.note (.filed node fate) (.filed node fate) h rfl rfl
  cases fate with
  | candidate c =>
      cases better : s.incumbent.improvedBy c with
      | true =>
          simp only [State.file, State.adopt, State.under, better, if_true]
          exact ⟨_, indistinct.note _ (.improved node c.value) filed rfl rfl, rfl⟩
      | false =>
          simp only [State.file, State.adopt, State.under, better, Bool.false_eq_true, if_false]
          exact ⟨_, filed, rfl⟩
  | kept v x => exact ⟨_, filed, rfl⟩
  | pruned kind => exact ⟨_, filed, rfl⟩
  | discarded => exact ⟨_, filed, rfl⟩

/-- A child is placed in the same way. -/
theorem Solver.place_agree (indistinct : Indistinct S R) (alike : Alike S R p p')
    (twin : s.Twin R rule s') (node : Node α) :
    Agree R (State.Twin R rule) (S.place p node s) (S.place p' node s') := by
  obtain ⟨session, h, rfl⟩ := twin
  have created := indistinct.note (.created node) (.created node) h rfl rfl
  have asked := Solver.ask_agree indistinct alike created node.changes
  rw [Solver.place, Solver.place]
  simp only [alike.fate?]
  dsimp only [State.under] at asked ⊢
  generalize S.ask ⟨p, node.changes⟩ (s.session.note (.created node)) = first at asked ⊢
  generalize S.ask ⟨p', node.changes⟩ (session.note (.created node)) = second at asked ⊢
  cases asked with
  | stop h => exact .stop h
  | @ok x y h =>
      obtain ⟨relaxation, session₁⟩ := x
      obtain ⟨_, session₂⟩ := y
      obtain ⟨rfl, h⟩ := h
      dsimp only
      split
      · exact .stop h
      · refine .ok (State.file_twin indistinct ⟨session₂, h, rfl⟩ node _)

/-- Both children of a node are placed in the same way. -/
theorem Solver.split_agree (indistinct : Indistinct S R) (alike : Alike S R p p')
    (twin : s.Twin R rule s') (parent : Node α) (decision : Decision α) :
    Agree R (State.Twin R rule) (S.split p parent decision s) (S.split p' parent decision s') := by
  have branched {s s' : State α β η ε} (twin : s.Twin R rule s') (change : BoundChange α) :
      Agree R (State.Twin R rule) (S.branch p parent s change) (S.branch p' parent s' change) := by
    obtain ⟨session, h, rfl⟩ := twin
    exact Solver.place_agree indistinct alike ⟨session, h, rfl⟩ _
  have down := branched twin decision.down
  rw [Solver.split, Solver.split]
  generalize S.branch p parent s decision.down = first at down ⊢
  generalize S.branch p' parent s' decision.down = second at down ⊢
  cases down with
  | stop h => exact .stop h
  | @ok t t' twin =>
      have up := branched twin decision.up
      dsimp only
      generalize S.branch p parent t decision.up = first at up ⊢
      generalize S.branch p' parent t' decision.up = second at up ⊢
      cases up with
      | stop h => exact .stop h
      | ok twin =>
          obtain ⟨session, h, rfl⟩ := twin
          exact .ok ⟨_, indistinct.noteIf h _ rfl rfl, rfl⟩

/-- **The same node is split in the same way**, or both searches stop for the same cause. -/
theorem Solver.expand_agree (indistinct : Indistinct S R) (alike : Alike S R p p')
    (twin : s.Twin R rule s') :
    Agree R (State.Twin R rule) (S.expand p s) (S.expand p' s') := by
  obtain ⟨session, h, rfl⟩ := twin
  have hpop : (s.under rule session).frontier.pop? = s.frontier.pop? := rfl
  rw [Solver.expand, Solver.expand, hpop]
  cases s.frontier.pop? with
  | none => exact .stop h
  | some entry =>
      obtain ⟨parent, rest⟩ := entry
      have selected := indistinct.note (.selected parent) (.selected parent) h rfl rfl
      dsimp only
      cases S.selector.decide? parent.vertex S.settings.integrality with
      | error f => exact .stop selected
      | ok decision? =>
          cases decision? with
          | none => exact .stop selected
          | some decision =>
              exact Solver.split_agree indistinct alike ⟨_, selected, rfl⟩ parent decision

/-- Both searches begin in the same way, if the heuristic finds the same. -/
theorem Solver.begin_agree (indistinct : Indistinct S R) (alike : Alike S R p p')
    (h : R session session') (bound : α) (vertex : List α)
    (find : ∀ s, S.heuristic.find p' vertex s = S.heuristic.find p vertex s) (rule : StopRule α) :
    Agree R (State.Twin R rule) (S.begin p bound vertex session)
      ((S.under rule).begin p' bound vertex session') := by
  simp only [Solver.begin, Solver.under, indistinct.heuristic h, find, alike.value]
  generalize S.heuristic.find p vertex session.heuristic = finding
  obtain ⟨point, state, rounding⟩ := finding
  have remarked := indistinct.noteRounding (indistinct.found state h) rounding
  cases point with
  | error f => exact .stop remarked
  | ok x? =>
      cases x? with
      | none => exact .ok ⟨_, remarked, rfl⟩
      | some x => exact .ok ⟨_, indistinct.note _ (.seeded ⟨x, p.value x⟩) remarked rfl rfl, rfl⟩

/-- The report on a twin is the same. -/
theorem State.Twin.report (twin : s.Twin R rule s') (reason : Termination) :
    s'.report reason = s.report reason := by
  obtain ⟨session, -, rfl⟩ := twin
  rfl

/-! ### Searches in two sessions -/

omit [Scalar α] in
/-- Twins under the same rule differ in their sessions only. -/
theorem State.Twin.eq (twin : s.Twin R rule s') (same : s.bracket.rule = rule) :
    s'.bracket = s.bracket ∧ s'.frontier = s.frontier ∧ R s.session s'.session := by
  obtain ⟨session, h, rfl⟩ := twin
  subst same
  exact ⟨rfl, rfl, h⟩

/-- Under the same rule the same nodes are split. -/
theorem Solver.explore_agree (indistinct : Indistinct S R) (alike : Alike S R p p')
    (twin : s.Twin R rule s') (same : s.bracket.rule = rule) (nodes : ℕ) :
    Agree R (fun x y => y.1 = x.1 ∧ x.2.Twin R rule y.2 ∧ x.2.bracket.rule = rule)
      (S.explore p nodes s) (S.explore p' nodes s') := by
  induction nodes generalizing s s' with
  | zero =>
      obtain ⟨bracket, frontier, -⟩ := twin.eq same
      rw [Solver.explore, Solver.explore, bracket, frontier]
      exact .ok ⟨rfl, twin, same⟩
  | succ nodes ih =>
      obtain ⟨bracket, frontier, -⟩ := twin.eq same
      rw [Solver.explore, Solver.explore, bracket, frontier]
      cases s.bracket.termination? s.frontier.isEmpty with
      | some reason => exact .ok ⟨rfl, twin, same⟩
      | none =>
          have agree := Solver.expand_agree indistinct alike twin
          dsimp only
          generalize hfirst : S.expand p s = first at agree ⊢
          generalize S.expand p' s' = second at agree ⊢
          cases agree with
          | stop h => exact .stop h
          | ok twin' => exact ih twin' ((iterations_expand hfirst).2.trans same)

theorem Solver.searchTree_agree (indistinct : Indistinct S R) (alike : Alike S R p p')
    (h : R session session') (bound : α) {vertex : List α}
    (find : ∀ s, S.heuristic.find p' vertex s = S.heuristic.find p vertex s) :
    Agree R (SameIn R) (S.searchTree p bound vertex session)
      (S.searchTree p' bound vertex session') := by
  have begun : Agree R (State.Twin R S.settings.rule) (S.begin p bound vertex session)
      (S.begin p' bound vertex session') :=
    Solver.begin_agree indistinct alike h bound vertex find S.settings.rule
  rw [Solver.searchTree, Solver.searchTree]
  generalize hfirst : S.begin p bound vertex session = first at begun ⊢
  generalize S.begin p' bound vertex session' = second at begun ⊢
  cases begun with
  | stop h => exact .stop h
  | @ok start start' twin =>
      have explored := Solver.explore_agree indistinct alike twin (Solver.begin_ok hfirst).2.1
        S.settings.rule.nodeLimit
      dsimp only
      generalize S.explore p S.settings.rule.nodeLimit start = first at explored ⊢
      generalize S.explore p' S.settings.rule.nodeLimit start' = second at explored ⊢
      cases explored with
      | stop h => exact .stop h
      | @ok x y h =>
          obtain ⟨reason, s⟩ := x
          obtain ⟨_, s'⟩ := y
          obtain ⟨rfl, twin, same⟩ := h
          exact .ok ⟨twin.report _, indistinct.note _ _ (twin.eq same).2.2 rfl rfl⟩

/-- Both programs are searched in the same way, if what follows an unbounded relaxation is. -/
theorem Solver.searchProgram_agree (indistinct : Indistinct S R) (alike : Alike S R p p')
    (h : R session session')
    {ifUnbounded ifUnbounded' : Session α β η ε → Attempt α β η ε (Record α × Session α β η ε)}
    (unbounded : ∀ s t, R s t → Agree R (SameIn R) (ifUnbounded s) (ifUnbounded' t)) :
    Agree R (SameIn R) (S.searchProgram p ifUnbounded session)
      (S.searchProgram p' ifUnbounded' session') := by
  have asked := Solver.ask_agree indistinct alike h []
  rw [Solver.searchProgram, Solver.searchProgram]
  generalize hfirst : S.ask ⟨p, []⟩ session = first at asked ⊢
  generalize S.ask ⟨p', []⟩ session' = second at asked ⊢
  cases asked with
  | stop h => exact .stop h
  | @ok x y h =>
      obtain ⟨_, between⟩ := x
      obtain ⟨root, between'⟩ := y
      obtain ⟨rfl, h⟩ := h
      dsimp only at h ⊢
      cases root with
      | optimal bound vertex =>
          simp only [rootSolution, alike.value]
          split
          · exact .ok ⟨rfl, indistinct.note _ _ h rfl rfl⟩
          · exact Solver.searchTree_agree indistinct alike h bound
              (alike.find (Solver.ask_ok hfirst).1)
      | infeasible => exact .ok ⟨rfl, indistinct.note .rootInfeasible .rootInfeasible h rfl rfl⟩
      | unbounded => exact unbounded _ _ h
      | iterationLimit | numericalError => exact .stop h

theorem Solver.searchUnbounded_agree (indistinct : Indistinct S R)
    (probes : Alike S R p.withZeroObjective p'.withZeroObjective) (h : R session session') :
    Agree R (SameIn R) (S.searchUnbounded p session) (S.searchUnbounded p' session') := by
  have noted := indistinct.note .rootUnbounded .rootUnbounded h rfl rfl
  have probed : Agree R (SameIn R) (S.probe p (session.note .rootUnbounded))
      (S.probe p' (session'.note .rootUnbounded)) :=
    Solver.searchProgram_agree indistinct probes noted fun s t h => .stop h
  rw [Solver.searchUnbounded, Solver.searchUnbounded]
  generalize S.probe p (session.note .rootUnbounded) = first at probed ⊢
  generalize S.probe p' (session'.note .rootUnbounded) = second at probed ⊢
  cases probed with
  | stop h => exact .stop h
  | ok h => exact .ok ⟨congrArg afterProbe h.1, h.2⟩

/-- **Searches of programs that are alike come to the same end** in two sessions that become related
once the heuristic is reset. -/
theorem Solver.solve_alike (indistinct : Indistinct S R) (alike : Alike S R p p')
    (probes : Alike S R p.withZeroObjective p'.withZeroObjective)
    (h : R { session with heuristic := S.heuristic.reset session.heuristic }
      { session' with heuristic := S.heuristic.reset session'.heuristic }) :
    (S.solve p' session').result = (S.solve p session).result := by
  have unbounded (s t : Session α β η ε) (h : R s t) :
      Agree R (SameIn R) (S.searchUnbounded p s) (S.searchUnbounded p' t) :=
    Solver.searchUnbounded_agree indistinct probes h
  have agree := Solver.searchProgram_agree indistinct alike h unbounded
  rw [Solver.solve, Solver.solve]
  generalize S.searchProgram p (S.searchUnbounded p)
    { session with heuristic := S.heuristic.reset session.heuristic } = first at agree ⊢
  generalize S.searchProgram p' (S.searchUnbounded p')
    { session' with heuristic := S.heuristic.reset session'.heuristic } = second at agree ⊢
  cases agree with
  | stop h => rfl
  | ok h => exact congrArg Except.ok h.1

/-- **A search comes to the same end** in two sessions that become related once the heuristic is
reset. -/
theorem Solver.solve_agree (indistinct : Indistinct S R)
    (h : R { session with heuristic := S.heuristic.reset session.heuristic }
      { session' with heuristic := S.heuristic.reset session'.heuristic }) :
    (S.solve p session').result = (S.solve p session).result :=
  Solver.solve_alike indistinct (.refl S R p) (.refl S R _) h

end IntegerProgramming.Search
