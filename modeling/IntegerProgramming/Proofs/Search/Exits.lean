import Mathlib
import IntegerProgramming.Proofs.Search.Incumbents
import IntegerProgramming.Proofs.Search.Origins

/-!
# Search — why a search ends

A search ends for the first of four reasons that holds, and its record shows why: the status, the
gap and the iterations are justified by the last pair of bounds in the history (`JustifiedBy`).  The
limit on the iterations is looked at before every node, so a search takes one node more than fits
into it at most.

* `Paced.reaches`: **every state takes no more nodes than the limit allows.**
* `Solver.exits`: **the end of a search is justified by the bounds that it recorded last, and every
  search, finished or not, keeps to its limit.**
-/

namespace IntegerProgramming

variable {α : Type} [Scalar α]

/-! ### The tests -/

/-- The absolute gap is within its tolerance. -/
def StopRule.AbsoluteGapCloses (rule : StopRule α) (lower upper : α) : Prop :=
  absolute (upper - lower) ≤ rule.absoluteGap

/-- The lower bound is not zero, and the relative gap is within its tolerance. -/
def StopRule.RelativeGapCloses (rule : StopRule α) (lower upper : α) : Prop :=
  (lower == 0) = false ∧ absolute ((upper - lower) / lower) ≤ rule.relativeGap

theorem Bracket.absoluteGapClosed_iff {b : Bracket α} (h : -infinity < b.lower) :
    b.absoluteGapClosed = true ↔ b.rule.AbsoluteGapCloses b.lower b.upper := by
  simp [absoluteGapClosed, hasLower, h, StopRule.AbsoluteGapCloses]

theorem Bracket.relativeGapClosed_iff {b : Bracket α} (h : -infinity < b.lower) :
    b.relativeGapClosed = true ↔ b.rule.RelativeGapCloses b.lower b.upper := by
  simp [relativeGapClosed, hasLower, h, StopRule.RelativeGapCloses]

/-- The limit on the iterations is the reason only if neither gap is. -/
theorem Bracket.not_closed_of_iterationLimit {b : Bracket α} {nothingOpen : Bool}
    (h : b.termination? nothingOpen = some .iterationLimit) :
    b.relativeGapClosed = false ∧ b.absoluteGapClosed = false := by
  rw [termination?] at h
  split at h
  · cases h
  · rename_i hr
    split at h
    · cases h
    · rename_i ha
      exact ⟨by simpa using hr, by simpa using ha⟩

/-- What is known of a record whose search ended with these bounds. -/
structure Record.JustifiedBy (rule : StopRule α) (lower upper : α) (record : Record α) : Prop where
  optimal : record.status = .optimal → upper = lower
    ∨ rule.AbsoluteGapCloses lower upper ∨ rule.RelativeGapCloses lower upper
  limit : record.status = .iterationLimit → rule.maxIterations < record.stats.iterations
    ∧ ¬ rule.AbsoluteGapCloses lower upper ∧ ¬ rule.RelativeGapCloses lower upper
  gap : record.stats.gap = relativeGap lower upper
  counted : ∀ c, record.best = some c → record.stats.iterations = 2 * record.stats.explored

end IntegerProgramming

namespace IntegerProgramming.Search

open LawfulScalar
open ExtRat (num)

variable {α β η ε : Type} [Scalar α] {S : Solver α β η ε} {p : Program α}
  {start : Session α β η ε} {s t : State α β η ε}

/-! ### Taking nodes -/

omit [Scalar α] in
theorem countP_takesNode_remarks {remarks : List (Event α ε)}
    (h : ∀ e ∈ remarks, e.isRemark = true) : remarks.countP Event.takesNode = 0 := by
  refine List.countP_eq_zero.mpr fun e he => ?_
  have := h e he
  cases e <;> simp_all [Event.isRemark, Event.takesNode]

omit [Scalar α] in
theorem countP_takesNode_replyEvents (sub : Subproblem α) (reply : Reply α β ε) :
    (replyEvents sub reply).countP Event.takesNode = 0 := by
  simp [replyEvents, Event.takesNode]

theorem Placing.countP_takesNode {node : Node α} {fate : Fate α} {events : List (Event α ε)}
    (h : Placing S p node fate events) : events.countP Event.takesNode = 0 := by
  obtain ⟨-, -, remarked⟩ := h
  simp [countP_takesNode_replyEvents, countP_takesNode_remarks remarked, Event.takesNode]

/-- What holds of a state that is about to take its next node: the nodes that were taken are those
in the journal, they keep to the limit, and the bounds meet if no node is open. -/
structure Paced (S : Solver α β η ε) (start : Session α β η ε) (s : State α β η ε) : Prop where
  taken : ∃ events, start.Writes s.session events ∧ events.countP Event.takesNode = s.explored
  twice : s.CountsTwice
  rule : s.bracket.rule = S.settings.rule
  within : s.explored ≤ S.settings.rule.maxIterations / 2 + 1
  closed : s.frontier.isEmpty = true → s.bracket.upper = s.bracket.lower

theorem Paced.begin {bound : α} {vertex : List α} (h : S.begin p bound vertex start = .ok s) :
    Paced S start s := by
  obtain ⟨remarks, seeded, writes, remarked, hseeded⟩ := Solver.begin_writes h
  obtain ⟨hnodes, hrule, -⟩ := Solver.begin_ok h
  have explored := Solver.explored_begin h
  have taken : (remarks ++ seeded).countP Event.takesNode = 0 := by
    rw [List.countP_append, countP_takesNode_remarks remarked]
    rcases hseeded with ⟨rfl, -⟩ | ⟨x, rfl, -⟩
    · rfl
    · rfl
  refine ⟨⟨_, writes, taken.trans explored.symm⟩, (Recorded.begin h).twice, hrule, ?_,
    fun empty => ?_⟩
  · rw [explored]
    exact Nat.zero_le _
  · rw [Frontier.isEmpty, hnodes] at empty
    cases empty

/-- A node fits into the limit as long as the search has no reason to stop. -/
theorem Paced.succ_le (h : Paced S start s)
    (hnone : s.bracket.termination? s.frontier.isEmpty = none) :
    s.explored + 1 ≤ S.settings.rule.maxIterations / 2 + 1 := by
  have limit := (Bracket.termination?_eq_none hnone).1
  rw [h.twice, h.rule] at limit
  omega

/-- **A step takes one node.** -/
theorem Paced.expand (h : Paced S start s)
    (hnone : s.bracket.termination? s.frontier.isEmpty = none) (hexpand : S.expand p s = .ok t) :
    Paced S start t := by
  obtain ⟨before, hbefore, hcount⟩ := h.taken
  obtain ⟨_, -, _, _, _, _, _, downEvents, upEvents, remarks, -, writes, -, placedDown, -, placedUp,
    remarked⟩ := Solver.expand_writes hexpand
  obtain ⟨hexplored, -, -⟩ := Solver.history_expand hexpand
  refine ⟨⟨_, hbefore.trans writes, ?_⟩, h.twice.expand hexpand,
    (iterations_expand hexpand).2.trans h.rule, hexplored ▸ h.succ_le hnone, fun empty => ?_⟩
  · simp [List.countP_cons, placedDown.countP_takesNode, placedUp.countP_takesNode,
      countP_takesNode_remarks remarked, Event.takesNode, hcount, hexplored]
  · obtain ⟨_, _, _, _, down, up, -, -, -, -, -, rfl⟩ := Solver.expand_ok hexpand
    have none_open : up.frontier.nodes = [] := List.isEmpty_iff.mp empty
    change (up.bracket.refresh up.frontier.bestBound?).upper = up.bracket.lower
    rw [Frontier.bestBound?, none_open]
    rfl

/-- **Every state takes no more nodes than the limit allows.** -/
theorem Paced.reaches (run : Reaches S p s t) (h : Paced S start s) : Paced S start t :=
  run.invariant (fun _ _ hs hnone hexpand => hs.expand hnone hexpand) h

/-- A node at which the search stops is one more. -/
theorem Paced.expand_stop (h : Paced S start s)
    (hnone : s.bracket.termination? s.frontier.isEmpty = none) {stop : Stop α β η ε}
    (hexpand : S.expand p s = .error stop) :
    ∃ events, start.Writes stop.session events
      ∧ events.countP Event.takesNode ≤ S.settings.rule.maxIterations / 2 + 1 := by
  obtain ⟨before, hbefore, hcount⟩ := h.taken
  have limit := h.succ_le hnone
  rcases Solver.expand_stop_writes hexpand with ⟨-, hsession⟩ | ⟨parent, -, ⟨writes, -⟩
    | ⟨_, node, state, placed, -, -, hplaced, writes, -⟩⟩
  · refine ⟨before, hsession ▸ hbefore, ?_⟩
    omega
  · refine ⟨_, hbefore.trans writes, ?_⟩
    simpa [Event.takesNode, hcount] using limit
  · have none : placed.countP Event.takesNode = 0 := by
      rcases hplaced with rfl | ⟨_, _, -, placing⟩
      · rfl
      · exact placing.countP_takesNode
    refine ⟨_, hbefore.trans writes, ?_⟩
    simpa [List.countP_cons, Event.takesNode, none, countP_takesNode_replyEvents, hcount]
      using limit

/-! ### The end of a search -/

variable [LawfulScalar α]

/-- The record of a search is justified by the bounds of its last state. -/
theorem Paced.justified (paced : Paced S start s) (led : Led p start s)
    {reason : Termination} (hstop : s.bracket.termination? s.frontier.isEmpty = some reason) :
    (s.report reason).JustifiedBy S.settings.rule s.bracket.lower s.bracket.upper := by
  rw [State.report, ← paced.rule]
  cases hbest : s.incumbent.best with
  | none =>
      have lower : s.bracket.lower = -infinity :=
        led.lower.trans (Incumbent.value_of_best_none hbest)
      refine ⟨fun h => ?_, fun h => ?_, ?_, fun c hc => ?_⟩
      · cases h
      · cases h
      · simp [relativeGap, lower, not_isFinite_negInfinity]
      · cases hc
  | some best =>
      have lower := led.negInfinity_lt hbest
      have relative := Bracket.relativeGapClosed_iff lower
      have absolute := Bracket.absoluteGapClosed_iff lower
      refine ⟨fun h => ?_, fun h => ?_, rfl, fun c _ => paced.twice⟩
      · rcases Bracket.termination?_eq_some hstop with ⟨-, closed⟩ | ⟨-, closed⟩ | ⟨rfl, -⟩
          | ⟨-, closed⟩
        · exact .inr (.inr (relative.mp closed))
        · exact .inr (.inl (absolute.mp closed))
        · cases h
        · exact .inl (paced.closed closed)
      · have limit : reason = .iterationLimit := by
          cases reason <;> first | rfl | cases h
        subst limit
        obtain ⟨notRelative, notAbsolute⟩ := Bracket.not_closed_of_iterationLimit hstop
        refine ⟨?_, fun closes => ?_, fun closes => ?_⟩
        · rcases Bracket.termination?_eq_some hstop with ⟨h, -⟩ | ⟨h, -⟩ | ⟨-, h⟩ | ⟨h, -⟩
          · cases h
          · cases h
          · exact h
          · cases h
        · rw [absolute.mpr closes] at notAbsolute
          cases notAbsolute
        · rw [relative.mpr closes] at notRelative
          cases notRelative

/-- **A search ends for a reason, and keeps to its limit.**  Whatever the strategies do, a finished
search below a root ends in a state whose bounds it recorded last, and they justify its record: an
optimal one has bounds that meet or a gap that closes, and one at the limit has exceeded it while
neither gap closes; the gap of the record is that of these bounds.  A search that keeps to
`maxIterations`, finished or not, takes at most `maxIterations / 2 + 1` nodes, and never counts more
than `maxIterations + 2` iterations. -/
theorem Solver.exits (S : Solver α β η ε) (p : Program α) (bound : α) (vertex : List α)
    (session : Session α β η ε) :
    (∀ record session', S.searchTree p bound vertex session = .ok (record, session') →
        ∃ start s lower upper, S.begin p bound vertex session = .ok start ∧ Reaches S p start s
          ∧ s.bracket.history.getLast? = some (lower, upper)
          ∧ (∀ c, record.best = some c → record.stats.history = s.bracket.history)
          ∧ record.JustifiedBy S.settings.rule lower upper)
      ∧ (∃ events,
          session.Writes (Outcome.ofAttempt (S.searchTree p bound vertex session)).session events
            ∧ events.countP Event.takesNode ≤ S.settings.rule.maxIterations / 2 + 1)
      ∧ ∀ start s, S.begin p bound vertex session = .ok start → Reaches S p start s →
          s.explored ≤ S.settings.rule.maxIterations / 2 + 1
            ∧ s.bracket.iterations ≤ S.settings.rule.maxIterations + 2 := by
  have paced {start s : State α β η ε} (hbegin : S.begin p bound vertex session = .ok start)
      (run : Reaches S p start s) : Paced S session s := (Paced.begin hbegin).reaches run
  refine ⟨fun record session' h => ?_, ?_, fun start s hbegin run => ?_⟩
  · obtain ⟨start, s, reason, hbegin, run, hstop, rfl, -⟩ := Solver.searchTree_ok h
    have led : Led p session s := (Led.begin ⟨[], .refl session, rfl⟩ hbegin).reaches run
    have recorded := (Recorded.begin hbegin).reaches run
    refine ⟨start, s, _, _, hbegin, run, recorded.last, fun c hc => ?_,
      (paced hbegin run).justified led hstop⟩
    have best := State.best_report hc
    rw [State.report, best]
  · cases htree : S.searchTree p bound vertex session with
    | error stop =>
        rcases Solver.searchTree_stop htree with hbegin | ⟨start, s, hbegin, run, hnone, hexpand⟩
        · obtain ⟨remarks, f, writes, remarked, -⟩ := Solver.begin_stop hbegin
          exact ⟨remarks, writes, (countP_takesNode_remarks remarked).trans_le (Nat.zero_le _)⟩
        · exact (paced hbegin run).expand_stop hnone hexpand
    | ok pair =>
        obtain ⟨record, session'⟩ := pair
        obtain ⟨start, s, reason, hbegin, run, -, -, rfl⟩ := Solver.searchTree_ok htree
        obtain ⟨events, writes, hcount⟩ := (paced hbegin run).taken
        refine ⟨_, writes.trans (Session.writes_note _ _), ?_⟩
        rw [List.countP_append, hcount]
        exact (paced hbegin run).within
  · have within := (paced hbegin run).within
    have twice : s.bracket.iterations = 2 * s.explored := (paced hbegin run).twice
    exact ⟨within, by omega⟩

/-- The search of the square that may take one node only. -/
def briefSolver : Solver ExtRat Unit Unit Unit :=
  { squareSolver with settings := { Settings.standard with rule := ⟨0, 0, 0⟩ } }

/-- At the square, to the end and with one node only. -/
theorem exits_square :
    (∃ record session' lower upper,
        squareSolver.searchTree square.embed (num 3) (nums [3 / 2, 3 / 2]) (.new () ())
            = .ok (record, session')
          ∧ record.status = .optimal
          ∧ record.JustifiedBy squareSolver.settings.rule lower upper)
      ∧ ∃ record session' lower upper,
        briefSolver.searchTree square.embed (num 3) (nums [3 / 2, 3 / 2]) (.new () ())
            = .ok (record, session')
          ∧ record.status = .iterationLimit
          ∧ record.JustifiedBy briefSolver.settings.rule lower upper := by
  obtain ⟨⟨record, session'⟩, h, status⟩ : ∃ ended,
      squareSolver.searchTree square.embed (num 3) (nums [3 / 2, 3 / 2]) (.new () ()) = .ok ended
        ∧ ended.1.status = .optimal := exists_ok_of_toOption (by decide +kernel)
  obtain ⟨⟨brief, session''⟩, h', status'⟩ : ∃ ended,
      briefSolver.searchTree square.embed (num 3) (nums [3 / 2, 3 / 2]) (.new () ()) = .ok ended
        ∧ ended.1.status = .iterationLimit := exists_ok_of_toOption (by decide +kernel)
  obtain ⟨_, _, lower, upper, -, -, -, -, justified⟩ :=
    (Solver.exits squareSolver square.embed _ _ _).1 record session' h
  obtain ⟨_, _, lower', upper', -, -, -, -, justified'⟩ :=
    (Solver.exits briefSolver square.embed _ _ _).1 brief session'' h'
  exact ⟨⟨record, session', lower, upper, h, status, justified⟩,
    brief, session'', lower', upper', h', status', justified'⟩

end IntegerProgramming.Search
