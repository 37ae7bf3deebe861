import Mathlib
import IntegerProgramming.Proofs.Search.CallTree
import IntegerProgramming.Proofs.Search.Lockstep

/-!
# Search — raising the limit on the iterations

The limit on the iterations is the third of the reasons to stop, and nothing else looks at it.  So a
search under a higher limit does the same for as long as the other one goes on: it passes through
the same states (`Reaches.raised`), and stops there for every other reason.

* `Reaches.within`: a state that is passed by lies on the way to the state in which the search ends.
* `Reaches.prolongs`: what a search has recorded, asked and found when it passes by a state, it only
  adds to.
* `Solver.prolongs_of_raised`: **a higher limit only prolongs a search.**
-/

namespace IntegerProgramming

variable {α : Type} [Scalar α]

/-- The rule with another limit on the iterations. -/
def StopRule.withLimit {α : Type} (rule : StopRule α) (limit : ℕ) : StopRule α :=
  { rule with maxIterations := limit }

/-- A higher limit changes no other reason to stop. -/
theorem Bracket.termination?_raised {b : Bracket α} {nothingOpen : Bool} {limit : ℕ}
    (raised : b.rule.maxIterations ≤ limit)
    (h : b.termination? nothingOpen ≠ some .iterationLimit) :
    Bracket.termination? { b with rule := b.rule.withLimit limit } nothingOpen
      = b.termination? nothingOpen := by
  have relative : Bracket.relativeGapClosed { b with rule := b.rule.withLimit limit }
      = b.relativeGapClosed := rfl
  have absolute : Bracket.absoluteGapClosed { b with rule := b.rule.withLimit limit }
      = b.absoluteGapClosed := rfl
  rw [termination?, relative, absolute]
  rw [termination?] at h ⊢
  split
  · rfl
  · split
    · rfl
    · rename_i hr ha
      rw [if_neg hr, if_neg ha] at h
      have within : ¬ b.rule.maxIterations < b.iterations := fun hlt => h (if_pos hlt)
      have within' : ¬ limit < b.iterations := fun hlt => within (raised.trans_lt hlt)
      rw [if_neg within]
      exact if_neg within'

end IntegerProgramming

namespace IntegerProgramming.Search

variable {α β η ε : Type}

/-- The solver with another limit on the iterations. -/
def Solver.withLimit (S : Solver α β η ε) (limit : ℕ) : Solver α β η ε :=
  S.under (S.settings.rule.withLimit limit)

/-- Two sessions with the same calls, in which oracle and heuristic are in the same states. -/
structure SameCalls (s t : Session α β η ε) : Prop where
  oracle : t.oracle = s.oracle
  heuristic : t.heuristic = s.heuristic
  calls : t.journal.calls = s.journal.calls

/-- A note that is no call. -/
theorem Session.calls_note (s : Session α β η ε) {e : Event α ε} (he : e.call? = none) :
    (s.note e).journal.calls = s.journal.calls := by
  rw [Session.note, Journal.calls_push, he]
  exact List.append_nil _

theorem indistinct_sameCalls (S : Solver α β η ε) : Indistinct S SameCalls where
  answer sub h := by rw [h.oracle]
  reply {s t} sub h := by
    rw [h.oracle]
    refine ⟨rfl, ?_, ?_⟩
    · rw [Session.heuristic_afterReply, Session.heuristic_afterReply, h.heuristic]
    · rw [(t.writes_afterReply sub (S.oracle.ask sub s.oracle)).calls,
        (s.writes_afterReply sub (S.oracle.ask sub s.oracle)).calls, h.calls]
  note {s t} e e' h he he' := by
    refine ⟨h.oracle, h.heuristic, ?_⟩
    rw [Session.calls_note s he, Session.calls_note t he', h.calls]
  heuristic h := h.heuristic
  found state h := ⟨h.oracle, rfl, h.calls⟩

variable [Scalar α] {S : Solver α β η ε} {p : Program α} {s s' t u : State α β η ε}

/-! ### Runs of a search -/

/-- The limit is not looked at when a node is split. -/
theorem reaches_under {rule : StopRule α} : Reaches (S.under rule) p s t ↔ Reaches S p s t := by
  constructor
  · intro run
    induction run with
    | refl s => exact .refl s
    | step h ht _ ih => exact .step h ht ih
  · intro run
    induction run with
    | refl s => exact .refl s
    | step h ht _ ih => exact .step h ht ih

/-- A state that is passed by lies on the way to the state in which the search ends. -/
theorem Reaches.within (passed : Reaches S p s t) (run : Reaches S p s u)
    (ends : u.bracket.termination? u.frontier.isEmpty ≠ none) : Reaches S p t u := by
  induction passed with
  | refl => exact run
  | step h ht _ ih =>
      cases run with
      | refl => exact absurd h ends
      | step h' ht' rest =>
          cases ht.symm.trans ht'
          exact ih rest

/-- The loop ends where there is a reason to stop, given as many nodes as its rule allows for. -/
theorem explore_of_reaches {nodes : ℕ} {reason : Termination} (run : Reaches S p s t)
    (stops : t.bracket.termination? t.frontier.isEmpty = some reason)
    (enough : s.bracket.rule.maxIterations < s.bracket.iterations + 2 * nodes) :
    S.explore p nodes s = .ok (reason, t) := by
  induction run generalizing nodes with
  | refl => exact explore_of_termination stops
  | step h ht _ ih =>
      obtain ⟨iterations, rule⟩ := iterations_expand ht
      cases nodes with
      | zero =>
          have within := (Bracket.termination?_eq_none h).1
          omega
      | succ nodes =>
          rw [explore_succ h ht]
          refine ih stops ?_
          rw [iterations, rule]
          omega

/-- A search below a fractional root comes to the state it reaches where there is a reason to stop.
-/
theorem Solver.searchTree_of_reaches {bound : α} {vertex : List α} {session : Session α β η ε}
    {reason : Termination} (hbegin : S.begin p bound vertex session = .ok s)
    (run : Reaches S p s t) (stops : t.bracket.termination? t.frontier.isEmpty = some reason) :
    S.searchTree p bound vertex session
      = .ok (t.report reason,
          t.session.note (.finished reason t.bracket.iterations t.explored t.pruned)) := by
  obtain ⟨-, rule, iterations, -⟩ := Solver.begin_ok hbegin
  have enough : s.bracket.rule.maxIterations
      < s.bracket.iterations + 2 * S.settings.rule.nodeLimit := by
    rw [rule, iterations, Nat.zero_add]
    exact StopRule.lt_two_mul_nodeLimit _
  rw [Solver.searchTree, hbegin]
  dsimp only
  rw [explore_of_reaches run stops enough]

/-- A twin under a higher limit has the same reason to stop, unless that is the limit. -/
theorem State.Twin.termination?_raised {limit : ℕ}
    (twin : s.Twin SameCalls (s.bracket.rule.withLimit limit) s')
    (raised : s.bracket.rule.maxIterations ≤ limit)
    (h : s.bracket.termination? s.frontier.isEmpty ≠ some .iterationLimit) :
    s'.bracket.termination? s'.frontier.isEmpty = s.bracket.termination? s.frontier.isEmpty := by
  obtain ⟨session, -, rfl⟩ := twin
  exact Bracket.termination?_raised raised h

/-- **Under a higher limit a search passes through the same states.** -/
theorem Reaches.raised {limit : ℕ} (run : Reaches S p s t)
    (raised : s.bracket.rule.maxIterations ≤ limit)
    (twin : s.Twin SameCalls (s.bracket.rule.withLimit limit) s') :
    t.bracket.rule = s.bracket.rule
      ∧ ∃ t', Reaches S p s' t' ∧ t.Twin SameCalls (s.bracket.rule.withLimit limit) t' := by
  induction run generalizing s' with
  | refl s => exact ⟨rfl, s', .refl s', twin⟩
  | @step s m t h hexpand rest ih =>
      obtain ⟨-, rule⟩ := iterations_expand hexpand
      have agree := Solver.expand_agree (indistinct_sameCalls S) (.refl S _ p) twin
      have goesOn : s'.bracket.termination? s'.frontier.isEmpty = none :=
        (twin.termination?_raised raised (by simp [h])).trans h
      rw [hexpand] at agree
      generalize hexpand' : S.expand p s' = attempt at agree
      cases agree with
      | ok twin' =>
          rw [← rule] at raised twin' ⊢
          obtain ⟨rule', t', run', twin''⟩ := ih raised twin'
          exact ⟨rule', t', .step goesOn hexpand' run', twin''⟩

/-- Filing a child does not lose the point. -/
theorem State.best_file {node : Node α} {fate : Fate α} (h : s.incumbent.best ≠ none) :
    (s.file node fate).incumbent.best ≠ none := by
  cases fate with
  | candidate c =>
      rw [State.file, State.adopt]
      split
      · rename_i better
        simp [Incumbent.offer_of_improvedBy better]
      · exact h
  | kept v x => exact h
  | pruned kind => exact h
  | discarded => exact h

theorem Solver.best_place {node : Node α} (hplace : S.place p node s = .ok t)
    (h : s.incumbent.best ≠ none) : t.incumbent.best ≠ none := by
  obtain ⟨relaxation, fate, -, -, rfl⟩ := Solver.place_ok hplace
  exact State.best_file h

/-- A step does not lose the point. -/
theorem Solver.best_expand (hexpand : S.expand p s = .ok t) (h : s.incumbent.best ≠ none) :
    t.incumbent.best ≠ none := by
  obtain ⟨parent, rest, _, _, down, up, -, -, -, hdown, hup, rfl⟩ := Solver.expand_ok hexpand
  have hdown' : down.incumbent.best ≠ none :=
    Solver.best_place (s := s.select parent rest) hdown h
  exact Solver.best_place (t := up) hup hdown'

/-- What a search has recorded and asked when it passes by a state, it only adds to; it does not
lose its point. -/
theorem Reaches.prolongs (run : Reaches S p s t) :
    s.bracket.history <+: t.bracket.history
      ∧ (∃ events, s.session.Writes t.session events)
      ∧ (s.incumbent.best ≠ none → t.incumbent.best ≠ none) := by
  induction run with
  | refl s => exact ⟨List.prefix_rfl, ⟨[], .refl _⟩, id⟩
  | step _ hexpand _ ih =>
      obtain ⟨history, ⟨later, writesLater⟩, best⟩ := ih
      obtain ⟨_, -, _, _, _, _, _, _, _, _, -, writes, -⟩ := Solver.expand_writes hexpand
      refine ⟨.trans ?_ history, ⟨_, writes.trans writesLater⟩, best ∘ Solver.best_expand hexpand⟩
      rw [(Solver.history_expand hexpand).2.1]
      exact List.prefix_append _ _

/-! ### Records -/

/-- What one record and its calls have in common with those of a longer search: bounds and calls are
continued, and the point is no worse. -/
structure Prolongs (record : Record α) (asked : List (Call α ε)) (record' : Record α)
    (asked' : List (Call α ε)) : Prop where
  lowerBounds : record.lowerBounds <+: record'.lowerBounds
  upperBounds : record.upperBounds <+: record'.upperBounds
  calls : asked <+: asked'
  best : LawfulScalar α → ∃ c c', record.best = some c ∧ record'.best = some c' ∧ c.value ≤ c'.value

/-- The record of a search with a point. -/
theorem State.report_of_best {c : Solution α} (h : s.incumbent.best = some c)
    (reason : Termination) :
    (s.report reason).status = reason.status ∧ (s.report reason).best = some c
      ∧ (s.report reason).stats.history = s.bracket.history := by
  rw [State.report, h]
  exact ⟨rfl, rfl, rfl⟩

/-- A record with a point is the report on a state with a point. -/
theorem State.best_of_hasSolution {reason : Termination}
    (h : (s.report reason).status.hasSolution = true) : ∃ c, s.incumbent.best = some c := by
  rw [State.report] at h
  cases hbest : s.incumbent.best with
  | none =>
      rw [hbest] at h
      cases h
  | some c => exact ⟨c, rfl⟩

/-- A state on the way to the end of a search: its report is prolonged by the record. -/
theorem Reaches.prolongs_report {start : Session α β η ε} (run : Reaches S p s t)
    (led : LawfulScalar α → Led p start s) {c : Solution α} (hc : s.incumbent.best = some c)
    (reason reason' : Termination) :
    Prolongs (s.report reason) s.session.journal.calls (t.report reason')
      t.session.journal.calls := by
  obtain ⟨history, ⟨events, writes⟩, best⟩ := run.prolongs
  obtain ⟨c', hc'⟩ := Option.ne_none_iff_exists'.mp (best (by simp [hc]))
  obtain ⟨-, hrecord, hhistory⟩ := State.report_of_best hc reason
  obtain ⟨-, hrecord', hhistory'⟩ := State.report_of_best hc' reason'
  refine ⟨?_, ?_, ?_, fun lawful => ⟨c, c', hrecord, hrecord', ?_⟩⟩
  · rw [Record.lowerBounds, Record.lowerBounds, hhistory, hhistory']
    exact history.map Prod.fst
  · rw [Record.upperBounds, Record.upperBounds, hhistory, hhistory']
    exact history.map Prod.snd
  · rw [writes.calls]
    exact List.prefix_append _ _
  · have later := (led lawful).reaches run
    have rises := (led lawful).lower_le later writes
    rwa [(led lawful).lower, later.lower, Incumbent.value_of_best hc,
      Incumbent.value_of_best hc'] at rises

/-- A higher limit prolongs a search below a fractional root. -/
theorem Solver.searchTree_raised {limit : ℕ} (raised : S.settings.rule.maxIterations ≤ limit)
    {bound : α} {vertex : List α} {session session' : Session α β η ε} {record : Record α}
    (h : S.searchTree p bound vertex session = .ok (record, session')) :
    (record.status = .optimal → ∃ session'',
        (S.withLimit limit).searchTree p bound vertex session = .ok (record, session'')
          ∧ session''.journal.calls = session'.journal.calls)
      ∧ (record.status = .iterationLimit → ∀ record' session'',
        (S.withLimit limit).searchTree p bound vertex session = .ok (record', session'') →
          Prolongs record session'.journal.calls record' session''.journal.calls) := by
  obtain ⟨start, s, reason, hbegin, run, stops, rfl, rfl⟩ := Solver.searchTree_ok h
  obtain ⟨-, rule, -, -⟩ := Solver.begin_ok hbegin
  have agree := Solver.begin_agree (indistinct_sameCalls S) (.refl S _ p)
    (SameCalls.mk (s := session) rfl rfl rfl) bound vertex (fun _ => rfl)
    (S.settings.rule.withLimit limit)
  rw [hbegin] at agree
  generalize hbegin' : (S.under (S.settings.rule.withLimit limit)).begin p bound vertex session
    = attempt at agree
  cases agree with
  | @ok _ start' twin =>
      rw [← rule] at raised twin
      obtain ⟨rule', s', run', twin'⟩ := run.raised raised twin
      have passed : Reaches (S.withLimit limit) p start' s' := reaches_under.mpr run'
      rw [← rule'] at raised twin'
      have report := twin'.report
      have calls : s'.session.journal.calls = s.session.journal.calls := by
        obtain ⟨session'', same, rfl⟩ := twin'
        exact same.calls
      refine ⟨fun optimal => ?_, fun limited record' session'' h' => ?_⟩
      · obtain ⟨c, hc⟩ := State.best_of_hasSolution (by rw [optimal]; rfl)
        rw [(State.report_of_best hc reason).1] at optimal
        have stops' : s'.bracket.termination? s'.frontier.isEmpty = some reason := by
          refine (twin'.termination?_raised raised ?_).trans stops
          rw [stops]
          rintro ⟨⟩
          cases optimal
        have h' := Solver.searchTree_of_reaches hbegin' passed stops'
        rw [report] at h'
        refine ⟨_, h', ?_⟩
        rw [Session.calls_note _ rfl, Session.calls_note _ rfl, calls]
      · obtain ⟨c, hc⟩ := State.best_of_hasSolution (by rw [limited]; rfl)
        obtain ⟨start'', t, reason', hbegin'', run'', stops', rfl, rfl⟩ := Solver.searchTree_ok h'
        cases hbegin'.symm.trans hbegin''
        have onward := passed.within run'' (by simp [stops'])
        have hc' : s'.incumbent.best = some c := by
          obtain ⟨-, -, rfl⟩ := twin'
          exact hc
        have led (lawful : LawfulScalar α) : Led p session s' :=
          (Led.begin ⟨[], .refl session, rfl⟩ hbegin').reaches passed
        have prolonged := onward.prolongs_report led hc' reason reason'
        rw [report, calls] at prolonged
        rw [Session.calls_note _ rfl, Session.calls_note _ rfl]
        exact prolonged

/-- Below a fractional root the tree is searched. -/
theorem Solver.searchProgram_of_fractional
    {ifUnbounded : Session α β η ε → Attempt α β η ε (Record α × Session α β η ε)} {bound : α}
    {vertex : List α} {session between : Session α β η ε}
    (hask : S.ask ⟨p, []⟩ session = .ok (.optimal bound vertex, between))
    (hfractional : isIntegral vertex S.settings.integrality = false) :
    S.searchProgram p ifUnbounded session = S.searchTree p bound vertex between := by
  rw [Solver.searchProgram, hask]
  dsimp only
  rw [hfractional]
  rfl

/-- At an integral root the search ends. -/
theorem Solver.searchProgram_of_integral
    {ifUnbounded : Session α β η ε → Attempt α β η ε (Record α × Session α β η ε)} {bound : α}
    {vertex : List α} {session between : Session α β η ε}
    (hask : S.ask ⟨p, []⟩ session = .ok (.optimal bound vertex, between))
    (hintegral : isIntegral vertex S.settings.integrality = true) :
    S.searchProgram p ifUnbounded session = .ok (.atRoot (rootSolution p vertex),
      between.note (.rootIntegral (rootSolution p vertex).value)) := by
  rw [Solver.searchProgram, hask]
  dsimp only
  rw [hintegral]
  rfl

/-- **A higher limit only prolongs a search.**  A search that reports an optimum reports it under
every higher limit, in the same record and after the same calls.  One that reports its limit goes on
under a higher one: if that search comes to a record, its bounds and its calls continue those of the
first, and its point is no worse. -/
theorem Solver.prolongs_of_raised (S : Solver α β η ε) (p : Program α) (session : Session α β η ε)
    {limit : ℕ} (raised : S.settings.rule.maxIterations ≤ limit) {record : Record α}
    (h : (S.solve p session).result = .ok record) :
    (record.status = .optimal → ((S.withLimit limit).solve p session).result = .ok record
        ∧ ((S.withLimit limit).solve p session).session.journal.calls
          = (S.solve p session).session.journal.calls)
      ∧ (record.status = .iterationLimit → ∀ record',
        ((S.withLimit limit).solve p session).result = .ok record' →
          Prolongs record (S.solve p session).session.journal.calls record'
            ((S.withLimit limit).solve p session).session.journal.calls) := by
  obtain ⟨root, between, hask, hroot⟩ := Solver.searchProgram_cases (Solver.solve_ok h)
  rcases hroot with ⟨bound, vertex, rfl, hintegral, hrecord, hend⟩
    | ⟨bound, vertex, rfl, hfractional, htree⟩ | ⟨-, rfl, -⟩ | ⟨-, hunbounded⟩
  · have same :
        (S.withLimit limit).solve p session = ⟨.ok record, (S.solve p session).session⟩ := by
      rw [hrecord, hend]
      exact congrArg Outcome.ofAttempt
        (Solver.searchProgram_of_integral (S := S.withLimit limit) hask hintegral)
    refine ⟨fun _ => ?_, fun limited => ?_⟩
    · rw [same]
      exact ⟨rfl, rfl⟩
    · rw [hrecord] at limited
      cases limited
  · obtain ⟨optimal, limited⟩ := Solver.searchTree_raised raised htree
    have solve : (S.withLimit limit).solve p session
        = .ofAttempt ((S.withLimit limit).searchTree p bound vertex between) :=
      congrArg Outcome.ofAttempt
        (Solver.searchProgram_of_fractional (S := S.withLimit limit) hask hfractional)
    refine ⟨fun hstatus => ?_, fun hstatus record' h' => ?_⟩
    · obtain ⟨session', htree', hcalls⟩ := optimal hstatus
      rw [solve, htree']
      exact ⟨rfl, hcalls⟩
    · rw [solve] at h' ⊢
      cases htree' : (S.withLimit limit).searchTree p bound vertex between with
      | error stop =>
          rw [htree'] at h'
          cases h'
      | ok pair =>
          rw [htree'] at h'
          cases h'
          exact limited hstatus _ _ htree'
  · exact ⟨(nomatch ·), (nomatch ·)⟩
  · obtain ⟨probe, -, rfl⟩ := Solver.searchUnbounded_ok hunbounded
    have noPoint := hasSolution_afterProbe probe
    refine ⟨fun hstatus => ?_, fun hstatus => ?_⟩
    · rw [hstatus] at noPoint
      cases noPoint
    · rw [hstatus] at noPoint
      cases noPoint

/-- At the square: a search that stops after its first node is prolonged to an optimum, which a
third search with a still higher limit reports as well. -/
theorem prolongs_of_raised_square :
    briefSolver.settings.rule.maxIterations ≤ 10
      ∧ (briefSolver.withLimit 10).settings.rule.maxIterations ≤ 100
      ∧ ∃ record record',
        (briefSolver.solve square.embed (.new () ())).result = .ok record
          ∧ record.status = .iterationLimit
          ∧ ((briefSolver.withLimit 10).solve square.embed (.new () ())).result = .ok record'
          ∧ record'.status = .optimal
          ∧ Prolongs record
            (briefSolver.solve square.embed (.new () ())).session.journal.calls record'
            ((briefSolver.withLimit 10).solve square.embed (.new () ())).session.journal.calls
          ∧ ((briefSolver.withLimit 100).solve square.embed (.new () ())).result = .ok record' := by
  have brief : briefSolver.settings.rule.maxIterations ≤ 10 := by decide
  have longer : (briefSolver.withLimit 10).settings.rule.maxIterations ≤ 100 := by decide
  obtain ⟨record, h, hlimit⟩ : ∃ record,
      (briefSolver.solve square.embed (.new () ())).result = .ok record
        ∧ record.status = .iterationLimit := exists_ok_of_toOption (by decide +kernel)
  obtain ⟨record', h', hoptimal⟩ : ∃ record,
      ((briefSolver.withLimit 10).solve square.embed (.new () ())).result = .ok record
        ∧ record.status = .optimal := exists_ok_of_toOption (by decide +kernel)
  have prolonged := (Solver.prolongs_of_raised briefSolver square.embed (.new () ()) brief h).2
    hlimit record' h'
  have same := (Solver.prolongs_of_raised (briefSolver.withLimit 10) square.embed (.new () ())
    longer h').1 hoptimal
  exact ⟨brief, longer, record, record', h, hlimit, h', hoptimal, prolonged, same.1⟩

end IntegerProgramming.Search
