import Mathlib
import IntegerProgramming.Search.Run
import IntegerProgramming.Search.Solve

/-!
# Search — what a step can do

Each function of the search, read backwards: from the fact that it came to a value, everything that
it did on the way.

* `Solver.fate?_cases`: the five ways in which a child meets its fate.
* `Solver.place_ok`, `Solver.expand_ok`: a child is filed, an open node is taken and split.
* `Solver.searchTree_ok`: a finished search ends in a state that it reaches, for the first reason
  to stop that holds there.
* `Solver.searchProgram_cases`: the four ends of a search that comes to a record.
* `Solver.ask_stop`, `Solver.place_stop`, `Solver.expand_stop`, `Solver.searchTree_stop`: where an
  attempt stops that comes to no value, and for what cause.
-/

namespace IntegerProgramming

/-! ### Reasons to stop -/

/-- What a reason to stop says of the bracket and the frontier. -/
theorem Bracket.termination?_eq_some {α : Type} [Scalar α] {b : Bracket α} {nothingOpen : Bool}
    {reason : Termination} (h : b.termination? nothingOpen = some reason) :
    (reason = .relativeGap ∧ b.relativeGapClosed = true)
      ∨ (reason = .absoluteGap ∧ b.absoluteGapClosed = true)
      ∨ (reason = .iterationLimit ∧ b.rule.maxIterations < b.iterations)
      ∨ (reason = .frontierExhausted ∧ nothingOpen = true) := by
  rw [termination?] at h
  split at h
  · rename_i hr; exact .inl ⟨(Option.some.inj h).symm, hr⟩
  · split at h
    · rename_i ha; exact .inr (.inl ⟨(Option.some.inj h).symm, ha⟩)
    · split at h
      · rename_i hi; exact .inr (.inr (.inl ⟨(Option.some.inj h).symm, hi⟩))
      · split at h
        · rename_i ho; exact .inr (.inr (.inr ⟨(Option.some.inj h).symm, ho⟩))
        · cases h

/-- As long as there is no reason to stop, the iterations are within their limit and a node is open.
-/
theorem Bracket.termination?_eq_none {α : Type} [Scalar α] {b : Bracket α} {nothingOpen : Bool}
    (h : b.termination? nothingOpen = none) :
    b.iterations ≤ b.rule.maxIterations ∧ nothingOpen = false := by
  rw [termination?] at h
  split at h
  · cases h
  · split at h
    · cases h
    · split at h
      · cases h
      · rename_i hi
        split at h
        · cases h
        · rename_i ho
          exact ⟨not_lt.mp hi, by simpa using ho⟩

/-- What is popped was open, and so is what is left. -/
theorem Frontier.mem_of_pop? {α : Type} {f rest : Frontier α} {node : Node α}
    (h : f.pop? = some (node, rest)) : node ∈ f.nodes ∧ ∀ n ∈ rest.nodes, n ∈ f.nodes := by
  obtain ⟨hnode, rfl⟩ := pop?_eq_some_iff.mp h
  exact ⟨List.mem_of_getElem? hnode, fun n hn => List.mem_of_mem_eraseIdx hn⟩

theorem Selector.decide?_eq_some {α : Type} [Scalar α] {select : Selector α} {x : List α} {tol : α}
    {decision : Decision α} (h : select.decide? x tol = .ok (some decision)) :
    ∃ var value, select x tol = some var ∧ x[var]? = some value ∧ decision = .at var value := by
  rw [decide?] at h
  split at h
  · cases h
  · rename_i var hvar
    split at h
    · cases h
    · rename_i value hvalue
      cases h
      exact ⟨var, value, hvar, hvalue, rfl⟩

theorem Selector.decide?_eq_error {α : Type} [Scalar α] {select : Selector α} {x : List α} {tol : α}
    {f : Fault} (h : select.decide? x tol = .error f) : ∃ var, select x tol = some var := by
  rw [decide?] at h
  split at h
  · cases h
  · rename_i var hvar
    exact ⟨var, hvar⟩

theorem Selector.decide?_eq_none {α : Type} [Scalar α] {select : Selector α} {x : List α}
    {tol : α} :
    select.decide? x tol = .ok none ↔ select x tol = none := by
  rw [decide?]
  split
  · rename_i hnone
    simp [hnone]
  · rename_i var hvar
    split <;> simp [hvar]

end IntegerProgramming

namespace IntegerProgramming.Search

variable {α β η ε : Type} [Scalar α] {S : Solver α β η ε} {p : Program α}

/-! ### One child -/

omit [Scalar α] in
theorem Solver.ask_ok {sub : Subproblem α} {s s' : Session α β η ε} {relaxation : Relaxation α}
    (h : S.ask sub s = .ok (relaxation, s')) :
    (S.oracle.ask sub s.oracle).answer = .ok relaxation
      ∧ s' = s.afterReply sub (S.oracle.ask sub s.oracle) := by
  simp only [Solver.ask] at h
  split at h
  · rename_i hr
    cases h
    exact ⟨hr, rfl⟩
  · cases h
  · cases h

/-- The five ways in which a child meets its fate. -/
theorem Solver.fate?_cases {lower : α} {relaxation : Relaxation α} {fate : Fate α}
    (h : S.fate? p lower relaxation = some fate) :
    (∃ v x, relaxation = .optimal v x ∧ lower < v ∧ isIntegral x S.settings.integrality = true
        ∧ fate = .candidate ⟨nearestIntegers x, p.value (nearestIntegers x)⟩)
      ∨ (∃ v x, relaxation = .optimal v x ∧ lower < v
        ∧ isIntegral x S.settings.integrality = false ∧ fate = .kept v x)
      ∨ (∃ v x, relaxation = .optimal v x ∧ ¬ lower < v ∧ fate = .pruned .optimal)
      ∨ (relaxation = .infeasible ∧ fate = .pruned .infeasible)
      ∨ (relaxation = .unbounded ∧ fate = .discarded) := by
  cases relaxation with
  | optimal v x =>
      simp only [Solver.fate?] at h
      split at h
      · rename_i hv
        split at h
        · rename_i hx
          exact .inl ⟨v, x, rfl, hv, hx, (Option.some.inj h).symm⟩
        · rename_i hx
          exact .inr (.inl ⟨v, x, rfl, hv, by simpa using hx, (Option.some.inj h).symm⟩)
      · rename_i hv
        exact .inr (.inr (.inl ⟨v, x, rfl, hv, (Option.some.inj h).symm⟩))
  | infeasible => exact .inr (.inr (.inr (.inl ⟨rfl, (Option.some.inj h).symm⟩)))
  | unbounded => exact .inr (.inr (.inr (.inr ⟨rfl, (Option.some.inj h).symm⟩)))
  | iterationLimit | numericalError => cases h

/-- A child that is placed had its relaxation solved and met the fate that follows. -/
theorem Solver.place_ok {node : Node α} {s t : State α β η ε} (h : S.place p node s = .ok t) :
    ∃ relaxation fate,
      (S.oracle.ask ⟨p, node.changes⟩ s.session.oracle).answer = .ok relaxation
        ∧ S.fate? p s.bracket.lower relaxation = some fate
        ∧ t = State.file
            { s with
              nextId := s.nextId + 1
              session := (s.session.note (.created node)).afterReply ⟨p, node.changes⟩
                (S.oracle.ask ⟨p, node.changes⟩ s.session.oracle) }
            node fate := by
  rw [Solver.place] at h
  split at h
  · cases h
  · rename_i relaxation session hask
    obtain ⟨hanswer, rfl⟩ := Solver.ask_ok hask
    split at h
    · cases h
    · rename_i fate hfate
      cases h
      exact ⟨relaxation, fate, hanswer, hfate, rfl⟩

/-! ### One node -/

/-- An open node that is expanded is taken from the frontier and split in two. -/
theorem Solver.expand_ok {s t : State α β η ε} (h : S.expand p s = .ok t) :
    ∃ parent rest var value down up,
      s.frontier.pop? = some (parent, rest)
        ∧ S.selector parent.vertex S.settings.integrality = some var
        ∧ parent.vertex[var]? = some value
        ∧ S.branch p parent (s.select parent rest) (.down var value) = .ok down
        ∧ S.branch p parent down (.up var value) = .ok up
        ∧ t = S.settle up := by
  rw [Solver.expand] at h
  split at h
  · cases h
  · rename_i parent rest hpop
    split at h
    · cases h
    · cases h
    · rename_i decision hdecide
      obtain ⟨var, value, hvar, hvalue, rfl⟩ := Selector.decide?_eq_some hdecide
      rw [Solver.split] at h
      split at h
      · cases h
      · rename_i down hdown
        split at h
        · cases h
        · rename_i up hup
          cases h
          exact ⟨parent, rest, var, value, down, up, hpop, hvar, hvalue, hdown, hup, rfl⟩

/-! ### A whole search -/

/-- The search begins with the root open, and with the point of the heuristic if it found one. -/
theorem Solver.begin_ok {bound : α} {vertex : List α} {session : Session α β η ε}
    {s : State α β η ε} (h : S.begin p bound vertex session = .ok s) :
    s.frontier.nodes = [Node.root.withRelaxation bound vertex]
      ∧ s.bracket.rule = S.settings.rule ∧ s.bracket.iterations = 0
      ∧ (((S.heuristic.find p vertex session.heuristic).point = .ok none
            ∧ s.bracket = (Bracket.start bound S.settings.rule).record ∧ s.incumbent = .none)
        ∨ ∃ x, (S.heuristic.find p vertex session.heuristic).point = .ok (some x)
            ∧ s.bracket = ((Bracket.start bound S.settings.rule).raise (p.value x)).record
            ∧ s.incumbent = Incumbent.none.offer ⟨x, p.value x⟩) := by
  simp only [Solver.begin] at h
  split at h
  · cases h
  · rename_i hpoint
    cases h
    exact ⟨rfl, rfl, rfl, .inl ⟨hpoint, rfl, rfl⟩⟩
  · rename_i x hpoint
    cases h
    exact ⟨rfl, rfl, rfl, .inr ⟨x, hpoint, rfl, rfl⟩⟩

/-- A finished search ends in a state that it reaches, for the first reason to stop there. -/
theorem Solver.searchTree_ok {bound : α} {vertex : List α} {session session' : Session α β η ε}
    {record : Record α} (h : S.searchTree p bound vertex session = .ok (record, session')) :
    ∃ start s reason, S.begin p bound vertex session = .ok start ∧ Reaches S p start s
      ∧ s.bracket.termination? s.frontier.isEmpty = some reason ∧ record = s.report reason
      ∧ session' = s.session.note
          (.finished reason s.bracket.iterations s.explored s.pruned) := by
  rw [Solver.searchTree] at h
  split at h
  · cases h
  · rename_i start hbegin
    split at h
    · cases h
    · rename_i reason s hexplore
      cases h
      obtain ⟨-, hrule, hiter, -⟩ := Solver.begin_ok hbegin
      refine ⟨start, s, reason, hbegin, reaches_of_explore hexplore,
        termination_of_explore ?_ hexplore, rfl, rfl⟩
      rw [hrule, hiter, Nat.zero_add]
      exact StopRule.lt_two_mul_nodeLimit _

/-- The four ends of a search that comes to a record. -/
theorem Solver.searchProgram_cases
    {ifUnbounded : Session α β η ε → Attempt α β η ε (Record α × Session α β η ε)}
    {session session' : Session α β η ε} {record : Record α}
    (h : S.searchProgram p ifUnbounded session = .ok (record, session')) :
    ∃ root between, S.ask ⟨p, []⟩ session = .ok (root, between)
      ∧ ((∃ bound vertex, root = .optimal bound vertex
            ∧ isIntegral vertex S.settings.integrality = true
            ∧ record = .atRoot (rootSolution p vertex)
            ∧ session' = between.note (.rootIntegral (rootSolution p vertex).value))
        ∨ (∃ bound vertex, root = .optimal bound vertex
            ∧ isIntegral vertex S.settings.integrality = false
            ∧ S.searchTree p bound vertex between = .ok (record, session'))
        ∨ (root = .infeasible ∧ record = .infeasible 0
            ∧ session' = between.note .rootInfeasible)
        ∨ (root = .unbounded ∧ ifUnbounded between = .ok (record, session'))) := by
  rw [Solver.searchProgram] at h
  split at h
  · cases h
  · rename_i root between hask
    refine ⟨root, between, hask, ?_⟩
    cases root with
    | optimal bound vertex =>
        simp only at h
        split at h
        · rename_i hx
          cases h
          exact .inl ⟨bound, vertex, rfl, hx, rfl, rfl⟩
        · rename_i hx
          exact .inr (.inl ⟨bound, vertex, rfl, by simpa using hx, h⟩)
    | infeasible =>
        cases h
        exact .inr (.inr (.inl ⟨rfl, rfl, rfl⟩))
    | unbounded => exact .inr (.inr (.inr ⟨rfl, h⟩))
    | iterationLimit | numericalError => cases h

/-- The record of a program with an unbounded relaxation is read off the record of its probe. -/
theorem Solver.searchUnbounded_ok {session session' : Session α β η ε} {record : Record α}
    (h : S.searchUnbounded p session = .ok (record, session')) :
    ∃ probe, S.probe p (session.note .rootUnbounded) = .ok (probe, session')
      ∧ record = afterProbe probe := by
  rw [Solver.searchUnbounded] at h
  split at h
  · cases h
  · rename_i probe session'' hprobe
    cases h
    exact ⟨probe, hprobe, rfl⟩

theorem Solver.solve_ok {session : Session α β η ε} {record : Record α}
    (h : (S.solve p session).result = .ok record) :
    S.searchProgram p (S.searchUnbounded p)
        { session with heuristic := S.heuristic.reset session.heuristic }
      = .ok (record, (S.solve p session).session) := by
  rw [Solver.solve] at h ⊢
  cases ha : S.searchProgram p (S.searchUnbounded p)
      { session with heuristic := S.heuristic.reset session.heuristic } with
  | error stop => rw [ha] at h; cases h
  | ok pair =>
      rw [ha] at h
      cases h
      rfl

/-! ### Where an attempt stops -/

omit [Scalar α] in
/-- An attempt that stops at a question stops with the reply: for the error of the oracle, or for
its fault. -/
theorem Solver.ask_stop {sub : Subproblem α} {s : Session α β η ε} {stop : Stop α β η ε}
    (h : S.ask sub s = .error stop) :
    stop.session = s.afterReply sub (S.oracle.ask sub s.oracle)
      ∧ ((∃ e, (S.oracle.ask sub s.oracle).answer = .error (.error e)
            ∧ stop.cause = .error (.oracle e))
        ∨ ∃ f, (S.oracle.ask sub s.oracle).answer = .error (.fault f)
            ∧ stop.cause = .fault f) := by
  simp only [Solver.ask] at h
  split at h
  · cases h
  · rename_i e he
    cases h
    exact ⟨rfl, .inl ⟨e, he, rfl⟩⟩
  · rename_i f hf
    cases h
    exact ⟨rfl, .inr ⟨f, hf, rfl⟩⟩

/-- A child that cannot be placed was created, and asked for: the oracle stopped, or no fate follows
from its answer. -/
theorem Solver.place_stop {node : Node α} {s : State α β η ε} {stop : Stop α β η ε}
    (h : S.place p node s = .error stop) :
    stop.session = (s.session.note (.created node)).afterReply ⟨p, node.changes⟩
        (S.oracle.ask ⟨p, node.changes⟩ s.session.oracle)
      ∧ (S.ask ⟨p, node.changes⟩ (s.session.note (.created node)) = .error stop
        ∨ ∃ relaxation,
          (S.oracle.ask ⟨p, node.changes⟩ s.session.oracle).answer = .ok relaxation
            ∧ S.fate? p s.bracket.lower relaxation = none
            ∧ stop.cause = .error (.nodeAnswer node.id relaxation.kind)) := by
  rw [Solver.place] at h
  split at h
  · rename_i hask
    cases h
    exact ⟨(Solver.ask_stop hask).1, .inl hask⟩
  · rename_i relaxation _ hask
    obtain ⟨hanswer, rfl⟩ := Solver.ask_ok hask
    split at h
    · rename_i hfate
      cases h
      exact ⟨rfl, .inr ⟨relaxation, hanswer, hfate, rfl⟩⟩
    · cases h

/-- A node that cannot be expanded was not there, was not split — the selector names no coordinate
or one that is not there — or has a child that cannot be placed. -/
theorem Solver.expand_stop {s : State α β η ε} {stop : Stop α β η ε}
    (h : S.expand p s = .error stop) :
    (s.frontier.pop? = none ∧ stop.session = s.session)
      ∨ ∃ parent rest, s.frontier.pop? = some (parent, rest)
        ∧ ((stop.session = (s.select parent rest).session
            ∧ ((∃ var f, S.selector parent.vertex S.settings.integrality = some var
                ∧ stop.cause = .fault f)
              ∨ S.selector parent.vertex S.settings.integrality = none
                ∧ stop.cause = .error (.integralVertex parent.id)))
          ∨ ∃ var value, S.selector parent.vertex S.settings.integrality = some var
            ∧ parent.vertex[var]? = some value
            ∧ (S.branch p parent (s.select parent rest) (.down var value) = .error stop
              ∨ ∃ down, S.branch p parent (s.select parent rest) (.down var value) = .ok down
                ∧ S.branch p parent down (.up var value) = .error stop)) := by
  rw [Solver.expand] at h
  split at h
  · rename_i hpop
    cases h
    exact .inl ⟨hpop, rfl⟩
  · rename_i parent rest hpop
    refine .inr ⟨parent, rest, hpop, ?_⟩
    split at h
    · rename_i f hdecide
      obtain ⟨var, hvar⟩ := Selector.decide?_eq_error hdecide
      cases h
      exact .inl ⟨rfl, .inl ⟨var, f, hvar, rfl⟩⟩
    · rename_i hdecide
      cases h
      exact .inl ⟨rfl, .inr ⟨Selector.decide?_eq_none.mp hdecide, rfl⟩⟩
    · rename_i decision hdecide
      obtain ⟨var, value, hvar, hvalue, rfl⟩ := Selector.decide?_eq_some hdecide
      refine .inr ⟨var, value, hvar, hvalue, ?_⟩
      rw [Solver.split] at h
      split at h
      · rename_i hdown
        cases h
        exact .inl hdown
      · rename_i down hdown
        split at h
        · rename_i hup
          cases h
          exact .inr ⟨down, hdown, hup⟩
        · cases h

/-- A loop that stops comes to a node that cannot be expanded, and had no reason to stop there. -/
theorem Solver.explore_stop {nodes : ℕ} {s : State α β η ε} {stop : Stop α β η ε}
    (h : S.explore p nodes s = .error stop) :
    ∃ t, Reaches S p s t ∧ t.bracket.termination? t.frontier.isEmpty = none
      ∧ S.expand p t = .error stop := by
  induction nodes generalizing s with
  | zero =>
      rw [Solver.explore] at h
      cases h
  | succ nodes ih =>
      rw [Solver.explore] at h
      split at h
      · cases h
      · rename_i hnone
        split at h
        · rename_i hexpand
          cases h
          exact ⟨s, .refl s, hnone, hexpand⟩
        · rename_i u hu
          obtain ⟨t, run, ht⟩ := ih h
          exact ⟨t, .step hnone hu run, ht⟩

/-- A search below a root that stops cannot begin, or comes to a node that cannot be expanded. -/
theorem Solver.searchTree_stop {bound : α} {vertex : List α} {session : Session α β η ε}
    {stop : Stop α β η ε} (h : S.searchTree p bound vertex session = .error stop) :
    S.begin p bound vertex session = .error stop
      ∨ ∃ s t, S.begin p bound vertex session = .ok s ∧ Reaches S p s t
        ∧ t.bracket.termination? t.frontier.isEmpty = none ∧ S.expand p t = .error stop := by
  rw [Solver.searchTree] at h
  split at h
  · rename_i hbegin
    cases h
    exact .inl hbegin
  · rename_i s hbegin
    split at h
    · rename_i hexplore
      cases h
      obtain ⟨t, run, hexpand⟩ := Solver.explore_stop hexplore
      exact .inr ⟨s, t, hbegin, run, hexpand⟩
    · cases h

/-! ### Runs that are known to come to a value -/

/-- A run whose value is known to have some feature came to a value. -/
theorem exists_ok_of_toOption {κ ρ τ : Type} {result : Except κ ρ} {feature : ρ → τ} {a : τ}
    (h : result.toOption.map feature = some a) :
    ∃ value, result = .ok value ∧ feature value = a := by
  cases result with
  | error cause => cases h
  | ok value => exact ⟨value, rfl, Option.some.inj h⟩

end IntegerProgramming.Search
