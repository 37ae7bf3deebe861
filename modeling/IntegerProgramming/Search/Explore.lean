import IntegerProgramming.Search.State

/-!
# Search — exploring the tree

From a fractional root the search takes one open node after another.  The node is split at the
coordinate that the selector names, and each of its two children has its relaxation solved and is
filed by the answer (`Fate`): an integral vertex competes for the incumbent, a fractional one
whose bound exceeds the lower bound stays open, and every other child is discarded.  The lower
bound that the second child has to exceed is the one after the first child was filed.

After both children the upper bound is taken from the open nodes, the bounds are recorded and the
iterations counted.  Each node adds two iterations, so the limit on them bounds the number of
nodes, and with it the length of the loop.

* `iterations_expand`: a node that is branched adds two iterations.
* `explore_of_termination`, `explore_succ`: the loop ends when there is a reason, and goes on with
  the next node when there is none.
-/

namespace IntegerProgramming.Search

variable {α β η ε : Type}

/-! ### The fate of a child -/

/-- The fate of a child by its relaxation; `none` if nothing follows from the answer. -/
def Solver.fate? [Scalar α] (S : Solver α β η ε) (p : Program α) (lower : α) :
    Relaxation α → Option (Fate α)
  | .optimal v x =>
    if lower < v then
      if isIntegral x S.settings.integrality then
        some (.candidate ⟨nearestIntegers x, p.value (nearestIntegers x)⟩)
      else some (.kept v x)
    else some (.pruned .optimal)
  | .infeasible => some (.pruned .infeasible)
  | .unbounded => some .discarded
  | .iterationLimit | .numericalError => none

/-- What a fate changes in the state. -/
def State.adopt [Scalar α] (s : State α β η ε) (node : Node α) : Fate α → State α β η ε
  | .candidate c =>
    if s.incumbent.improvedBy c then
      { s with
        incumbent := s.incumbent.offer c
        bracket := s.bracket.raise c.value
        session := s.session.note (.improved node c.value) }
    else s
  | .kept v x => { s with frontier := s.frontier.push (node.withRelaxation v x) }
  | .pruned _ | .discarded => { s with pruned := s.pruned + 1 }

/-- The state after a child met its fate. -/
def State.file [Scalar α] (s : State α β η ε) (node : Node α) (fate : Fate α) :
    State α β η ε :=
  State.adopt { s with session := s.session.note (.filed node fate) } node fate

/-- A new child has its relaxation solved and is filed. -/
def Solver.place [Scalar α] (S : Solver α β η ε) (p : Program α) (node : Node α)
    (s : State α β η ε) : Attempt α β η ε (State α β η ε) :=
  match S.ask ⟨p, node.changes⟩ (s.session.note (.created node)) with
  | .error stop => .error stop
  | .ok (relaxation, session) =>
    match S.fate? p s.bracket.lower relaxation with
    | none => session.fail (.nodeAnswer node.id relaxation.kind)
    | some fate => .ok ({ s with nextId := s.nextId + 1, session }.file node fate)

/-- The child of a node under a change. -/
def Solver.branch [Scalar α] (S : Solver α β η ε) (p : Program α) (parent : Node α)
    (s : State α β η ε) (change : BoundChange α) : Attempt α β η ε (State α β η ε) :=
  S.place p (parent.child s.nextId change) s

/-! ### One node -/

/-- Whether progress is reported after so many iterations. -/
def Settings.reports (settings : Settings α) (iterations : Nat) : Bool :=
  settings.verbose && iterations % max settings.logEvery 1 == 0

/-- The state after both children of a node were filed. -/
def Solver.settle [Scalar α] (S : Solver α β η ε) (s : State α β η ε) : State α β η ε :=
  let bracket := (s.bracket.refresh s.frontier.bestBound?).record.count
  { s with
    bracket
    session := s.session.noteIf (S.settings.reports bracket.iterations)
      (.progress bracket s.frontier.size) }

/-- Both children of a node. -/
def Solver.split [Scalar α] (S : Solver α β η ε) (p : Program α) (parent : Node α)
    (decision : Decision α) (s : State α β η ε) : Attempt α β η ε (State α β η ε) :=
  match S.branch p parent s decision.down with
  | .error stop => .error stop
  | .ok s =>
    match S.branch p parent s decision.up with
    | .error stop => .error stop
    | .ok s => .ok (S.settle s)

/-- The state after an open node was taken. -/
def State.select (s : State α β η ε) (node : Node α) (rest : Frontier α) : State α β η ε :=
  { s with
    frontier := rest
    explored := s.explored + 1
    session := s.session.note (.selected node) }

/-- The next open node is taken and split where the selector says. -/
def Solver.expand [Scalar α] (S : Solver α β η ε) (p : Program α) (s : State α β η ε) :
    Attempt α β η ε (State α β η ε) :=
  match s.frontier.pop? with
  | none => s.session.fail .nothingSelected
  | some (parent, rest) =>
    match S.selector.decide? parent.vertex S.settings.integrality with
    | .error f => (s.select parent rest).session.abort f
    | .ok none => (s.select parent rest).session.fail (.integralVertex parent.id)
    | .ok (some decision) => S.split p parent decision (s.select parent rest)

/-! ### The loop -/

/-- Nodes are split until there is a reason to stop; `nodes` more may be. -/
def Solver.explore [Scalar α] (S : Solver α β η ε) (p : Program α) :
    (nodes : Nat) → State α β η ε → Attempt α β η ε (Termination × State α β η ε)
  | 0, s => .ok ((s.bracket.termination? s.frontier.isEmpty).getD .iterationLimit, s)
  | nodes + 1, s =>
    match s.bracket.termination? s.frontier.isEmpty with
    | some reason => .ok (reason, s)
    | none =>
      match S.expand p s with
      | .error stop => .error stop
      | .ok s => S.explore p nodes s

/-! ### Beginning and end -/

/-- The state before the first node: the heuristic has looked for a point near the root vertex, and
the root is open. -/
def Solver.begin [Scalar α] (S : Solver α β η ε) (p : Program α) (bound : α) (vertex : List α)
    (session : Session α β η ε) : Attempt α β η ε (State α β η ε) :=
  let finding := S.heuristic.find p vertex session.heuristic
  let session := { session with heuristic := finding.state }
  let session := match finding.rounding with
    | none => session
    | some how => session.note (.rounded how)
  let bracket := Bracket.start bound S.settings.rule
  let frontier := (Frontier.empty S.settings.selection.policy).push
    (Node.root.withRelaxation bound vertex)
  match finding.point with
  | .error f => session.abort f
  | .ok none =>
    .ok ⟨bracket.record, .none, frontier, 1, 0, 0, session⟩
  | .ok (some x) =>
    let c : Solution α := ⟨x, p.value x⟩
    .ok ⟨(bracket.raise c.value).record, Incumbent.none.offer c, frontier, 1, 0, 0,
      session.note (.seeded c)⟩

/-- The record of a finished search.  Without an incumbent there is no integer point to report. -/
def State.report (s : State α β η ε) [Scalar α] (reason : Termination) : Record α :=
  match s.incumbent.best with
  | none =>
    ⟨.infeasible, none,
      { iterations := s.bracket.iterations, explored := s.explored, pruned := s.pruned }⟩
  | some best =>
    ⟨reason.status, some best,
      { iterations := s.bracket.iterations
        gap := s.bracket.gap
        history := s.bracket.history
        explored := s.explored
        pruned := s.pruned
        improvements := s.incumbent.improvements }⟩

/-- The search below a fractional root. -/
def Solver.searchTree [Scalar α] (S : Solver α β η ε) (p : Program α) (bound : α)
    (vertex : List α) (session : Session α β η ε) :
    Attempt α β η ε (Record α × Session α β η ε) :=
  match S.begin p bound vertex session with
  | .error stop => .error stop
  | .ok s =>
    match S.explore p S.settings.rule.nodeLimit s with
    | .error stop => .error stop
    | .ok (reason, s) =>
      .ok (s.report reason,
        s.session.note (.finished reason s.bracket.iterations s.explored s.pruned))

/-! ### Laws of the loop -/

theorem explore_succ [Scalar α] {S : Solver α β η ε} {p : Program α} {nodes : Nat}
    {s t : State α β η ε} (hs : s.bracket.termination? s.frontier.isEmpty = none)
    (ht : S.expand p s = .ok t) : S.explore p (nodes + 1) s = S.explore p nodes t := by
  rw [Solver.explore, hs, ht]

theorem explore_of_termination [Scalar α] {S : Solver α β η ε} {p : Program α} {nodes : Nat}
    {s : State α β η ε} {reason : Termination}
    (h : s.bracket.termination? s.frontier.isEmpty = some reason) :
    S.explore p nodes s = .ok (reason, s) := by
  cases nodes with
  | zero => rw [Solver.explore, h, Option.getD_some]
  | succ nodes => rw [Solver.explore, h]

theorem iterations_adopt [Scalar α] (s : State α β η ε) (node : Node α) (fate : Fate α) :
    (s.adopt node fate).bracket.iterations = s.bracket.iterations ∧
      (s.adopt node fate).bracket.rule = s.bracket.rule := by
  cases fate with
  | candidate c =>
    rw [State.adopt]
    split
    · exact ⟨rfl, rfl⟩
    · exact ⟨rfl, rfl⟩
  | kept v x => exact ⟨rfl, rfl⟩
  | pruned kind => exact ⟨rfl, rfl⟩
  | discarded => exact ⟨rfl, rfl⟩

theorem iterations_place [Scalar α] {S : Solver α β η ε} {p : Program α} {node : Node α}
    {s t : State α β η ε} (h : S.place p node s = .ok t) :
    t.bracket.iterations = s.bracket.iterations ∧ t.bracket.rule = s.bracket.rule := by
  unfold Solver.place at h
  split at h
  · cases h
  · split at h
    · cases h
    · cases h
      exact iterations_adopt _ _ _

theorem iterations_split [Scalar α] {S : Solver α β η ε} {p : Program α} {parent : Node α}
    {decision : Decision α} {s t : State α β η ε} (h : S.split p parent decision s = .ok t) :
    t.bracket.iterations = s.bracket.iterations + 2 ∧ t.bracket.rule = s.bracket.rule := by
  unfold Solver.split at h
  split at h
  · cases h
  · rename_i s₁ hdown
    split at h
    · cases h
    · rename_i s₂ hup
      cases h
      obtain ⟨hd, hd'⟩ := iterations_place hdown
      obtain ⟨hu, hu'⟩ := iterations_place hup
      exact ⟨congrArg (· + 2) (hu.trans hd), hu'.trans hd'⟩

/-- A node that is branched adds two iterations. -/
theorem iterations_expand [Scalar α] {S : Solver α β η ε} {p : Program α}
    {s t : State α β η ε} (h : S.expand p s = .ok t) :
    t.bracket.iterations = s.bracket.iterations + 2 ∧ t.bracket.rule = s.bracket.rule := by
  unfold Solver.expand at h
  split at h
  · cases h
  · split at h
    · cases h
    · cases h
    · have hs := iterations_split h
      exact hs

end IntegerProgramming.Search
