import IntegerProgramming.Search.Explore

/-!
# Search — solving a program

The relaxation of the whole program comes first.  If its region is empty, so is the program; if
its vertex is integral, that is the solution; if it is fractional, the tree below it is searched.
If the objective grows without limit, the program itself may still have no integer point: the same
constraints are searched under a zero objective, and any answer but an empty one means that the
program is unbounded.

`Solver.solve` is one search; `solve` is the search with the simplex oracle, the first fractional
coordinate and seeded rounding.
-/

namespace IntegerProgramming.Search

/-- The end of a search: a record or the cause of its absence, and the session afterwards. -/
structure Outcome (α β η ε : Type) where
  result : Except (Failure (Error ε)) (Record α)
  session : Session α β η ε

/-- The end of an attempt to find a record. -/
def Outcome.ofAttempt {α β η ε : Type} :
    Attempt α β η ε (Record α × Session α β η ε) → Outcome α β η ε
  | .ok (record, session) => ⟨.ok record, session⟩
  | .error stop => ⟨.error stop.cause, stop.session⟩

section Solve

variable {α β η ε : Type} [Scalar α]

/-- The solution at an integral vertex of the root. -/
def rootSolution (p : Program α) (vertex : List α) : Solution α :=
  ⟨nearestIntegers vertex, p.value (nearestIntegers vertex)⟩

/-- The search of a program, given what to do if its relaxation is unbounded. -/
def Solver.searchProgram (S : Solver α β η ε) (p : Program α)
    (ifUnbounded : Session α β η ε → Attempt α β η ε (Record α × Session α β η ε))
    (session : Session α β η ε) : Attempt α β η ε (Record α × Session α β η ε) :=
  match S.ask ⟨p, []⟩ session with
  | .error stop => .error stop
  | .ok (root, session) =>
    match root with
    | .optimal bound vertex =>
      if isIntegral vertex S.settings.integrality then
        let s := rootSolution p vertex
        .ok (Record.atRoot s, session.note (.rootIntegral s.value))
      else S.searchTree p bound vertex session
    | .infeasible => .ok (Record.infeasible 0, session.note .rootInfeasible)
    | .unbounded => ifUnbounded session
    | .iterationLimit | .numericalError => session.fail (.rootAnswer root.kind)

/-- The search of the same constraints under a zero objective, which no relaxation can find
unbounded. -/
def Solver.probe (S : Solver α β η ε) (p : Program α) (session : Session α β η ε) :
    Attempt α β η ε (Record α × Session α β η ε) :=
  S.searchProgram p.withZeroObjective (fun session => session.fail .unboundedProbe) session

/-- What the probe of an unbounded program says about it. -/
def afterProbe (probe : Record α) : Record α :=
  if probe.status = .infeasible then Record.infeasible 0
  else Record.unbounded probe.stats.iterations

/-- The record of a program whose relaxation is unbounded. -/
def Solver.searchUnbounded (S : Solver α β η ε) (p : Program α) (session : Session α β η ε) :
    Attempt α β η ε (Record α × Session α β η ε) :=
  match S.probe p (session.note .rootUnbounded) with
  | .error stop => .error stop
  | .ok (probe, session) => .ok (afterProbe probe, session)

/-- One search.  The heuristic begins in its initial state, whatever was searched before. -/
def Solver.solve (S : Solver α β η ε) (p : Program α) (session : Session α β η ε) :
    Outcome α β η ε :=
  .ofAttempt (S.searchProgram p (S.searchUnbounded p)
    { session with heuristic := S.heuristic.reset session.heuristic })

/-- One search after another.  A fault ends the series; an error does not. -/
def Solver.solveInTurn (S : Solver α β η ε) :
    List (Program α) → Session α β η ε →
      List (Except (Failure (Error ε)) (Record α)) × Session α β η ε
  | [], session => ([], session)
  | p :: rest, session =>
    let outcome := S.solve p session
    match outcome.result with
    | .error (.fault f) => ([.error (.fault f)], outcome.session)
    | result =>
      let (results, session) := S.solveInTurn rest outcome.session
      (result :: results, session)

end Solve

/-! ### The standard solver -/

section Standard

variable {α : Type} [Scalar α]

/-- The simplex oracle, the first fractional coordinate and seeded rounding. -/
def Solver.standard (settings : Settings α) :
    Solver α Effort Random.Stream (LinearProgram.Error α) where
  settings
  oracle := simplexOracle settings.relaxation
  selector := firstFractional
  heuristic := Rounding.seeded settings.seed

/-- A session of the standard solver in which nothing has happened. -/
def Session.standard (settings : Settings α) :
    Session α Effort Random.Stream (LinearProgram.Error α) :=
  .new ⟨0, 0⟩ (.seeded settings.seed)

/-- The report on a search that ended with a record. -/
def Outcome.summarised {ε : Type} (o : Outcome α Effort Random.Stream ε) (verbose : Bool) :
    Outcome α Effort Random.Stream ε :=
  match o.result with
  | .error _ => o
  | .ok record =>
    { o with session := o.session.noteIf verbose (.summary record.status o.session.oracle) }

/-- The search of a program by the standard solver. -/
def solve (p : Program α) (settings : Settings α) :
    Outcome α Effort Random.Stream (LinearProgram.Error α) :=
  let session := (Session.standard settings).noteIf settings.verbose
    (.started p.numVars p.numConstraints settings.selection)
  ((Solver.standard settings).solve p session).summarised settings.verbose

end Standard

end IntegerProgramming.Search
