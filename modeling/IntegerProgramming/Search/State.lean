import IntegerProgramming.Branching
import IntegerProgramming.Incumbent
import IntegerProgramming.Search.Error
import IntegerProgramming.Search.Event
import IntegerProgramming.Search.Settings

/-!
# Search — strategies, sessions and states

A `Solver` joins settings with three strategies: the oracle that solves relaxations, the selector
that chooses where to branch, and the heuristic that looks for a first point.  A `Session` is what
outlives a search — the states of oracle and heuristic, and the journal.  A `State` is what a
search knows whenever it is about to take the next node.

An attempt either comes to a value or stops; a stop keeps the session as it was at that moment.
-/

namespace IntegerProgramming.Search

/-- Settings and strategies of a search.  `β` and `η` are the states of the oracle and of the
heuristic, and `ε` is what the oracle reports when it fails. -/
structure Solver (α β η ε : Type) where
  settings : Settings α
  oracle : Oracle α β ε
  selector : Selector α
  heuristic : Heuristic α η

/-- What outlives a search. -/
structure Session (α β η ε : Type) where
  /-- The state of the oracle. -/
  oracle : β
  /-- The state of the heuristic. -/
  heuristic : η
  journal : Journal α ε

/-- Why and where a search stopped without a record. -/
structure Stop (α β η ε : Type) where
  cause : Failure (Error ε)
  session : Session α β η ε

/-- What comes to a value or stops. -/
abbrev Attempt (α β η ε τ : Type) := Except (Stop α β η ε) τ

/-- What a search knows. -/
structure State (α β η ε : Type) where
  bracket : Bracket α
  incumbent : Incumbent α
  frontier : Frontier α
  /-- The number of the next child. -/
  nextId : Nat
  /-- Nodes branched so far. -/
  explored : Nat
  /-- Children discarded so far. -/
  pruned : Nat
  session : Session α β η ε

section Session

variable {α β η ε : Type}

/-- A session in which nothing has happened. -/
def Session.new (oracle : β) (heuristic : η) : Session α β η ε :=
  ⟨oracle, heuristic, #[]⟩

/-- One more event. -/
def Session.note (s : Session α β η ε) (e : Event α ε) : Session α β η ε :=
  { s with journal := s.journal.push e }

/-- The event, if there is one. -/
def Session.noteIf (s : Session α β η ε) (condition : Bool) (e : Event α ε) :
    Session α β η ε :=
  if condition then s.note e else s

/-- A stop for an error. -/
def Session.fail {τ : Type} (s : Session α β η ε) (e : Error ε) : Attempt α β η ε τ :=
  .error ⟨.error e, s⟩

/-- A stop for a fault. -/
def Session.abort {τ : Type} (s : Session α β η ε) (f : Fault) : Attempt α β η ε τ :=
  .error ⟨.fault f, s⟩

/-- The session after a reply to a question. -/
def Session.afterReply (s : Session α β η ε) (sub : Subproblem α) (reply : Reply α β ε) :
    Session α β η ε :=
  { (reply.solved.foldl (fun s result => s.note (.solved result)) s).note
      (.asked sub reply.answer) with
    oracle := reply.state }

/-- The relaxation of a subproblem. -/
def Solver.ask (S : Solver α β η ε) (sub : Subproblem α) (s : Session α β η ε) :
    Attempt α β η ε (Relaxation α × Session α β η ε) :=
  let reply := S.oracle.ask sub s.oracle
  let s := s.afterReply sub reply
  match reply.answer with
  | .ok relaxation => .ok (relaxation, s)
  | .error (.error e) => s.fail (.oracle e)
  | .error (.fault f) => s.abort f

end Session

end IntegerProgramming.Search
