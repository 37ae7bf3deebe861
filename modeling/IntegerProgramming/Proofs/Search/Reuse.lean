import Mathlib
import IntegerProgramming.Proofs.Search.Failures
import IntegerProgramming.Proofs.Search.Lockstep

/-!
# Search — one search after another

What outlives a search does not show in the next one if the solver forgets: its oracle answers
whatever it has done before, and its heuristic begins each search in the same state
(`Solver.Forgetful`).

* `Solver.Forgetful.result_eq`: **the end of a search is the same in every session.**
* `Solver.Forgetful.inTurn`: in a series each search ends as it would alone.
* `Solver.reusable`: the solvers that are built from the simplex oracle and rounding can be used
  again.
-/

namespace IntegerProgramming.Search

variable {α β η ε : Type}

/-- Nothing that a solver remembers from one search to the next shows. -/
structure Solver.Forgetful (S : Solver α β η ε) : Prop where
  /-- The answers of the oracle do not depend on its state. -/
  answer : ∀ (sub : Subproblem α) (state state' : β),
    (S.oracle.ask sub state').answer = (S.oracle.ask sub state).answer
  /-- The heuristic is always reset to the same state. -/
  reset : ∀ state state' : η, S.heuristic.reset state' = S.heuristic.reset state

variable {S : Solver α β η ε}

/-- A forgetful solver can tell sessions apart by the state of the heuristic only. -/
theorem Solver.Forgetful.indistinct (forgetful : S.Forgetful) :
    Indistinct S fun s t => t.heuristic = s.heuristic where
  answer sub _ := forgetful.answer sub _ _
  reply sub h := by rw [Session.heuristic_afterReply, Session.heuristic_afterReply, h]
  note _ _ h _ _ := h
  heuristic h := h
  found _ _ := rfl

variable [Scalar α] {p : Program α}

/-- **The end of a search is the same in every session.** -/
theorem Solver.Forgetful.result_eq (forgetful : S.Forgetful) (session session' : Session α β η ε) :
    (S.solve p session').result = (S.solve p session).result :=
  Solver.solve_agree forgetful.indistinct (forgetful.reset _ _)

/-! ### Series -/

/-- In a series of searches from any session on, each one that is come to has this end; a series is
broken off only by a fault. -/
def Solver.InTurn (S : Solver α β η ε)
    (ending : Program α → Except (Failure (Error ε)) (Record α)) : Prop :=
  ∀ (programs : List (Program α)) (session : Session α β η ε) (i : ℕ) (p : Program α),
    programs[i]? = some p →
    (∀ j < i, ∀ f, (S.solveInTurn programs session).1[j]? ≠ some (.error (.fault f))) →
      (S.solveInTurn programs session).1[i]? = some (ending p)

/-- A series begins with the search of its first program, and goes on from there unless that was a
fault. -/
theorem Solver.solveInTurn_cons (S : Solver α β η ε) (p : Program α) (rest : List (Program α))
    (session : Session α β η ε) :
    ∃ later, (S.solveInTurn (p :: rest) session).1 = (S.solve p session).result :: later
      ∧ ((∀ f, (S.solve p session).result ≠ .error (.fault f)) →
        later = (S.solveInTurn rest (S.solve p session).session).1) := by
  rw [Solver.solveInTurn]
  dsimp only
  split
  · rename_i f hfault
    exact ⟨[], by rw [hfault], fun h => absurd hfault (h f)⟩
  · exact ⟨_, rfl, fun _ => rfl⟩

/-- **In a series each search ends as it would alone.** -/
theorem Solver.Forgetful.inTurn (forgetful : S.Forgetful) (fresh : Session α β η ε) :
    S.InTurn fun p => (S.solve p fresh).result := by
  intro programs
  induction programs with
  | nil =>
      intro session i p hp
      cases hp
  | cons q rest ih =>
      intro session i p hp earlier
      obtain ⟨later, hseries, hlater⟩ := S.solveInTurn_cons q rest session
      rw [hseries] at earlier ⊢
      cases i with
      | zero =>
          cases hp
          exact congrArg some (forgetful.result_eq fresh session)
      | succ i =>
          have first : ∀ f, (S.solve q session).result ≠ .error (.fault f) := fun f h =>
            earlier 0 (Nat.succ_pos i) f (congrArg some h)
          rw [List.getElem?_cons_succ, hlater first]
          refine ih _ i p hp fun j hj f => ?_
          rw [← hlater first]
          exact earlier (j + 1) (Nat.succ_lt_succ hj) f

/-! ### The solvers with the simplex oracle -/

/-- The simplex oracle, the first fractional coordinate, and rounding by tosses of a coin that
begins each search in the same state. -/
def Solver.rounding {σ : Type} (settings : Settings α) (relaxation : LinearProgram.Settings α)
    (coin : Random.Coin α σ) (initial : σ) : Solver α Effort σ (LinearProgram.Error α) where
  settings
  oracle := simplexOracle relaxation
  selector := firstFractional
  heuristic := Rounding.heuristic coin initial

theorem Solver.forgetful_rounding {σ : Type} (settings : Settings α)
    (relaxation : LinearProgram.Settings α) (coin : Random.Coin α σ) (initial : σ) :
    (Solver.rounding settings relaxation coin initial).Forgetful where
  answer sub state state' := answer_askSimplex relaxation sub state' state
  reset _ _ := rfl

omit [Scalar α] in
/-- The report on a search does not change its end. -/
theorem Outcome.result_summarised (o : Outcome α Effort Random.Stream ε) (verbose : Bool) :
    (o.summarised verbose).result = o.result := by
  rw [Outcome.summarised]
  split
  · rfl
  · rfl

/-- **A solver can be used again.**  A solver that is built from the simplex oracle, the first
fractional coordinate and rounding, and has solved any programs before, ends the search of the next
one as if it were new: in the same record, or with the same error.  The standard solver ends it as
the search of that program alone does. -/
theorem Solver.reusable {σ : Type} (settings : Settings α) (relaxation : LinearProgram.Settings α)
    (coin : Random.Coin α σ) (initial : σ) :
    ((Solver.rounding settings relaxation coin initial).InTurn fun p =>
        ((Solver.rounding settings relaxation coin initial).solve p (.new ⟨0, 0⟩ initial)).result)
      ∧ (Solver.standard settings).InTurn fun p => (Search.solve p settings).result := by
  refine ⟨(Solver.forgetful_rounding settings relaxation coin initial).inTurn _, ?_⟩
  have standard : (Solver.standard settings).Forgetful :=
    Solver.forgetful_rounding settings settings.relaxation (.ofWords Random.Stream.next)
      (.seeded settings.seed)
  have alone (p : Program α) :
      ((Solver.standard settings).solve p (Session.standard settings)).result
        = (Search.solve p settings).result :=
    (standard.result_eq _ _).trans (Outcome.result_summarised _ _).symm
  intro programs session i p hp earlier
  have inTurn := standard.inTurn (Session.standard settings) programs session i p hp earlier
  exact inTurn.trans (congrArg some (alone p))

/-- The greatest `x` where `2 x ≤ 3`. -/
def edge : Program ℚ := ⟨[1], .ofEntries 1 [[(0, 2)]], [3]⟩

/-- A solver whose linear programs may take one pivot each. -/
def frugalSolver : Solver ExtRat Effort Random.Steps (LinearProgram.Error ExtRat) :=
  .rounding .standard { LinearProgram.Settings.standard with pivotLimit := 1 }
    (.ofWords Random.Steps.next) ⟨0, 0⟩

/-- Two pivots are too many, so the search of the square fails; that of the edge after it ends as it
would alone. -/
theorem reusable_edge :
    ∃ record,
      (frugalSolver.solveInTurn [square.embed, edge.embed] (.new ⟨0, 0⟩ ⟨0, 0⟩)).1[0]?
          = some (Except.error (.error (.rootAnswer .iterationLimit)))
        ∧ (frugalSolver.solve edge.embed (.new ⟨0, 0⟩ ⟨0, 0⟩)).result = .ok record
        ∧ record.status = .optimal
        ∧ (frugalSolver.solveInTurn [square.embed, edge.embed] (.new ⟨0, 0⟩ ⟨0, 0⟩)).1[1]?
          = some (Except.ok record) := by
  have failed : (frugalSolver.solve square.embed (.new ⟨0, 0⟩ ⟨0, 0⟩)).result
      = .error (.error (.rootAnswer .iterationLimit)) :=
    Outcome.result_eq_error_iff.mpr (by decide +kernel)
  obtain ⟨record, h, hstatus⟩ : ∃ record,
      (frugalSolver.solve edge.embed (.new ⟨0, 0⟩ ⟨0, 0⟩)).result = .ok record
        ∧ record.status = .optimal := exists_ok_of_toOption (by decide +kernel)
  have inTurn := (Solver.reusable .standard
    { LinearProgram.Settings.standard with pivotLimit := 1 } (.ofWords Random.Steps.next)
    (⟨0, 0⟩ : Random.Steps)).1 [square.embed, edge.embed] (.new ⟨0, 0⟩ ⟨0, 0⟩)
  have first := (inTurn 0 square.embed rfl (by simp)).trans (congrArg some failed)
  refine ⟨record, first, h, hstatus, ?_⟩
  refine (inTurn 1 edge.embed rfl fun j hj f => ?_).trans (congrArg some h)
  cases Nat.lt_one_iff.mp hj
  rw [first]
  rintro ⟨⟩

end IntegerProgramming.Search
