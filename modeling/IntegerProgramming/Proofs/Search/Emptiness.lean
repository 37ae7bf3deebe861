import Mathlib
import IntegerProgramming.Proofs.Search.Optimality

/-!
# Search — what the status `infeasible` is worth

A search without an incumbent reports that there is no integer point, whatever made it stop.  With
exact answers that is true when the root has no point, and when the frontier was exhausted; it need
not be true when the iterations ran out, because nodes that are still open may admit integer points.

**The report is right exactly when no integer point was left open at the limit**
(`Solver.infeasible_iff`), be it in the search of the program or in the probe of an unbounded one.
-/

namespace IntegerProgramming.Search

open ExtRat (num innerProd reach)

variable {β η ε : Type} {S : Solver ExtRat β η ε} {P : Program ℚ}

/-! ### Where a search stops -/

/-- The search below the fractional root of a program stops in a state for a reason. -/
def Solver.StopsAt {α : Type} [Scalar α] (S : Solver α β η ε) (p : Program α)
    (session : Session α β η ε) (s : State α β η ε) (reason : Termination) : Prop :=
  ∃ bound vertex between start, S.ask ⟨p, []⟩ session = .ok (.optimal bound vertex, between)
    ∧ S.begin p bound vertex between = .ok start ∧ Reaches S p start s
    ∧ s.bracket.termination? s.frontier.isEmpty = some reason

/-- The search of a program, or of the probe that an unbounded one is given, stops in a state for a
reason. -/
inductive Solver.Stops {α : Type} [Scalar α] (S : Solver α β η ε) (p : Program α)
    (session : Session α β η ε) (s : State α β η ε) (reason : Termination) : Prop where
  | program (h : S.StopsAt p { session with heuristic := S.heuristic.reset session.heuristic } s
      reason)
  | probe {between : Session α β η ε}
      (unbounded : S.ask ⟨p, []⟩
          { session with heuristic := S.heuristic.reset session.heuristic }
        = .ok (.unbounded, between))
      (h : S.StopsAt p.withZeroObjective (between.note .rootUnbounded) s reason)

/-- The search of the program stopped at its limit with a node open that admits the point. -/
def Solver.LeavesOpen (S : Solver ExtRat β η ε) (p : Program ExtRat)
    (session : Session ExtRat β η ε) (z : List ℤ) : Prop :=
  ∃ s, S.Stops p session s .iterationLimit
    ∧ ∃ node ∈ s.frontier.nodes, Admits node.changes (lattice z)

/-- The objective has no part in the constraints. -/
theorem feasible_withZeroObjective {t : ℚ} {x : List ℚ} (h : P.FeasibleWithin t x) :
    P.withZeroObjective.FeasibleWithin t x :=
  ⟨h.length.trans (P.numVars_withZeroObjective).symm, h.lower, h.limits⟩

/-! ### Without an incumbent -/

theorem State.report_infeasible {s : State ExtRat β η ε} {reason : Termination}
    (h : (s.report reason).status = .infeasible) : s.incumbent.best = none := by
  rw [State.report] at h
  cases hb : s.incumbent.best with
  | none => rfl
  | some c =>
      rw [hb] at h
      cases reason <;> cases h

/-- Without an incumbent every integer point is admitted by an open node, and only the limit can
have stopped the search. -/
theorem Settled.open_of_no_incumbent {s : State ExtRat β η ε} (settled : Settled P S s)
    (hbest : s.incumbent.best = none) {reason : Termination}
    (hstop : s.bracket.termination? s.frontier.isEmpty = some reason) {z : List ℤ}
    (hz : P.Feasible (lattice z)) :
    reason = .iterationLimit ∧ ∃ node ∈ s.frontier.nodes, Admits node.changes (lattice z) := by
  have hlower : s.bracket.hasLower = false := by
    rw [Bracket.hasLower, settled.lower, Incumbent.value, hbest]
    rfl
  rcases settled.covered z hz with ⟨node, hnode, ha⟩ | ⟨c, -, hc, -⟩
  · refine ⟨?_, node, hnode, ha⟩
    rcases Bracket.termination?_eq_some hstop with ⟨-, hr⟩ | ⟨-, ha⟩ | ⟨hi, -⟩ | ⟨-, ho⟩
    · simp [Bracket.relativeGapClosed, hlower] at hr
    · simp [Bracket.absoluteGapClosed, hlower] at ha
    · exact hi
    · rw [Frontier.isEmpty, List.isEmpty_iff] at ho
      exact absurd (ho ▸ hnode) List.not_mem_nil
  · rw [hbest] at hc
    cases hc

/-- A search that reports the absence of integer points had an unbounded root, or each integer point
of the program is still open at the limit. -/
theorem Solver.searchProgram_infeasible (hP : P.Regular) (ht : 0 ≤ S.settings.integrality)
    (hS : S.selector.InRange) (hH : S.heuristic.FeasibleOn P.embed)
    (hO : S.oracle.ExactOn P.embed)
    {ifUnbounded : Session ExtRat β η ε →
      Attempt ExtRat β η ε (Record ExtRat × Session ExtRat β η ε)}
    {session session' : Session ExtRat β η ε} {record : Record ExtRat}
    (h : S.searchProgram P.embed ifUnbounded session = .ok (record, session'))
    (hs : record.status = .infeasible) :
    (∃ between, S.ask ⟨P.embed, []⟩ session = .ok (.unbounded, between)
        ∧ ifUnbounded between = .ok (record, session'))
      ∨ ∀ z, P.Feasible (lattice z) → ∃ s, S.StopsAt P.embed session s .iterationLimit
          ∧ ∃ node ∈ s.frontier.nodes, Admits node.changes (lattice z) := by
  obtain ⟨root, between, hask, hroot⟩ := Solver.searchProgram_cases h
  have exact := hO [] _ root (fun c hc => absurd hc List.not_mem_nil) (Solver.ask_ok hask).1
  rcases hroot with ⟨bound, vertex, rfl, -, rfl, -⟩ | ⟨bound, vertex, rfl, -, htree⟩
    | ⟨rfl, -, -⟩ | ⟨rfl, hunbounded⟩
  · cases hs
  · obtain ⟨start, s, reason, hbegin, run, hstop, rfl, -⟩ := Solver.searchTree_ok htree
    have settled := (Settled.begin hP hH ht exact hbegin).reaches hP hO ht hS run
    refine .inr fun z hz => ?_
    obtain ⟨rfl, node, hnode, ha⟩ :=
      settled.open_of_no_incumbent (State.report_infeasible hs) hstop hz
    exact ⟨s, ⟨bound, vertex, between, start, hask, hbegin, run, hstop⟩, node, hnode, ha⟩
  · refine .inr fun z hz => absurd ?_ (exact (lattice z))
    exact contains_of_feasible hP hz fun c hc => absurd hc List.not_mem_nil
  · exact .inl ⟨between, hask, hunbounded⟩

/-- **The report is right exactly when nothing was left open.**  A record with the status
`infeasible` tells the truth if no integer point that is still open at the limit satisfies the
constraints, and only then. -/
theorem Solver.infeasible_iff {p : Program ExtRat} (sound : S.SoundOn p)
    (hH₀ : S.heuristic.FeasibleOn p.withZeroObjective)
    (hO₀ : S.oracle.ExactOn p.withZeroObjective)
    {session : Session ExtRat β η ε} {record : Record ExtRat}
    (h : (S.solve p session).result = .ok record) (hs : record.status = .infeasible) :
    (∀ z, ¬ p.satisfies (nums (lattice z)) 0 = true)
      ↔ ∀ z, S.LeavesOpen p session z → ¬ p.satisfies (nums (lattice z)) 0 = true := by
  obtain ⟨valid, wf, ht, hS, hH, hO⟩ := sound
  refine ⟨fun none z _ => none z, fun open_empty z hz => open_empty z ?_ hz⟩
  obtain ⟨P, hP, rfl⟩ := Program.exists_regular valid wf
  have hz' := (Program.satisfies_embed_iff hP).mp hz
  rcases Solver.searchProgram_infeasible hP ht hS hH hO (Solver.solve_ok h) hs
    with ⟨between, hask, hunbounded⟩ | hopen
  · -- the probe searched the same constraints
    obtain ⟨probe, hprobe, rfl⟩ := Solver.searchUnbounded_ok hunbounded
    have hprobe_status : probe.status = .infeasible := by
      rw [afterProbe] at hs
      split at hs
      · assumption
      · cases hs
    rw [Solver.probe, Program.withZeroObjective_embed] at hprobe
    rw [Program.withZeroObjective_embed] at hH₀ hO₀
    rcases Solver.searchProgram_infeasible hP.withZeroObjective ht hS hH₀ hO₀ hprobe hprobe_status
      with ⟨_, _, hfail⟩ | hopen
    · cases hfail
    · obtain ⟨s, hstops, hnode⟩ := hopen z (feasible_withZeroObjective hz')
      rw [← Program.withZeroObjective_embed] at hstops
      exact ⟨s, .probe hask hstops, hnode⟩
  · obtain ⟨s, hstops, hnode⟩ := hopen z hz'
    exact ⟨s, .program hstops, hnode⟩

/-- The search of the square that stops after one node, with answers from its table. -/
def hastySolver : Solver ExtRat Unit Unit Unit where
  settings := { Settings.standard with rule := ⟨0, 0, 0⟩, integrality := 0 }
  oracle := .ofTable square.embed squareTable
  selector := firstFractional
  heuristic := .never

theorem soundOn_hastySolver : hastySolver.SoundOn square.embed where
  valid := by decide +kernel
  stored := by decide +kernel
  integrality := by decide +kernel
  selector := firstFractional_inRange
  heuristic := Heuristic.feasibleOn_never square.embed
  oracle := Oracle.exactOn_ofTable solvedBy_square square.embed

theorem hastySolver_infeasible : ∃ record,
    (hastySolver.solve square.embed (.new () ())).result = .ok record
      ∧ record.status = .infeasible :=
  exists_ok_of_toOption (by decide +kernel)

/-- At the square, whose node `x ≤ 1` is open at the limit. -/
theorem infeasible_iff_square :
    hastySolver.SoundOn square.embed
      ∧ hastySolver.heuristic.FeasibleOn square.embed.withZeroObjective
      ∧ hastySolver.oracle.ExactOn square.embed.withZeroObjective
      ∧ ∃ record, (hastySolver.solve square.embed (.new () ())).result = .ok record
        ∧ record.status = .infeasible
        ∧ ((∀ z, ¬ square.embed.satisfies (nums (lattice z)) 0 = true)
          ↔ ∀ z, hastySolver.LeavesOpen square.embed (.new () ()) z →
            ¬ square.embed.satisfies (nums (lattice z)) 0 = true) := by
  obtain ⟨record, h, hs⟩ := hastySolver_infeasible
  have feasible : hastySolver.heuristic.FeasibleOn square.embed.withZeroObjective :=
    Heuristic.feasibleOn_never _
  have exact : hastySolver.oracle.ExactOn square.embed.withZeroObjective :=
    Oracle.exactOn_ofTable solvedBy_square _
  exact ⟨soundOn_hastySolver, feasible, exact, record, h, hs,
    Solver.infeasible_iff soundOn_hastySolver feasible exact h hs⟩

/-- The square has an integer point, and a search that stops after one node reports that it has
none, although every answer and every point that its strategies give is right for every program. -/
theorem infeasible_report_of_square :
    hastySolver.settings.integrality = 0 ∧ hastySolver.SoundOn square.embed
      ∧ (∀ q, hastySolver.heuristic.FeasibleOn q) ∧ (∀ q, hastySolver.oracle.ExactOn q)
      ∧ (∃ record, (hastySolver.solve square.embed (.new () ())).result = .ok record
        ∧ record.status = .infeasible)
      ∧ square.embed.satisfies (nums (lattice [0, 0])) 0 = true :=
  ⟨rfl, soundOn_hastySolver, Heuristic.feasibleOn_never, Oracle.exactOn_ofTable solvedBy_square,
    hastySolver_infeasible, by decide +kernel⟩

end IntegerProgramming.Search
