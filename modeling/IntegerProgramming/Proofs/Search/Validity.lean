import Mathlib
import IntegerProgramming.Proofs.LinearProgram.Acceptance
import IntegerProgramming.Proofs.LinearProgram.Vertices
import IntegerProgramming.Proofs.Search.Failures
import IntegerProgramming.Proofs.Search.Questions
import IntegerProgramming.Proofs.Search.Relaxations

/-!
# Search — what is accepted once is never turned down

An integer program is validated when it is made, and the linear program of each region again, first
over nonnegative variables and then over its box.  The tests agree: what passes the first passes all
that follow, as long as the changes are about variables of the program and their values are finite.
That is so at the root, and it passes from a region to its parts, since the floor and the ceiling of
a finite number are finite.  A box that the changes leave empty is seen before it is tested.

* `Subproblem.Askable.answer_simplexOracle`: the simplex oracle answers every such question.
* `hereditary_valid`: **a part of such a region is such a region**, if the vertex is finite.
* `Solver.validated`: **dense data are accepted for both kinds of programs or for neither**, and
  from then on nothing is turned down: the simplex oracle answers, and no search fails for it.
-/

namespace IntegerProgramming

/-! ### Questions that are answered -/

variable {α : Type} [Scalar α]

/-- The changes are about variables of the program, and their values are finite. -/
structure Subproblem.Askable (sub : Subproblem α) : Prop where
  inRange : ∀ change ∈ sub.changes, change.var < sub.program.numVars
  finite : ∀ change ∈ sub.changes, isFinite change.value = true

theorem Subproblem.askable_whole (q : Program α) : (Subproblem.mk q []).Askable :=
  ⟨by simp, by simp⟩

theorem Subproblem.Askable.part {q : Program α} {changes : List (BoundChange α)}
    (h : (Subproblem.mk q changes).Askable) {change : BoundChange α}
    (inRange : change.var < q.numVars) (finite : isFinite change.value = true) :
    (Subproblem.mk q (changes ++ [change])).Askable := by
  constructor
  · exact List.forall_mem_append.mpr ⟨h.inRange, List.forall_mem_singleton.mpr inRange⟩
  · exact List.forall_mem_append.mpr ⟨h.finite, List.forall_mem_singleton.mpr finite⟩

/-- The probe of an accepted program is accepted. -/
theorem Program.validate_withZeroObjective [LawfulScalar α] {p : Program α}
    (valid : p.validate = .ok ()) : p.withZeroObjective.validate = .ok () := by
  rw [validate_eq_ok_iff, hasFiniteData, Bool.and_eq_true, Bool.and_eq_true] at valid ⊢
  obtain ⟨rows, cols, ⟨-, limits⟩, matrix⟩ := valid
  refine ⟨rows, cols.trans p.numVars_withZeroObjective.symm, ⟨?_, limits⟩, matrix⟩
  rw [withZeroObjective, List.all_eq_true]
  intro v hv
  exact List.eq_of_mem_replicate hv ▸ LawfulScalar.finite_zero

/-- **The simplex oracle answers**, and an optimum comes with a vertex of the program. -/
theorem Subproblem.Askable.answer_simplexOracle [LawfulScalar α] {sub : Subproblem α}
    (valid : sub.program.validate = .ok ()) (h : sub.Askable) (s : LinearProgram.Settings α)
    (e : Effort) : ∃ relaxation, ((simplexOracle s).ask sub e).answer = .ok relaxation
      ∧ ∀ bound vertex, relaxation = .optimal bound vertex →
        vertex.length = sub.program.numVars := by
  obtain ⟨box, hbox⟩ := Subproblem.exists_box? h.inRange
  refine ⟨_, IntegerProgramming.answer_simplexOracle s valid h.finite hbox e,
    fun bound vertex hverdict => ?_⟩
  exact LinearProgram.length_of_optimum (Relaxation.ofVerdict_eq_optimal hverdict)

end IntegerProgramming

namespace IntegerProgramming.Search

variable {α η : Type} [Scalar α]

/-- A region of an accepted program, by changes that the simplex oracle takes. -/
def Valid (sub : Subproblem α) : Prop := sub.program.validate = .ok () ∧ sub.Askable

variable [LawfulNumbers α]

/-- **A part of such a region is such a region**, if it is cut at a finite vertex. -/
theorem hereditary_valid {q : Program α} (valid : q.validate = .ok ())
    (s : LinearProgram.Settings α) :
    Hereditary (simplexOracle s) (fun x => x.all isFinite = true) q Valid where
  whole := ⟨valid, Subproblem.askable_whole q⟩
  part {changes state bound vertex var v} h answer finite hv := by
    obtain ⟨relaxation, answered, length⟩ := h.2.answer_simplexOracle h.1 s state
    have inRange : var < q.numVars :=
      length bound vertex (Except.ok.inj (answered.symm.trans answer)) ▸
        (List.getElem?_eq_some_iff.mp hv).1
    have number : isFinite v = true := List.all_eq_true.mp finite v (List.mem_of_getElem? hv)
    exact ⟨⟨valid, h.2.part inRange (LawfulNumbers.finite_floor number)⟩,
      ⟨valid, h.2.part inRange (LawfulNumbers.finite_ceil number)⟩⟩

/-- A search with the simplex oracle does not fail for it, if all vertices are finite. -/
theorem Solver.result_ne_oracle {S : Solver α Effort η (LinearProgram.Error α)}
    {s : LinearProgram.Settings α} (oracle : S.oracle = simplexOracle s) {p : Program α}
    (valid : p.validate = .ok ()) (session : Session α Effort η (LinearProgram.Error α)) :
    ∃ events, session.Writes (S.solve p session).session events
      ∧ ((∀ sub bound vertex, .asked sub (.ok (.optimal bound vertex)) ∈ events →
          vertex.all isFinite = true) →
        ∀ err, (S.solve p session).result ≠ .error (.error (.oracle err))) := by
  obtain ⟨events, writes, ends, -⟩ := S.solve_accounts p session
  obtain ⟨events', writes', conforms⟩ := S.asks_hereditary
    (oracle ▸ hereditary_valid valid s)
    (oracle ▸ hereditary_valid (Program.validate_withZeroObjective valid) s) session
  cases List.append_cancel_left (writes'.symm.trans writes)
  refine ⟨events, writes, fun finite err failed => ?_⟩
  have given : ∀ e ∈ events, e.Gives fun x => x.all isFinite = true :=
    forall_gives_iff.mpr finite
  -- the last event would be a question without an answer
  obtain ⟨before, e, rfl, fatal⟩ := (ends.eq_some_iff _).mp (Outcome.result_eq_error_iff.mp failed)
  cases fatal with
  | oracle =>
      obtain ⟨⟨valid, askable⟩, state, answer⟩ := conforms given _
        (List.mem_append_right _ (List.mem_singleton_self _))
      obtain ⟨relaxation, answered, -⟩ := askable.answer_simplexOracle valid s state
      rw [oracle] at answer
      cases answer.symm.trans answered

/-- **What is accepted once is never turned down.**  Dense data are accepted for an integer program
just when they are accepted for a linear one: if the shapes agree and every number is finite.  For
an accepted program and changes about its variables, with finite values, the simplex oracle has an
answer at any settings.  And no search with that oracle fails for it, whatever the other strategies
are, if every vertex that it is given is finite. -/
theorem Solver.validated :
    (∀ rows : List (List α), ∀ limits objective : List α,
        ((∃ p, Program.ofSource (.dense rows) limits objective = .ok p)
            ↔ ∃ p, LinearProgram.ofSource objective (.dense rows) limits = .ok p)
          ∧ ((∃ p, Program.ofSource (.dense rows) limits objective = .ok p)
            ↔ DenseData rows limits objective))
      ∧ ∀ p : Program α, p.validate = .ok () →
        (∀ (s : LinearProgram.Settings α) (changes : List (BoundChange α)) (e : Effort),
            (Subproblem.mk p changes).Askable →
              ∃ relaxation, ((simplexOracle s).ask ⟨p, changes⟩ e).answer = .ok relaxation)
          ∧ ∀ (S : Solver α Effort η (LinearProgram.Error α)) (s : LinearProgram.Settings α)
            (session : Session α Effort η (LinearProgram.Error α)), S.oracle = simplexOracle s →
              ∃ events, session.Writes (S.solve p session).session events
                ∧ ((∀ sub bound vertex, .asked sub (.ok (.optimal bound vertex)) ∈ events →
                    vertex.all isFinite = true) →
                  ∀ err, (S.solve p session).result ≠ .error (.error (.oracle err))) := by
  refine ⟨fun rows limits objective => ⟨?_, Program.exists_ofSource_dense_iff⟩,
    fun p valid => ⟨fun s changes e askable => ?_, fun S s session oracle => ?_⟩⟩
  · rw [Program.exists_ofSource_dense_iff, LinearProgram.exists_ofSource_dense_iff]
  · obtain ⟨relaxation, answer, -⟩ := askable.answer_simplexOracle valid s e
    exact ⟨relaxation, answer⟩
  · exact Solver.result_ne_oracle oracle valid session

open ExtRat (num)

/-- The search of the square with the simplex oracle. -/
def simplexSolver : Solver ExtRat Effort Unit (LinearProgram.Error ExtRat) where
  settings := squareSolver.settings
  oracle := simplexOracle .standard
  selector := squareSolver.selector
  heuristic := squareSolver.heuristic

/-- The square from its dense rows, zeros included: it is accepted for both kinds of programs, the
oracle answers for crossed and negative bounds, and the search does not fail for it. -/
theorem validated_square :
    ∃ p : Program ExtRat,
      Program.ofSource (.dense [[num 2, 0], [0, num 2]]) [num 3, num 3] [num 1, num 1] = .ok p
        ∧ p.validate = .ok ()
        ∧ (∃ q, LinearProgram.ofSource [num 1, num 1] (.dense [[num 2, 0], [0, num 2]])
          [num 3, num 3] = .ok q)
        ∧ (Subproblem.mk p [⟨0, .lower, num 2⟩, ⟨1, .upper, num (-1)⟩]).Askable
        ∧ (∃ relaxation, ((simplexOracle (.standard : LinearProgram.Settings ExtRat)).ask
          ⟨p, [⟨0, .lower, num 2⟩, ⟨1, .upper, num (-1)⟩]⟩ ⟨0, 0⟩).answer = .ok relaxation)
        ∧ simplexSolver.oracle = simplexOracle .standard
        ∧ (∀ sub bound vertex, .asked sub (.ok (.optimal bound vertex))
          ∈ (simplexSolver.solve p (.new ⟨0, 0⟩ ())).session.journal.toList →
            vertex.all isFinite = true)
        ∧ ∀ err,
          (simplexSolver.solve p (.new ⟨0, 0⟩ ())).result ≠ .error (.error (.oracle err)) := by
  obtain ⟨both, search⟩ := Solver.validated (α := ExtRat) (η := Unit)
  have accepted : Program.ofSource (.dense [[num 2, 0], [0, num 2]]) [num 3, num 3] [num 1, num 1]
      = .ok square.embed := by rfl
  have valid : square.embed.validate = .ok () := by decide +kernel
  have askable : (Subproblem.mk square.embed [⟨0, .lower, num 2⟩, ⟨1, .upper, num (-1)⟩]).Askable :=
    ⟨by decide, by decide +kernel⟩
  have computed :
      ((calls (simplexSolver.solve square.embed (.new ⟨0, 0⟩ ())).session.journal.toList).all
        fun call => call.2.toOption.all fun relaxation => relaxation.vertex.all isFinite) = true :=
    by decide +kernel
  have finite : ∀ sub bound vertex, .asked sub (.ok (.optimal bound vertex))
      ∈ (simplexSolver.solve square.embed (.new ⟨0, 0⟩ ())).session.journal.toList →
        vertex.all isFinite = true := by
    intro sub bound vertex he
    exact List.all_eq_true.mp computed (sub, .ok (.optimal bound vertex))
      (List.mem_filterMap.mpr ⟨_, he, rfl⟩)
  obtain ⟨oracle, runs⟩ := search square.embed valid
  obtain ⟨events, writes, sound⟩ := runs simplexSolver .standard (.new ⟨0, 0⟩ ()) rfl
  have heq : (simplexSolver.solve square.embed (.new ⟨0, 0⟩ ())).session.journal.toList = events :=
    writes
  exact ⟨square.embed, accepted, valid, (both _ _ _).1.mp ⟨_, accepted⟩, askable,
    oracle _ _ _ askable, rfl, finite, sound (heq ▸ finite)⟩

end IntegerProgramming.Search
