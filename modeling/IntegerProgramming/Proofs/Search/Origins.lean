import Mathlib
import IntegerProgramming.Proofs.Search.Steps

/-!
# Search — where a point comes from

The point of a record comes from a vertex that the oracle gave for the program (`Origin`): it is a
rounding of the vertex that satisfies the constraints, or the nearest integers of a vertex that
counts as integral.  The journal of the run shows the answer with the vertex.

* `Session.Extends`: a journal only grows.
* `Rounding.heuristic_checks`: **what the rounding heuristic finds satisfies the constraints.**
* `Traced.reaches`, `Solver.origin`: **every incumbent, and every reported point, has an origin.**
-/

namespace IntegerProgramming

/-! ### Roundings -/

/-- Each coordinate is the floor of a coordinate, its ceiling, the number after the floor, or zero.
-/
def Rounds {α : Type} [Scalar α] (v x : List α) : Prop :=
  List.Forall₂ (fun a b => b = Scalar.floor a ∨ b = Scalar.ceil a ∨ b = Scalar.floor a + 1 ∨ b = 0)
    v x

/-- The heuristic finds nothing but roundings that satisfy the constraints. -/
def Heuristic.Checks {α η : Type} [Scalar α] (heuristic : Heuristic α η) : Prop :=
  ∀ (p : Program α) (v : List α) (s : η) (x : List α),
    (heuristic.find p v s).point = .ok (some x) →
      p.satisfies x Rounding.tolerance = true ∧ Rounds v x

namespace Rounding

variable {α σ : Type} [Scalar α] {v x : List α}

theorem rounds_map {f : α → α}
    (h : ∀ a, f a = Scalar.floor a ∨ f a = Scalar.ceil a ∨ f a = Scalar.floor a + 1 ∨ f a = 0) :
    Rounds v (v.map f) := by
  rw [Rounds, List.forall₂_map_right_iff, List.forall₂_same]
  exact fun a _ => h a

theorem rounds_randomPoint {coin : Random.Coin α σ} {s s' : σ}
    (h : randomPoint coin v s = .ok (x, s')) : Rounds v x := by
  induction v generalizing x s s' with
  | nil =>
      cases h
      exact .nil
  | cons a rest ih =>
      simp only [randomPoint] at h
      split at h
      · cases h
      · split at h
        · cases h
        · rename_i htail
          cases h
          refine .cons ?_ (ih htail)
          split
          · exact .inr (.inr (.inl rfl))
          · exact .inl rfl

theorem find_checks (coin : Random.Coin α σ) (p : Program α) (v : List α) (s : σ) (x : List α)
    (h : (find coin p v s).point = .ok (some x)) :
    p.satisfies x tolerance = true ∧ Rounds v x := by
  simp only [find] at h
  split at h
  · rename_i hdown
    cases h
    exact ⟨hdown, rounds_map fun _ => .inl rfl⟩
  split at h
  · rename_i hup
    cases h
    exact ⟨hup, rounds_map fun _ => .inr (.inl rfl)⟩
  split at h
  · cases h
  rename_i random _ hrandom
  split at h
  · rename_i hsatisfied
    cases h
    exact ⟨hsatisfied, rounds_randomPoint hrandom⟩
  split at h
  · rename_i hzero
    cases h
    refine ⟨hzero, ?_⟩
    rw [← List.map_const']
    exact rounds_map fun _ => .inr (.inr (.inr rfl))
  · cases h

/-- **What the rounding heuristic finds satisfies the constraints.** -/
theorem heuristic_checks (coin : Random.Coin α σ) (initial : σ) :
    (heuristic coin initial).Checks :=
  fun p v s x h => find_checks coin p v s x h

end Rounding

end IntegerProgramming

namespace IntegerProgramming.Search

variable {α β η ε : Type}

/-! ### Growing journals -/

/-- Every call in the journal of one session is in that of the other. -/
def Session.Extends (s t : Session α β η ε) : Prop := s.journal.calls ⊆ t.journal.calls

theorem Session.Extends.refl (s : Session α β η ε) : s.Extends s := List.Subset.refl _

theorem Session.Extends.trans {s t u : Session α β η ε} (first : s.Extends t)
    (second : t.Extends u) : s.Extends u := List.Subset.trans first second

theorem Session.extends_note (s : Session α β η ε) (e : Event α ε) : s.Extends (s.note e) := by
  rw [Extends, note, Journal.calls_push]
  exact List.subset_append_left _ _

theorem Session.extends_noteIf (s : Session α β η ε) (condition : Bool) (e : Event α ε) :
    s.Extends (s.noteIf condition e) := by
  rw [noteIf]
  split
  · exact s.extends_note e
  · exact .refl s

theorem Session.extends_foldl_note (s : Session α β η ε)
    (results : List (LinearProgram.Result α)) :
    s.Extends (results.foldl (fun s result => s.note (.solved result)) s) := by
  induction results generalizing s with
  | nil => exact .refl s
  | cons result rest ih => exact (s.extends_note _).trans (ih _)

/-- A reply leaves the call behind, with its answer. -/
theorem Session.extends_afterReply (s : Session α β η ε) (sub : Subproblem α)
    (reply : Reply α β ε) :
    s.Extends (s.afterReply sub reply)
      ∧ (sub, reply.answer) ∈ (s.afterReply sub reply).journal.calls := by
  refine ⟨(s.extends_foldl_note reply.solved).trans (Session.extends_note _ _), ?_⟩
  rw [afterReply, note, Journal.calls_push]
  exact List.mem_append_right _ (List.mem_singleton_self _)

variable [Scalar α] {S : Solver α β η ε} {p : Program α}

/-! ### Origins -/

/-- The oracle gave the vertex for the program under some changes, and the journal shows it. -/
def Answered (S : Solver α β η ε) (p : Program α) (session : Session α β η ε) (v : List α) : Prop :=
  ∃ changes bound, (⟨p, changes⟩, .ok (.optimal bound v)) ∈ session.journal.calls
    ∧ ∃ state, (S.oracle.ask ⟨p, changes⟩ state).answer = .ok (.optimal bound v)

/-- Where a point comes from. -/
inductive Origin (S : Solver α β η ε) (p : Program α) (session : Session α β η ε) :
    List α → Prop where
  /-- A rounding of a vertex that satisfies the constraints. -/
  | rounded {v x : List α} (answered : Answered S p session v) (near : Rounds v x)
      (satisfied : p.satisfies x Rounding.tolerance = true) : Origin S p session x
  /-- The nearest integers of a vertex that counts as integral. -/
  | snapped {v : List α} (answered : Answered S p session v)
      (integral : isIntegral v S.settings.integrality = true) :
      Origin S p session (nearestIntegers v)

omit [Scalar α] in
theorem Answered.extends {s t : Session α β η ε} {v : List α} (h : Answered S p s v)
    (later : s.Extends t) : Answered S p t v := by
  obtain ⟨changes, bound, hcall, hanswer⟩ := h
  exact ⟨changes, bound, later hcall, hanswer⟩

theorem Origin.extends {s t : Session α β η ε} {x : List α} (h : Origin S p s x)
    (later : s.Extends t) : Origin S p t x := by
  cases h with
  | rounded answered near satisfied => exact .rounded (answered.extends later) near satisfied
  | snapped answered integral => exact .snapped (answered.extends later) integral

/-- The incumbent has an origin, if there is one. -/
def Traced (S : Solver α β η ε) (p : Program α) (s : State α β η ε) : Prop :=
  ∀ c, s.incumbent.best = some c → Origin S p s.session c.point

theorem Traced.of_eq {s t : State α β η ε} (h : Traced S p s) (later : s.session.Extends t.session)
    (incumbent : t.incumbent = s.incumbent) : Traced S p t := by
  intro c hc
  exact (h c (incumbent ▸ hc)).extends later

/-- A point that is offered is the incumbent afterwards, or the incumbent stays. -/
theorem offer_best {incumbent : Incumbent α} {candidate c : Solution α}
    (h : (incumbent.offer candidate).best = some c) :
    c = candidate ∨ incumbent.best = some c := by
  rw [Incumbent.offer] at h
  split at h
  · exact .inl (Option.some.inj h).symm
  · exact .inr h

/-! ### Steps -/

theorem Traced.adopt {s : State α β η ε} (h : Traced S p s) (node : Node α) {fate : Fate α}
    (candidate : ∀ c, fate = .candidate c → Origin S p s.session c.point) :
    Traced S p (s.adopt node fate) := by
  cases fate with
  | candidate c =>
      rw [State.adopt]
      split
      · intro c' hc'
        rcases offer_best hc' with rfl | hc'
        · exact (candidate _ rfl).extends (Session.extends_note _ _)
        · exact (h c' hc').extends (Session.extends_note _ _)
      · exact h
  | kept v x => exact h
  | pruned kind => exact h
  | discarded => exact h

theorem Traced.place {node : Node α} {s t : State α β η ε} (h : Traced S p s)
    (ht : S.place p node s = .ok t) : Traced S p t := by
  obtain ⟨relaxation, fate, hanswer, hfate, rfl⟩ := Solver.place_ok ht
  -- the call is in the journal before the child is filed, and stays there
  obtain ⟨later, hcall⟩ := (s.session.note (.created node)).extends_afterReply ⟨p, node.changes⟩
    (S.oracle.ask ⟨p, node.changes⟩ s.session.oracle)
  have later := (Session.extends_note _ _).trans later
  rw [State.file]
  refine Traced.adopt ?_ node ?_
  · exact h.of_eq (later.trans (Session.extends_note _ _)) rfl
  rintro c rfl
  rcases Solver.fate?_cases hfate with ⟨v, x, rfl, -, hx, hc⟩ | ⟨v, x, -, -, -, hc⟩
    | ⟨v, x, -, -, hc⟩ | ⟨-, hc⟩ | ⟨-, hc⟩
  · cases hc
    rw [hanswer] at hcall
    exact (Origin.snapped ⟨node.changes, v, hcall, _, hanswer⟩ hx).extends
      (Session.extends_note _ _)
  all_goals cases hc

/-- **A step keeps the origin of the incumbent.** -/
theorem Traced.expand {s t : State α β η ε} (h : Traced S p s) (ht : S.expand p s = .ok t) :
    Traced S p t := by
  obtain ⟨parent, rest, var, value, down, up, -, -, -, hdown, hup, rfl⟩ := Solver.expand_ok ht
  have selected : Traced S p (s.select parent rest) := h.of_eq (Session.extends_note _ _) rfl
  exact ((selected.place hdown).place hup).of_eq (Session.extends_noteIf _ _ _) rfl

/-- **Every incumbent has an origin.** -/
theorem Traced.reaches {s t : State α β η ε} (run : Reaches S p s t) (h : Traced S p s) :
    Traced S p t :=
  run.invariant (fun _ _ hs _ hexpand => hs.expand hexpand) h

/-! ### Beginning and end -/

theorem Solver.begin_extends {bound : α} {vertex : List α} {session : Session α β η ε}
    {s : State α β η ε} (h : S.begin p bound vertex session = .ok s) :
    session.Extends s.session := by
  simp only [Solver.begin] at h
  generalize (S.heuristic.find p vertex session.heuristic).rounding = rounding at h
  cases rounding with
  | none =>
      split at h
      · cases h
      · cases h
        exact .refl session
      · cases h
        exact session.extends_note _
  | some how =>
      split at h
      · cases h
      · cases h
        exact session.extends_note _
      · cases h
        exact (session.extends_note (.rounded how)).trans (Session.extends_note _ _)

theorem Traced.begin (checks : S.heuristic.Checks) {bound : α} {vertex : List α}
    {session : Session α β η ε} (answered : Answered S p session vertex) {s : State α β η ε}
    (h : S.begin p bound vertex session = .ok s) : Traced S p s := by
  have later := Solver.begin_extends h
  obtain ⟨-, -, -, hstart⟩ := Solver.begin_ok h
  intro c hc
  rcases hstart with ⟨-, -, hi⟩ | ⟨x, hx, -, hi⟩
  · rw [hi] at hc
    cases hc
  · rw [hi] at hc
    rcases offer_best hc with rfl | hc
    · obtain ⟨satisfied, near⟩ := checks _ _ _ _ hx
      exact .rounded (answered.extends later) near satisfied
    · cases hc

theorem State.best_report {s : State α β η ε} {reason : Termination} {c : Solution α}
    (h : (s.report reason).best = some c) : s.incumbent.best = some c := by
  rw [State.report] at h
  split at h
  · cases h
  · rename_i best hbest
    exact hbest.trans h

omit [Scalar α] in
/-- The probe of an unbounded program reports no point. -/
theorem best_afterProbe (probe : Record α) : (afterProbe probe).best = none := by
  rw [afterProbe]
  split <;> rfl

/-- **Every reported point has an origin.** -/
theorem Solver.origin (checks : S.heuristic.Checks) {session : Session α β η ε} {record : Record α}
    (h : (S.solve p session).result = .ok record) {c : Solution α} (hc : record.best = some c) :
    Origin S p (S.solve p session).session c.point := by
  obtain ⟨root, between, hask, hroot⟩ := Solver.searchProgram_cases (Solver.solve_ok h)
  obtain ⟨hanswer, rfl⟩ := Solver.ask_ok hask
  obtain ⟨-, hcall⟩ := Session.extends_afterReply { session with
    heuristic := S.heuristic.reset session.heuristic } ⟨p, []⟩ (S.oracle.ask ⟨p, []⟩ session.oracle)
  rw [hanswer] at hcall
  rcases hroot with ⟨bound, vertex, rfl, integral, rfl, hend⟩ | ⟨bound, vertex, rfl, -, htree⟩
    | ⟨-, rfl, -⟩ | ⟨-, hunbounded⟩
  · rw [hend]
    cases hc
    have answered : Answered S p _ vertex := ⟨[], bound, hcall, _, hanswer⟩
    exact (Origin.snapped answered integral).extends (Session.extends_note _ _)
  · obtain ⟨start, s, reason, hbegin, run, -, rfl, hend⟩ := Solver.searchTree_ok htree
    rw [hend]
    have traced := Traced.begin checks ⟨[], bound, hcall, _, hanswer⟩ hbegin
    exact (traced.reaches run c (State.best_report hc)).extends (Session.extends_note _ _)
  · cases hc
  · obtain ⟨probe, -, rfl⟩ := Solver.searchUnbounded_ok hunbounded
    rw [best_afterProbe] at hc
    cases hc

end IntegerProgramming.Search
