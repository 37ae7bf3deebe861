import Mathlib
import IntegerProgramming.Proofs.Lawful
import IntegerProgramming.Proofs.Search.Entries

/-!
# Search — the incumbent

The best value found so far is kept twice: with the incumbent, and as the lower bound of the
bracket.  Whatever the strategies do, the two agree in every state, and they are what the candidates
make them that the journal shows: those of the heuristic and of the integral vertices.

* `Incumbent.leads_of_best`: **the incumbent is the earliest candidate of greatest objective**, if
  the objectives of all candidates are defined.
* `Led.reaches`, `Ascends.reaches`: **the two copies agree in every state, and only rise**.
* `Solver.incumbentLeads`: **what a state and what a record say of the incumbent.**

Only the laws of comparison are used (`LawfulScalar`), so the results hold under rounding as well.
An objective that is undefined never beats the incumbent; it matters only for what is said of all
candidates together.
-/

namespace IntegerProgramming

section Candidates

variable {α : Type} [Scalar α]

/-! ### Candidates -/

/-- The earliest of the candidates with the greatest objective. -/
def Leads (offered : List (Solution α)) (c : Solution α) : Prop :=
  ∃ before after, offered = before ++ c :: after
    ∧ (∀ d ∈ before, d.value < c.value) ∧ ∀ d ∈ after, d.value ≤ c.value

/-- Whether the last candidate is strictly better than all before it, and than none at all. -/
def endsImproved (offered : List (Solution α)) : Bool :=
  match offered.getLast? with
  | none => false
  | some c => decide (-infinity < c.value)
      && offered.dropLast.all fun d => decide (d.value < c.value)

/-- How many of the candidates were strict improvements when they were offered. -/
def strictImprovements (offered : List (Solution α)) : ℕ :=
  offered.inits.countP endsImproved

theorem endsImproved_concat {offered : List (Solution α)} {c : Solution α} :
    endsImproved (offered ++ [c]) = true
      ↔ -infinity < c.value ∧ ∀ d ∈ offered, d.value < c.value := by
  simp [endsImproved]

theorem strictImprovements_concat (offered : List (Solution α)) (c : Solution α) :
    strictImprovements (offered ++ [c])
      = strictImprovements offered + if endsImproved (offered ++ [c]) then 1 else 0 := by
  rw [strictImprovements, List.inits_append, List.countP_append, strictImprovements]
  simp [List.countP_cons]

namespace Incumbent

/-- The incumbent that the candidates leave. -/
def afterAll (offered : List (Solution α)) : Incumbent α := offered.foldl offer .none

@[simp] theorem afterAll_nil : afterAll ([] : List (Solution α)) = .none := rfl

theorem afterAll_concat (offered : List (Solution α)) (c : Solution α) :
    afterAll (offered ++ [c]) = (afterAll offered).offer c := by
  rw [afterAll, List.foldl_concat, afterAll]

theorem value_of_best {inc : Incumbent α} {c : Solution α} (h : inc.best = some c) :
    inc.value = c.value := by
  rw [value, h]

theorem value_of_best_none {inc : Incumbent α} (h : inc.best = .none) :
    inc.value = -infinity := by
  rw [value, h]

variable [LawfulScalar α] {offered : List (Solution α)} {c : Solution α}

open LawfulScalar

/-- The incumbent is one of the candidates, and exceeds `-∞`. -/
theorem mem_of_best (h : (afterAll offered).best = some c) :
    c ∈ offered ∧ -infinity < c.value := by
  induction offered using List.reverseRecOn generalizing c with
  | nil => cases h
  | append_singleton offered d ih =>
      rw [afterAll_concat, offer] at h
      split at h
      · rename_i better
        cases h
        refine ⟨List.mem_append_right _ (List.mem_singleton_self _), ?_⟩
        have better := of_decide_eq_true better
        cases hbest : (afterAll offered).best with
        | none => rwa [value_of_best_none hbest] at better
        | some e => exact lt_trans (ih hbest).2 (value_of_best hbest ▸ better)
      · obtain ⟨hmem, hlt⟩ := ih h
        exact ⟨List.mem_append_left _ hmem, hlt⟩

/-- The value to exceed is `-∞` just as long as there is no incumbent. -/
theorem value_eq_iff :
    (afterAll offered).value = -infinity ↔ (afterAll offered).best = .none := by
  refine ⟨fun h => ?_, value_of_best_none⟩
  cases hbest : (afterAll offered).best with
  | none => rfl
  | some c =>
      rw [value_of_best hbest] at h
      exact absurd (h ▸ (mem_of_best hbest).2) (lt_irrefl _)

theorem defined_value : isUndefined (afterAll offered).value = false := by
  cases hbest : (afterAll offered).best with
  | none => rw [value_of_best_none hbest, defined_negInfinity]
  | some c => rw [value_of_best hbest, (defined_of_lt (mem_of_best hbest).2).2]

/-- A candidate that is offered leaves the greater of the two values. -/
theorem value_offer :
    ((afterAll offered).offer c).value = greater (afterAll offered).value c.value := by
  rw [offer]
  split
  · rename_i better
    exact (greater_of_lt (of_decide_eq_true better)).symm
  · rename_i better
    exact (greater_of_not_lt defined_value (by simpa [improvedBy] using better)).symm

theorem value_le_value_offer : (afterAll offered).value ≤ ((afterAll offered).offer c).value := by
  rw [offer]
  split
  · rename_i better
    exact le_of_lt (of_decide_eq_true better)
  · exact le_refl defined_value

/-- Further candidates do not lower the value to exceed. -/
theorem value_le_append (offered later : List (Solution α)) :
    (afterAll offered).value ≤ (afterAll (offered ++ later)).value := by
  induction later using List.reverseRecOn with
  | nil =>
      rw [List.append_nil]
      exact le_refl defined_value
  | append_singleton later c ih =>
      rw [← List.append_assoc, afterAll_concat]
      exact le_trans ih value_le_value_offer

/-- No candidate exceeds the incumbent. -/
theorem le_value (defined : ∀ d ∈ offered, isUndefined d.value = false) :
    ∀ d ∈ offered, d.value ≤ (afterAll offered).value := by
  induction offered using List.reverseRecOn with
  | nil => simp
  | append_singleton offered d ih =>
      rw [List.forall_mem_append, List.forall_mem_singleton] at defined
      rw [afterAll_concat, List.forall_mem_append, List.forall_mem_singleton]
      refine ⟨fun e he => le_trans (ih defined.1 e he) value_le_value_offer, ?_⟩
      rw [value_offer]
      exact le_greater_right _ defined.2

/-- **The incumbent is the earliest candidate of greatest objective.** -/
theorem leads_of_best (defined : ∀ d ∈ offered, isUndefined d.value = false)
    (h : (afterAll offered).best = some c) : Leads offered c := by
  induction offered using List.reverseRecOn with
  | nil => cases h
  | append_singleton offered d ih =>
      rw [List.forall_mem_append, List.forall_mem_singleton] at defined
      rw [afterAll_concat, offer] at h
      split at h
      · rename_i better
        cases h
        exact ⟨offered, [], rfl, fun e he =>
          lt_of_le_of_lt (le_value defined.1 e he) (of_decide_eq_true better), by simp⟩
      · rename_i better
        obtain ⟨before, after, hoffered, hbefore, hafter⟩ := ih defined.1 h
        refine ⟨before, after ++ [d], by simp [hoffered], hbefore, ?_⟩
        rw [List.forall_mem_append, List.forall_mem_singleton]
        refine ⟨hafter, ?_⟩
        rw [improvedBy, value_of_best h, decide_eq_true_eq] at better
        exact (not_lt_iff (value_of_best h ▸ defined_value) defined.2).mp better

/-- The incumbent was replaced as often as a candidate was a strict improvement. -/
theorem improvements_afterAll (defined : ∀ d ∈ offered, isUndefined d.value = false) :
    (afterAll offered).improvements = strictImprovements offered := by
  induction offered using List.reverseRecOn with
  | nil => rfl
  | append_singleton offered d ih =>
      rw [List.forall_mem_append, List.forall_mem_singleton] at defined
      have better : endsImproved (offered ++ [d]) = (afterAll offered).improvedBy d := by
        rw [Bool.eq_iff_iff, endsImproved_concat, improvedBy, decide_eq_true_eq]
        refine ⟨fun ⟨hinf, hall⟩ => ?_, fun h => ⟨?_, fun e he => ?_⟩⟩
        · cases hbest : (afterAll offered).best with
          | none => rwa [value_of_best_none hbest]
          | some e => exact value_of_best hbest ▸ hall e (mem_of_best hbest).1
        · exact lt_of_le_of_lt (negInfinity_le defined_value) h
        · exact lt_of_le_of_lt (le_value defined.1 e he) h
      rw [afterAll_concat, strictImprovements_concat, better, offer]
      split
      · simp [ih defined.1]
      · simp [ih defined.1]

end Incumbent

/-! ### Records -/

variable {p : Program α}

/-- What a record says of its point and its bounds. -/
structure Record.Coherent (p : Program α) (record : Record α) : Prop where
  objective : ∀ c, record.best = some c → c.value = p.value c.point
  last : ∀ c, record.best = some c → record.lowerBounds.getLast? = some c.value
  rises : record.lowerBounds.Pairwise fun earlier later => earlier ≤ later
  counted : ∀ c, record.best = some c →
    record.lowerBounds.length = record.stats.explored + 1
      ∧ record.upperBounds.length = record.stats.explored + 1
      ∧ record.stats.explored + 1 = record.stats.iterations / 2 + 1
  ordered : ∀ i l u, 1 ≤ i → record.lowerBounds[i]? = some l → record.upperBounds[i]? = some u →
    l ≤ u
  empty : record.best = none → record.lowerBounds = [] ∧ record.upperBounds = []

/-- A record without a point and without bounds. -/
theorem Record.coherent_of_empty {record : Record α} (best : record.best = none)
    (history : record.stats.history = []) : record.Coherent p := by
  have lower : record.lowerBounds = [] := by rw [Record.lowerBounds, history, List.map_nil]
  have upper : record.upperBounds = [] := by rw [Record.upperBounds, history, List.map_nil]
  refine ⟨?_, ?_, ?_, ?_, ?_, fun _ => ⟨lower, upper⟩⟩
  · simp [best]
  · simp [best]
  · simp [lower]
  · simp [best]
  · simp [lower]

end Candidates

end IntegerProgramming

namespace IntegerProgramming.Search

open LawfulScalar
open ExtRat (num)

variable {α β η ε : Type}

/-! ### Offers -/

/-- The candidate that a child becomes. -/
def Fate.candidate? : Fate α → Option (Solution α)
  | .candidate c => some c
  | _ => none

/-- The candidate that an event offers to the incumbent. -/
def Event.candidate? : Event α ε → Option (Solution α)
  | .seeded c => some c
  | .filed _ fate => fate.candidate?
  | _ => none

/-- The candidates that were offered, in order. -/
def offered (events : List (Event α ε)) : List (Solution α) := events.filterMap Event.candidate?

theorem offered_append (first second : List (Event α ε)) :
    offered (first ++ second) = offered first ++ offered second :=
  List.filterMap_append

theorem offered_cons (e : Event α ε) (rest : List (Event α ε)) :
    offered (e :: rest) = e.candidate?.toList ++ offered rest := by
  cases h : e.candidate? <;> simp [offered, h]

theorem offered_remarks {remarks : List (Event α ε)} (h : ∀ e ∈ remarks, e.isRemark = true) :
    offered remarks = [] := by
  refine List.filterMap_eq_nil_iff.mpr fun e he => ?_
  have := h e he
  cases e <;> first | rfl | cases this

theorem offered_replyEvents (sub : Subproblem α) (reply : Reply α β ε) :
    offered (replyEvents sub reply) = [] := by
  simp [offered, replyEvents, Event.candidate?]

variable [Scalar α] {S : Solver α β η ε} {p : Program α} {start : Session α β η ε}
  {s t : State α β η ε}

/-- A child offers the candidate that it becomes, with its objective. -/
theorem Placing.offered {node : Node α} {fate : Fate α} {events : List (Event α ε)}
    (h : Placing S p node fate events) :
    offered events = fate.candidate?.toList
      ∧ ∀ c ∈ offered events, c.value = p.value c.point := by
  obtain ⟨-, hfate, remarked⟩ := h
  rw [offered_cons, offered_append, offered_replyEvents, offered_cons, offered_remarks remarked]
  simp only [Event.candidate?, Option.toList_none, List.nil_append, List.append_nil, true_and]
  intro c hc
  rcases Solver.fate?_cases hfate with ⟨v, x, -, -, -, rfl⟩ | ⟨v, x, -, -, -, rfl⟩
    | ⟨v, x, -, -, rfl⟩ | ⟨-, rfl⟩ | ⟨-, rfl⟩
  · cases List.mem_singleton.mp hc
    rfl
  all_goals cases hc

/-! ### The two copies -/

/-- A child that is filed is offered to the incumbent if it becomes a candidate, and the lower bound
follows the incumbent. -/
theorem State.file_incumbent [LawfulScalar α] (s : State α β η ε) (node : Node α) (fate : Fate α) :
    (s.file node fate).incumbent = fate.candidate?.toList.foldl Incumbent.offer s.incumbent
      ∧ (s.bracket.lower = s.incumbent.value →
          (s.file node fate).bracket.lower = (s.file node fate).incumbent.value) := by
  cases fate with
  | candidate c =>
      rw [State.file, State.adopt]
      split
      · rename_i better
        refine ⟨rfl, fun lower => ?_⟩
        have better' : s.bracket.lower < c.value := lower ▸ of_decide_eq_true better
        simp only [Incumbent.offer_of_improvedBy better]
        exact greater_of_lt better'
      · rename_i better
        exact ⟨(Incumbent.offer_of_not_improvedBy (by simpa using better)).symm, fun lower => lower⟩
  | kept v x => exact ⟨rfl, fun lower => lower⟩
  | pruned kind => exact ⟨rfl, fun lower => lower⟩
  | discarded => exact ⟨rfl, fun lower => lower⟩

/-- The incumbent is the one that the candidates leave which were offered since the start, each with
its objective, and the lower bound is its value. -/
structure Led (p : Program α) (start : Session α β η ε) (s : State α β η ε) : Prop where
  offers : ∃ events, start.Writes s.session events ∧ s.incumbent = .afterAll (offered events)
    ∧ ∀ c ∈ offered events, c.value = p.value c.point
  lower : s.bracket.lower = s.incumbent.value

/-- Further events keep the two copies together if their candidates are offered. -/
theorem Led.later (led : Led p start s) {events : List (Event α ε)}
    (writes : s.session.Writes t.session events)
    (incumbent : t.incumbent = (offered events).foldl Incumbent.offer s.incumbent)
    (values : ∀ c ∈ offered events, c.value = p.value c.point)
    (lower : t.bracket.lower = t.incumbent.value) : Led p start t := by
  obtain ⟨⟨before, hwrites, hincumbent, hvalues⟩, -⟩ := led
  refine ⟨⟨before ++ events, hwrites.trans writes, ?_, ?_⟩, lower⟩
  · rw [incumbent, hincumbent, offered_append, Incumbent.afterAll, Incumbent.afterAll,
      List.foldl_append]
  · rw [offered_append, List.forall_mem_append]
    exact ⟨hvalues, values⟩

variable [LawfulScalar α]

theorem Led.place (led : Led p start s) {node : Node α} (h : S.place p node s = .ok t) :
    Led p start t := by
  obtain ⟨fate, events, nextId, session, placed, writes, ht⟩ := Solver.place_writes h
  obtain ⟨hoffered, values⟩ := placed.offered
  obtain ⟨incumbent, lower⟩ := State.file_incumbent { s with nextId, session } node fate
  rw [← ht] at incumbent lower
  exact led.later writes (hoffered ▸ incumbent) values (lower led.lower)

/-- **A step keeps the two copies together.** -/
theorem Led.expand (led : Led p start s) (h : S.expand p s = .ok t) : Led p start t := by
  obtain ⟨parent, rest, var, value, down, up, -, -, -, hdown, hup, rfl⟩ := Solver.expand_ok h
  have selected : Led p start (s.select parent rest) :=
    led.later (Session.writes_note _ (.selected parent)) rfl (by simp [offered, Event.candidate?])
      led.lower
  have placed := (selected.place hdown).place hup
  obtain ⟨remarks, settled, remarked⟩ := S.settle_writes up
  have nothing := offered_remarks remarked
  exact placed.later settled (by rw [nothing]; rfl) (by simp [nothing]) placed.lower

/-- **The two copies agree in every state.** -/
theorem Led.reaches (run : Reaches S p s t) (led : Led p start s) : Led p start t :=
  run.invariant (fun _ _ hs _ hexpand => hs.expand hexpand) led

/-- The search begins with the candidate of the heuristic, if there is one. -/
theorem Led.begin {bound : α} {vertex : List α} {session : Session α β η ε}
    (writes : ∃ events, start.Writes session events ∧ offered events = [])
    (h : S.begin p bound vertex session = .ok s) : Led p start s := by
  obtain ⟨before, hbefore, nothing⟩ := writes
  obtain ⟨remarks, seeded, hwrites, remarked, hstart⟩ := Solver.begin_writes h
  have events : offered (before ++ (remarks ++ seeded)) = offered seeded := by
    rw [offered_append, offered_append, nothing, offered_remarks remarked]
    rfl
  rcases hstart with ⟨rfl, lower, incumbent⟩ | ⟨x, rfl, lower, incumbent⟩
  · refine ⟨⟨_, hbefore.trans hwrites, ?_, ?_⟩, ?_⟩
    · rw [events, incumbent]
      rfl
    · rw [events]
      simp [offered]
    · rw [lower, incumbent]
      rfl
  · refine ⟨⟨_, hbefore.trans hwrites, ?_, ?_⟩, ?_⟩
    · rw [events, incumbent]
      rfl
    · rw [events]
      simp [offered, Event.candidate?]
    · rw [lower, incumbent, ← Incumbent.afterAll_nil, Incumbent.value_offer]
      rfl

/-! ### Bounds that rise -/

theorem Led.defined_lower (led : Led p start s) : isUndefined s.bracket.lower = false := by
  obtain ⟨⟨events, -, incumbent, -⟩, lower⟩ := led
  rw [lower, incumbent]
  exact Incumbent.defined_value

/-- Once there is an incumbent, the lower bound exceeds `-∞`. -/
theorem Led.negInfinity_lt (led : Led p start s) {c : Solution α}
    (h : s.incumbent.best = some c) : -infinity < s.bracket.lower := by
  obtain ⟨⟨events, -, incumbent, -⟩, lower⟩ := led
  rw [lower, Incumbent.value_of_best h]
  rw [incumbent] at h
  exact (Incumbent.mem_of_best h).2

/-- The lower bound of a later state is no smaller. -/
theorem Led.lower_le (led : Led p start s) (led' : Led p start t) {events : List (Event α ε)}
    (writes : s.session.Writes t.session events) : s.bracket.lower ≤ t.bracket.lower := by
  obtain ⟨⟨before, hbefore, incumbent, -⟩, lower⟩ := led
  obtain ⟨⟨after, hafter, incumbent', -⟩, lower'⟩ := led'
  have more : after = before ++ events :=
    List.append_cancel_left (hafter.symm.trans (hbefore.trans writes))
  rw [lower, lower', incumbent, incumbent', more, offered_append]
  exact Incumbent.value_le_append _ _

/-- The upper bound that is read off the open nodes does not fall below the lower bound. -/
theorem lower_le_refresh {b : Bracket α} (h : isUndefined b.lower = false) (best : Option α) :
    b.lower ≤ (b.refresh best).upper := by
  cases best with
  | none => exact le_refl h
  | some v => exact le_greater_right v h

/-- What holds of a state that is about to take its next node: the two copies of its best value
agree, its history is complete, the lower bounds of the history only rise, and all its pairs but the
first are in order. -/
structure Ascends (p : Program α) (start : Session α β η ε) (s : State α β η ε) : Prop
    extends Led p start s, Recorded s where
  below : ∀ bounds ∈ s.bracket.history, bounds.1 ≤ s.bracket.lower
  rises : (s.bracket.history.map Prod.fst).Pairwise fun earlier later => earlier ≤ later
  ordered : ∀ bounds ∈ s.bracket.history.tail, bounds.1 ≤ bounds.2

theorem Ascends.begin {bound : α} {vertex : List α} {session : Session α β η ε}
    (writes : ∃ events, start.Writes session events ∧ offered events = [])
    (h : S.begin p bound vertex session = .ok s) : Ascends p start s := by
  have led : Led p start s := .begin writes h
  have recorded : Recorded s := .begin h
  have explored : s.explored = 0 := Solver.explored_begin h
  obtain ⟨bounds, hhistory⟩ := List.length_eq_one_iff.mp (explored ▸ recorded.length)
  have last := recorded.last
  rw [hhistory, List.getLast?_singleton, Option.some_inj] at last
  refine ⟨led, recorded, ?_, ?_, ?_⟩
  · rw [hhistory, List.forall_mem_singleton, last]
    exact le_refl led.defined_lower
  · rw [hhistory]
    exact List.pairwise_singleton _ _
  · rw [hhistory]
    simp

/-- **A step raises the lower bound, or leaves it.** -/
theorem Ascends.expand (h : Ascends p start s) (hexpand : S.expand p s = .ok t) :
    Ascends p start t := by
  have led : Led p start t := h.toLed.expand hexpand
  obtain ⟨-, history, -⟩ := Solver.history_expand hexpand
  have nonempty : s.bracket.history ≠ [] :=
    List.length_pos_iff.mp (h.length ▸ Nat.succ_pos _)
  have rise : s.bracket.lower ≤ t.bracket.lower := by
    obtain ⟨_, -, _, _, _, _, _, _, _, _, -, writes, -⟩ := Solver.expand_writes hexpand
    exact h.toLed.lower_le led writes
  have earlier : ∀ bounds ∈ s.bracket.history, bounds.1 ≤ t.bracket.lower :=
    fun bounds hmem => le_trans (h.below bounds hmem) rise
  refine ⟨led, h.toRecorded.expand hexpand, ?_, ?_, ?_⟩
  · rw [history, List.forall_mem_append, List.forall_mem_singleton]
    exact ⟨earlier, le_refl led.defined_lower⟩
  · rw [history, List.map_append, List.pairwise_append]
    refine ⟨h.rises, List.pairwise_singleton _ _, fun l hl u hu => ?_⟩
    obtain ⟨bounds, hbounds, rfl⟩ := List.mem_map.mp hl
    exact List.mem_singleton.mp hu ▸ earlier bounds hbounds
  · rw [history, List.tail_append_of_ne_nil nonempty, List.forall_mem_append,
      List.forall_mem_singleton]
    refine ⟨h.ordered, ?_⟩
    obtain ⟨parent, rest, var, value, down, up, -, -, -, -, -, rfl⟩ := Solver.expand_ok hexpand
    exact lower_le_refresh led.defined_lower _

/-- **The bounds of every state only rose.** -/
theorem Ascends.reaches (run : Reaches S p s t) (h : Ascends p start s) : Ascends p start t :=
  run.invariant (fun _ _ hs _ hexpand => hs.expand hexpand) h

theorem Ascends.explores (h : S.Explores p start t s) : Ascends p start s := by
  obtain ⟨bound, vertex, between, hask, hbegin, run⟩ := h
  obtain ⟨-, rfl⟩ := Solver.ask_ok hask
  have begins : Ascends p start t :=
    .begin ⟨_, start.writes_afterReply _ _, offered_replyEvents _ _⟩ hbegin
  exact begins.reaches run

/-! ### States and records -/

/-- What a state says of its incumbent when these candidates were offered: the lower bound is its
objective, or `-∞` if there is none; it is the earliest candidate of greatest objective, if all
objectives are defined; and each strict improvement is counted. -/
structure State.Coherent (p : Program α) (offers : List (Solution α)) (s : State α β η ε) :
    Prop where
  lower : s.bracket.lower = s.incumbent.value
  absent : s.incumbent.value = -infinity ↔ s.incumbent.best = none
  objective : ∀ c, s.incumbent.best = some c → s.incumbent.value = p.value c.point
  leads : (∀ d ∈ offers, isUndefined d.value = false) →
    ∀ c, s.incumbent.best = some c → Leads offers c
  hopeless : (∀ d ∈ offers, isUndefined d.value = false) →
    s.incumbent.best = none → ∀ d ∈ offers, d.value ≤ -infinity
  improvements : (∀ d ∈ offers, isUndefined d.value = false) →
    s.incumbent.improvements = strictImprovements offers

theorem Led.coherent (led : Led p start s) :
    ∃ events, start.Writes s.session events ∧ s.Coherent p (offered events) := by
  obtain ⟨⟨events, writes, incumbent, values⟩, lower⟩ := led
  refine ⟨events, writes, lower, ?_, fun c hc => ?_, fun defined c hc => ?_,
    fun defined hnone => ?_, fun defined => ?_⟩
  · rw [incumbent]
    exact Incumbent.value_eq_iff
  · rw [Incumbent.value_of_best hc]
    rw [incumbent] at hc
    exact values c (Incumbent.mem_of_best hc).1
  · rw [incumbent] at hc
    exact Incumbent.leads_of_best defined hc
  · rw [← Incumbent.value_of_best_none hnone, incumbent]
    exact Incumbent.le_value defined
  · rw [incumbent]
    exact Incumbent.improvements_afterAll defined

omit [LawfulScalar α] in
/-- At an integral root both bounds are the objective of the vertex. -/
theorem coherent_atRoot (vertex : List α) : (Record.atRoot (rootSolution p vertex)).Coherent p := by
  refine ⟨fun c hc => ?_, fun c hc => ?_, List.pairwise_singleton _ _,
    fun c _ => ⟨rfl, rfl, by simp [Record.atRoot]⟩, fun i l u hi hl _ => ?_, fun h => by cases h⟩
  · cases hc
    rfl
  · cases hc
    rfl
  · obtain ⟨i, rfl⟩ := Nat.exists_eq_add_of_le' hi
    cases hl

/-- The record of a search is as coherent as its last state. -/
theorem Ascends.coherent_report (h : Ascends p start s) (reason : Termination) :
    (s.report reason).Coherent p := by
  obtain ⟨_, _, -, -, objective, -⟩ := h.toLed.coherent
  rw [State.report]
  cases hbest : s.incumbent.best with
  | none => exact Record.coherent_of_empty rfl rfl
  | some best =>
      have value := Incumbent.value_of_best hbest
      have twice : s.bracket.iterations = 2 * s.explored := h.twice
      refine ⟨fun c hc => ?_, fun c hc => ?_, h.rises, fun c _ => ⟨?_, ?_, ?_⟩,
        fun i l u hi hl hu => ?_, fun hnone => by cases hnone⟩
      · cases hc
        exact value.symm.trans (objective _ hbest)
      · cases hc
        rw [Record.lowerBounds, List.getLast?_map, h.last, ← value, ← h.lower]
        rfl
      · exact (List.length_map _).trans h.length
      · exact (List.length_map _).trans h.length
      · simp only [twice]
        omega
      · obtain ⟨i, rfl⟩ := Nat.exists_eq_add_of_le' hi
        rw [Record.lowerBounds, List.getElem?_map, Option.map_eq_some_iff] at hl
        rw [Record.upperBounds, List.getElem?_map, Option.map_eq_some_iff] at hu
        obtain ⟨bounds, hbounds, rfl⟩ := hl
        obtain ⟨bounds', hbounds', rfl⟩ := hu
        cases Option.some.inj (hbounds.symm.trans hbounds')
        exact h.ordered bounds (List.mem_of_getElem? (List.getElem?_tail.trans hbounds))

/-- **The best value is kept.**  Whatever the strategies do, in every state of every search the
lower bound is the objective of the incumbent, or `-∞` without one, and the incumbent is the
earliest candidate of greatest objective, as long as no objective is undefined.  A record with a
point has its objective, which is the last lower bound; its lower bounds never fall, there is a pair
of bounds for the start and for each node, and each pair but the first is in order.  A record
without a point has no bounds. -/
theorem Solver.keepsBest (S : Solver α β η ε) (p : Program α) (session : Session α β η ε) :
    (∀ start s, S.Explores p session start s →
        ∃ events, session.Writes s.session events ∧ s.Coherent p (offered events))
      ∧ ∀ record, (S.solve p session).result = .ok record → record.Coherent p := by
  refine ⟨fun start s h => (Ascends.explores h).toLed.coherent, fun record h => ?_⟩
  rcases Solver.record_cases h with ⟨vertex, rfl⟩ | ⟨start, s, reason, explores, -, rfl, -⟩
    | ⟨best, history, -⟩
  · exact coherent_atRoot vertex
  · exact (Ascends.explores explores).coherent_report reason
  · exact Record.coherent_of_empty best history

/-- At the square, where the origin is offered first, and then the point that replaces it. -/
theorem keepsBest_square :
    ∃ record start s events,
      (squareSolver.solve square.embed (.new () ())).result = .ok record
        ∧ squareSolver.Explores square.embed (.new () ()) start s
        ∧ (Session.new () ()).Writes s.session events
        ∧ offered events = [⟨nums [0, 0], num 0⟩, ⟨nums [1, 1], num 2⟩]
        ∧ s.Coherent square.embed (offered events)
        ∧ s.incumbent.improvements = strictImprovements (offered events)
        ∧ record.Coherent square.embed := by
  have journal : offered (squareSolver.solve square.embed (.new () ())).session.journal.toList
      = [⟨nums [0, 0], num 0⟩, ⟨nums [1, 1], num 2⟩] := by decide +kernel
  obtain ⟨record, h, explored⟩ : ∃ record,
      (squareSolver.solve square.embed (.new () ())).result = .ok record
        ∧ record.stats.explored = 2 := exists_ok_of_toOption (by decide +kernel)
  obtain ⟨states, records⟩ := Solver.keepsBest squareSolver square.embed (.new () ())
  rcases Solver.record_cases h with ⟨vertex, rfl⟩ | ⟨start, s, reason, explores, -, rfl, finished⟩
    | ⟨-, -, none⟩
  · cases explored
  · obtain ⟨events, writes, coherent⟩ := states start s explores
    rw [writes.trans finished, offered_append, offered_append] at journal
    -- the journal begins empty, and the last event offers nothing
    have offers : offered events = [⟨nums [0, 0], num 0⟩, ⟨nums [1, 1], num 2⟩] :=
      (List.append_nil _).symm.trans journal
    have defined : ∀ d ∈ offered events, isUndefined d.value = false := by
      rw [offers]
      decide +kernel
    exact ⟨_, start, s, events, h, explores, writes, offers, coherent,
      coherent.improvements defined, records _ h⟩
  · rw [none] at explored
    cases explored

end IntegerProgramming.Search
