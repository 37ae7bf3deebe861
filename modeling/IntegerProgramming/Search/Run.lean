import IntegerProgramming.Search.Explore

/-!
# Search — the states of a search

`Reaches S p s t`: from the state `s` the search splits open nodes, none of the reasons to stop
holding, and comes to the state `t`.  Every state it comes to is one in which it looks for a
reason to stop.

* `reaches_of_explore`: the loop ends in a state it reaches.
* `Reaches.invariant`: what the splitting of a node keeps, every state has.
* `termination_of_explore`: a loop given as many nodes as its rule allows for ends only when there
  is a reason to stop, and it is the one that is reported.
-/

namespace IntegerProgramming.Search

variable {α β η ε : Type} [Scalar α]

/-- The search comes from one state to another. -/
inductive Reaches (S : Solver α β η ε) (p : Program α) :
    State α β η ε → State α β η ε → Prop where
  | refl (s : State α β η ε) : Reaches S p s s
  | step {s t u : State α β η ε} (h : s.bracket.termination? s.frontier.isEmpty = none)
      (ht : S.expand p s = .ok t) (rest : Reaches S p t u) : Reaches S p s u

/-- What the splitting of a node keeps, every state has. -/
theorem Reaches.invariant {S : Solver α β η ε} {p : Program α} {P : State α β η ε → Prop}
    (keeps : ∀ s t, P s → s.bracket.termination? s.frontier.isEmpty = none →
      S.expand p s = .ok t → P t)
    {s t : State α β η ε} (run : Reaches S p s t) (start : P s) : P t := by
  induction run with
  | refl => exact start
  | step h ht _ ih => exact ih (keeps _ _ start h ht)

theorem reaches_of_explore {S : Solver α β η ε} {p : Program α} {nodes : Nat}
    {s t : State α β η ε} {reason : Termination}
    (h : S.explore p nodes s = .ok (reason, t)) : Reaches S p s t := by
  induction nodes generalizing s with
  | zero =>
    rw [Solver.explore] at h
    cases h
    exact .refl _
  | succ nodes ih =>
    rw [Solver.explore] at h
    split at h
    · cases h
      exact .refl _
    · rename_i hnone
      split at h
      · cases h
      · rename_i u hu
        exact .step hnone hu (ih h)

/-- A loop whose nodes would take the iterations over their limit ends for a reason. -/
theorem termination_of_explore {S : Solver α β η ε} {p : Program α} {nodes : Nat}
    {s t : State α β η ε} {reason : Termination}
    (hn : s.bracket.rule.maxIterations < s.bracket.iterations + 2 * nodes)
    (h : S.explore p nodes s = .ok (reason, t)) :
    t.bracket.termination? t.frontier.isEmpty = some reason := by
  induction nodes generalizing s with
  | zero =>
    rw [Solver.explore] at h
    cases h
    have hne : t.bracket.termination? t.frontier.isEmpty ≠ none :=
      Bracket.termination?_ne_none_of_lt hn
    obtain ⟨reason, hr⟩ := Option.ne_none_iff_exists'.mp hne
    rw [hr, Option.getD_some]
  | succ nodes ih =>
    rw [Solver.explore] at h
    split at h
    · rename_i r hr
      cases h
      exact hr
    · split at h
      · cases h
      · rename_i u hu
        obtain ⟨hit, hrule⟩ := iterations_expand hu
        exact ih (by rw [hit, hrule]; omega) h

end IntegerProgramming.Search
