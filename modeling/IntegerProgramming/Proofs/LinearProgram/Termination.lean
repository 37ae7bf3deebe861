import Mathlib
import IntegerProgramming.Proofs.LinearProgram.Bland
import IntegerProgramming.Proofs.LinearProgram.Verdicts

/-!
# Simplex — enough pivots

Over exact numbers and without tolerances a phase comes to the tableaus that it comes to over the
rationals, and without near ties none of their sets of basic variables occurs twice.  So each of the
two phases makes fewer pivots than there are sets of as many columns as the tableau has rows, and a
budget of twice that many is never spent.

* `Tableau.NeverRepeats.embed`: what is known of a phase over the rationals.
* `LinearProgram.ending_endOfPhaseOne`, `Tableau.Ready.ending_endOfPhaseTwo`: neither phase spends
  as many pivots as there are bases.
* `LinearProgram.solve_terminates`: **no basis occurs twice, and with twice as many pivots as there
  are bases the method does not stop at its limit.**
-/

namespace IntegerProgramming.LinearProgram

open ExtRat (num)
open Tableau (Ready)

namespace Tableau

variable {t : Tableau ℚ} {limit budget n : ℕ}

theorem basicVariables_embed (t : Tableau ℚ) : t.embed.basicVariables = t.basicVariables := by
  rw [basicVariables, basicVariables, embed, List.map_map]
  rfl

/-- From a rational tableau the method comes to rational tableaus. -/
theorem exists_pivots_of_embed {t : Tableau ℚ} {w : Tableau ExtRat}
    (run : Pivots 0 limit t.embed n w) : ∃ u, w = u.embed ∧ Pivots 0 limit t n u := by
  generalize hstart : t.embed = start at run
  induction run generalizing t with
  | refl => exact ⟨t, hstart.symm, .refl t⟩
  | @step start w r j n hmove rest ih =>
      subst hstart
      rw [move_embed] at hmove
      obtain ⟨-, c, hc, rfl⟩ := move_eq_pivot hmove
      obtain ⟨u, hu, run⟩ := ih (pivot_embed (coeff_ne_zero_of_leaving? hc)).symm
      exact ⟨u, hu, .step hmove run⟩

/-- **What never repeats over the rationals never repeats.** -/
theorem NeverRepeats.embed (h : NeverRepeats 0 limit budget t) :
    NeverRepeats 0 limit budget t.embed := by
  intro m n u w before after hn hle
  obtain ⟨u, rfl, before'⟩ := exists_pivots_of_embed before
  obtain ⟨w, rfl, after'⟩ := exists_pivots_of_embed after
  rw [optimize_embed] at hle
  rw [basicVariables_embed, basicVariables_embed]
  exact h m n u w before' after' hn hle

end Tableau

/-! ### The two phases -/

/-- A phase that makes fewer pivots than it may does not stop at its limit. -/
theorem ending_ne_pivotLimit {α : Type} [Arith α] {tol : α} {limit budget : ℕ} {t : Tableau α}
    (h : (t.optimize tol limit budget).pivots < budget) :
    (t.optimize tol limit budget).ending ≠ .pivotLimit :=
  fun hending => h.ne (pivots_of_ending_pivotLimit hending)

variable {n limit : ℕ} {cs : List (Constraint ℚ)} {c : List ℚ}

/-- How many sets of columns could be basic. -/
def numBases {α : Type} (t : Tableau α) : ℕ := t.columns.choose t.rows.length

theorem numBases_embed (t : Tableau ℚ) : numBases t.embed = numBases t := by
  rw [numBases, numBases, Tableau.embed, List.length_map]

theorem pivots_endOfPhaseOne (sep : Tableau.PhaseOneSeparated n cs limit) :
    (Tableau.endOfPhaseOne n cs limit).pivots < numBases (Tableau.start n cs) :=
  ((Tableau.rewrites_start n cs).withArtificialObjective
    (Tableau.firstArtificial_le_columns_start n cs)).pivots_lt_choose sep

theorem Tableau.Ready.dictionary {t : Tableau ℚ} (r : Ready n cs t) (hc : c.length = n) :
    Dictionary (start n cs) (worth c t.columns) (t.withObjective c) := by
  obtain ⟨hstructural, -, hcolumns⟩ := r.sizes
  exact r.rewrites.withObjective (hc.trans hstructural.symm) (by omega)

/-- With as many pivots as there are bases neither phase stops at its limit. -/
theorem ending_endOfPhaseOne (sep : Tableau.PhaseOneSeparated n cs limit)
    (enough : numBases (Tableau.start n cs) ≤ limit) :
    (Tableau.endOfPhaseOne n cs limit).ending ≠ .pivotLimit :=
  ending_ne_pivotLimit ((pivots_endOfPhaseOne sep).trans_le enough)

theorem Tableau.Ready.ending_endOfPhaseTwo {t : Tableau ℚ} (r : Ready n cs t) (hc : c.length = n)
    (sep : PhaseTwoSeparated c t limit) (enough : numBases (start n cs) ≤ limit) :
    (Tableau.endOfPhaseTwo c t limit).ending ≠ .pivotLimit :=
  ending_ne_pivotLimit (((r.dictionary hc).pivots_lt_choose sep).trans_le enough)

/-- What phase one spends, if it finds a tableau to go on with. -/
theorem spent_lt_numBases
    (sep : (Tableau.start n cs).hasArtificials = true → Tableau.PhaseOneSeparated n cs limit)
    {u : Tableau ExtRat} {spent : ℕ}
    (h : phaseOne ⟨limit, 0, 0⟩ (Tableau.start n cs).embed = .ok (u, spent)) :
    spent < numBases (Tableau.start n cs) := by
  rcases phaseOne_eq_ok h with ⟨-, -, rfl⟩ | ⟨hart, -, -, rfl, -⟩
  · have basis := Tableau.basis_start n cs
    have := Finset.card_le_card (Finset.mem_powersetCard.mp basis.basicVariables_mem).1
    rw [basis.card_basicVariables, Finset.card_range] at this
    exact Nat.choose_pos this
  · rw [phaseOneRun_embed]
    exact pivots_endOfPhaseOne (sep hart)

/-! ### Programs -/

variable {p : LinearProgram ExtRat} {s : Settings ExtRat}

theorem Models.phaseTwo_embed {t : Tableau ℚ} (m : p.Models n cs c) (limit spent : ℕ) :
    phaseTwo ⟨limit, 0, 0⟩ p.objective t.embed spent
      = (Tableau.endOfPhaseTwo c t (limit - spent)).embed := by
  rw [phaseTwo, m.objective, Tableau.withObjective_embed]
  exact Tableau.optimize_embed _ _ _

/-- The two phases of a run without near ties, over the rationals. -/
theorem exists_separated (valid : p.validate = .ok ()) (wf : p.matrix.WellFormed)
    (nonempty : p.box.isEmpty = false) (sep : p.NoNearTies ⟨limit, 0, 0⟩) :
    ∃ cs c, p.Models p.numVars cs c ∧ p.startTableau = (Tableau.start p.numVars cs).embed
      ∧ ((Tableau.start p.numVars cs).hasArtificials = true →
        Tableau.PhaseOneSeparated p.numVars cs limit)
      ∧ ∀ t spent, phaseOne ⟨limit, 0, 0⟩ p.startTableau = .ok (t.embed, spent) →
        Tableau.PhaseTwoSeparated c t (limit - spent) := by
  obtain ⟨cs, c, hconstraints, m⟩ := exists_models valid wf nonempty
  obtain ⟨sepOne, sepTwo⟩ := sep nonempty
  rw [startTableau_embed hconstraints] at sepOne sepTwo ⊢
  rw [Tableau.withArtificialObjective_embed] at sepOne
  refine ⟨cs, c, m, rfl, fun h => Tableau.noNearTies_embed_iff.mp (sepOne h),
    fun t spent hone => ?_⟩
  rw [hone, Separates, m.objective, Tableau.withObjective_embed] at sepTwo
  exact Tableau.noNearTies_embed_iff.mp sepTwo

/-- No two tableaus of a phase of the run have the same basic variables. -/
def NeverRepeats (p : LinearProgram ExtRat) (s : Settings ExtRat) : Prop :=
  p.box.isEmpty = false →
    (p.startTableau.hasArtificials = true →
      Tableau.NeverRepeats s.pivotTol p.startTableau.columns s.pivotLimit
        p.startTableau.withArtificialObjective)
    ∧ ∀ t spent, phaseOne s p.startTableau = .ok (t, spent) →
      Tableau.NeverRepeats s.pivotTol t.firstArtificial (s.pivotLimit - spent)
        (t.withObjective p.objective)

theorem neverRepeats_of_noNearTies (valid : p.validate = .ok ()) (wf : p.matrix.WellFormed)
    (sep : p.NoNearTies ⟨limit, 0, 0⟩) : p.NeverRepeats ⟨limit, 0, 0⟩ := by
  intro nonempty
  obtain ⟨cs, c, m, hstart, sepOne, sepTwo⟩ := exists_separated valid wf nonempty sep
  rw [hstart] at sepTwo ⊢
  constructor
  · intro hart
    rw [Tableau.withArtificialObjective_embed]
    exact (((Tableau.rewrites_start _ cs).withArtificialObjective
      (Tableau.firstArtificial_le_columns_start _ cs)).neverRepeats (sepOne hart)).embed
  · intro u spent hone
    obtain ⟨t, rfl, ready⟩ := exists_ready_of_phaseOne sepOne hone
    rw [m.objective, Tableau.withObjective_embed]
    exact ((ready.dictionary m.cost).neverRepeats (sepTwo t spent hone)).embed

/-- Each phase makes fewer pivots than there are bases, so neither spends what is left of twice as
many. -/
theorem optimum_ne_pivotLimit (valid : p.validate = .ok ()) (wf : p.matrix.WellFormed)
    (sep : p.NoNearTies ⟨limit, 0, 0⟩) (enough : 2 * numBases p.startTableau ≤ limit) :
    (p.optimum ⟨limit, 0, 0⟩).verdict ≠ .pivotLimit := by
  rcases p.optimum_cases ⟨limit, 0, 0⟩ with ⟨-, heq⟩ | ⟨nonempty, hone⟩ |
    ⟨nonempty, u, spent, hone, hverdict⟩
  · rw [heq]
    intro h
    cases h
  · obtain ⟨cs, c, m, hstart, sepOne, -⟩ := exists_separated valid wf nonempty sep
    rw [hstart] at hone enough
    rw [numBases_embed] at enough
    rcases phaseOne_eq_error hone with ⟨hart, ⟨hending, -⟩ | ⟨-, hv⟩ | ⟨-, -, hv⟩⟩
    · rw [phaseOneRun_embed] at hending
      exact absurd hending (ending_endOfPhaseOne (sepOne hart) (by omega))
    · rw [hv]
      intro h
      cases h
    · rw [hv]
      intro h
      cases h
  · obtain ⟨cs, c, m, hstart, sepOne, sepTwo⟩ := exists_separated valid wf nonempty sep
    rw [hstart] at hone enough sepTwo
    rw [numBases_embed] at enough
    have hspent := spent_lt_numBases sepOne hone
    obtain ⟨t, rfl, ready⟩ := exists_ready_of_phaseOne sepOne hone
    have hending := ready.ending_endOfPhaseTwo m.cost (sepTwo t spent hone) (by omega)
    rw [hverdict, m.phaseTwo_embed, Phase.verdict]
    -- every other ending has a verdict of its own
    cases h : (Tableau.endOfPhaseTwo c t (limit - spent)).ending with
    | pivotLimit => exact absurd h hending
    | optimal | unbounded =>
        simp only [Phase.embed, h]
        intro h
        cases h

/-- **Enough pivots.**  At tolerance zero, and unless a ratio test takes two different ratios for
equal, no basis occurs twice within a phase of an accepted program, and with twice as many pivots as
there are sets of columns that could be basic the method does not stop at its limit. -/
theorem solve_terminates (valid : p.validate = .ok ()) (wf : p.matrix.WellFormed)
    (pivotTol : s.pivotTol = 0) (feasTol : s.feasTol = 0) (sep : p.NoNearTies s) :
    p.NeverRepeats s
      ∧ (2 * p.startTableau.columns.choose p.startTableau.rows.length ≤ s.pivotLimit →
        ∃ result, p.solve s = .ok result ∧ result.verdict ≠ .pivotLimit) := by
  obtain ⟨limit, tol, tol'⟩ := s
  obtain rfl : tol = 0 := pivotTol
  obtain rfl : tol' = 0 := feasTol
  exact ⟨neverRepeats_of_noNearTies valid wf sep,
    fun enough => ⟨_, solve_eq_ok valid, optimum_ne_pivotLimit valid wf sep enough⟩⟩

/-- The segment has seven columns and three rows, so that seventy pivots are enough. -/
theorem solve_terminates_segment :
    segment.validate = .ok () ∧ segment.matrix.WellFormed ∧ segment.NoNearTies ⟨70, 0, 0⟩
      ∧ segment.NeverRepeats ⟨70, 0, 0⟩
      ∧ ∃ result, segment.solve ⟨70, 0, 0⟩ = .ok result ∧ result.verdict ≠ .pivotLimit := by
  have valid : segment.validate = .ok () := by decide +kernel
  have wf : segment.matrix.WellFormed := by decide +kernel
  have sep : segment.NoNearTies ⟨70, 0, 0⟩ := by decide +kernel
  have enough : 2 * segment.startTableau.columns.choose segment.startTableau.rows.length ≤ 70 := by
    decide +kernel
  obtain ⟨never, ends⟩ := solve_terminates valid wf rfl rfl sep
  exact ⟨valid, wf, sep, never, ends enough⟩

end IntegerProgramming.LinearProgram
