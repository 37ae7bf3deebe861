import Mathlib
import IntegerProgramming.Proofs.LinearProgram.Storage
import IntegerProgramming.Proofs.LinearProgram.Vertices
import IntegerProgramming.Proofs.Search.Origins
import IntegerProgramming.Proofs.Search.Reuse

/-!
# Search — storage does not show

A search looks at the matrix in two ways: the oracle solves relaxations, and the heuristic tests
roundings of a root vertex.  The first depends on the rows of the matrix only.  So does the second,
if stored zeros absorb the vertex (`Program.AbsorbsRoots`), since rounding leaves numbers numbers.
A vertex is rational unless the tolerance for pivots is negative, which nothing forbids; then a
pivot may divide by zero, and a zero that is stored makes a difference (`depends_on_storage_flat`).

* `Rounding.find_congr`: the heuristic depends on the test of the roundings only.
* `Program.absorbsRoots_of_not_neg`: **stored zeros absorb rational vertices.**
* `alike_of_stores`: a solver cannot tell programs with the same rows apart.
* `independent_of_storage`: **acceptance, objective, constraints and the end of a search do not
  depend on the form in which a matrix is given**, nor on how storage by columns is converted, as
  long as the matrix is kept (`independent_of_conversion`).
-/

namespace IntegerProgramming

/-! ### Rounding -/

namespace Rounding

/-- The heuristic depends on the test of the roundings only. -/
theorem find_congr {α σ : Type} [Scalar α] {coin : Random.Coin α σ} {p p' : Program α} {x : List α}
    (h : ∀ y, Rounds x y → p'.satisfies y tolerance = p.satisfies y tolerance) (s : σ) :
    find coin p' x s = find coin p x s := by
  have down := h _ (rounds_map fun _ => .inl rfl)
  have up := h _ (rounds_map fun _ => .inr (.inl rfl))
  have zero := h (List.replicate x.length 0) (by
    rw [← List.map_const']
    exact rounds_map fun _ => .inr (.inr (.inr rfl)))
  simp only [find, down, up, zero]
  split
  · rfl
  · split
    · rfl
    · split
      · rfl
      · rename_i hrandom
        rw [h _ (rounds_randomPoint hrandom)]

/-- Rounding leaves numbers numbers. -/
theorem isFinite_getD {x y : List ExtRat} (h : Rounds x y) {j : ℕ}
    (number : isFinite (x.getD j 0) = true) : isFinite (y.getD j 0) = true := by
  rcases lt_or_ge j x.length with hx | hx
  · have hy : j < y.length := h.length_eq ▸ hx
    rw [List.getD_eq_getElem _ _ hx] at number
    rw [List.getD_eq_getElem _ _ hy]
    obtain ⟨q, hq⟩ := ExtRat.isFinite_iff.mp number
    rcases h.get hx hy with hdown | hup | hnext | hzero
    · exact ExtRat.isFinite_iff.mpr ⟨_, hdown.trans (congrArg Scalar.floor hq)⟩
    · exact ExtRat.isFinite_iff.mpr ⟨_, hup.trans (congrArg Scalar.ceil hq)⟩
    · exact ExtRat.isFinite_iff.mpr ⟨_, hnext.trans (congrArg (Scalar.floor · + 1) hq)⟩
    · exact ExtRat.isFinite_iff.mpr ⟨0, hzero⟩
  · have hy : y.length ≤ j := h.length_eq ▸ hx
    rw [List.getD_eq_default _ _ hy]
    rfl

theorem absorbs_of_rounds {A : SparseMatrix ExtRat} {x y : List ExtRat} (h : Rounds x y)
    (absorbs : A.Absorbs x) : A.Absorbs y :=
  fun row hrow entry hentry zero => isFinite_getD h (absorbs row hrow entry hentry zero)

end Rounding

/-! ### Vertices at the root -/

/-- Stored zeros absorb every vertex that the oracle gives for the program or its probe. -/
def Program.AbsorbsRoots (p : Program ExtRat) (s : LinearProgram.Settings ExtRat) : Prop :=
  ∀ q, q = p ∨ q = p.withZeroObjective → ∀ (e : Effort) (bound : ExtRat) (vertex : List ExtRat),
    (askSimplex s ⟨q, []⟩ e).answer = .ok (.optimal bound vertex) → p.matrix.Absorbs vertex

/-- **Stored zeros absorb rational vertices**, and the vertices are rational unless the tolerance
for pivots is negative. -/
theorem Program.absorbsRoots_of_not_neg {p : Program ExtRat} (wf : p.matrix.WellFormed)
    {s : LinearProgram.Settings ExtRat} (htol : ¬ s.pivotTol < 0) : p.AbsorbsRoots s := by
  intro q hq e bound vertex answer
  have hmatrix : q.matrix = p.matrix := by
    rcases hq with rfl | rfl <;> rfl
  obtain ⟨lp, -, same, accepted, optimal⟩ := askSimplex_optimal answer
  have wf' : lp.matrix.WellFormed := by
    rw [same, hmatrix]
    exact wf
  obtain ⟨x, rfl⟩ := LinearProgram.exists_nums_vertex accepted wf' htol optimal
  exact SparseMatrix.Absorbs.of_forall_isFinite (List.all_eq_true.mp (all_isFinite_nums x))

end IntegerProgramming

namespace IntegerProgramming.Search

open ExtRat (num)
open SparseMatrix (Source)

section Rounding

variable {σ : Type} {settings : Settings ExtRat} {relaxation : LinearProgram.Settings ExtRat}
  {coin : Random.Coin ExtRat σ} {initial : σ} {objective limits : List ExtRat}
  {A B : SparseMatrix ExtRat} {n : ℕ} {M : List (List ExtRat)}

/-- A solver cannot tell programs with the same rows apart, if stored zeros absorb the vertices at
the root. -/
theorem alike_of_stores (h : A.Stores n M) (h' : B.Stores n M) (width : n = objective.length)
    (absorbs : ∀ (e : Effort) (bound : ExtRat) (vertex : List ExtRat),
      (askSimplex relaxation ⟨⟨objective, A, limits⟩, []⟩ e).answer = .ok (.optimal bound vertex) →
        A.Absorbs vertex ∧ B.Absorbs vertex) :
    Alike (.rounding settings relaxation coin initial)
      (fun s t : Session ExtRat Effort σ (LinearProgram.Error ExtRat) => t.heuristic = s.heuristic)
      ⟨objective, A, limits⟩ ⟨objective, B, limits⟩ where
  objective := rfl
  reply changes e := askSimplex_eq_of_stores h h' changes relaxation e
  asked {s t} changes reply same := by
    rw [Session.heuristic_afterReply] at same ⊢
    exact same
  find answer s := by
    obtain ⟨absorbsA, absorbsB⟩ := absorbs _ _ _ answer
    exact Rounding.find_congr (fun y hy => Program.satisfies_eq_of_stores h h' width
      (Rounding.absorbs_of_rounds hy absorbsA) (Rounding.absorbs_of_rounds hy absorbsB) _) s

/-- **The search ends in the same way.** -/
theorem Solver.result_eq_of_stores (h : A.Stores n M) (h' : B.Stores n M)
    (width : n = objective.length)
    (absorbs : (Program.mk objective A limits).AbsorbsRoots relaxation)
    (absorbs' : (Program.mk objective B limits).AbsorbsRoots relaxation)
    (session session' : Session ExtRat Effort σ (LinearProgram.Error ExtRat)) :
    ((Solver.rounding settings relaxation coin initial).solve ⟨objective, B, limits⟩
        session').result
      = ((Solver.rounding settings relaxation coin initial).solve ⟨objective, A, limits⟩
        session).result := by
  have zeroWidth : n = ((Program.mk objective A limits).withZeroObjective).objective.length := by
    rw [← Program.numVars, Program.numVars_withZeroObjective]
    exact width
  -- both programs have the same vertices at the root, and so have their probes
  refine Solver.solve_alike (Solver.forgetful_rounding settings relaxation coin initial).indistinct
    (alike_of_stores h h' width fun e bound vertex answer => ?_)
    (alike_of_stores h h' zeroWidth fun e bound vertex answer => ?_) rfl
  · exact ⟨absorbs _ (.inl rfl) e bound vertex answer,
      absorbs' _ (.inl rfl) e bound vertex (askSimplex_eq_of_stores h h' [] relaxation e ▸ answer)⟩
  · exact ⟨absorbs _ (.inr rfl) e bound vertex answer,
      absorbs' _ (.inr rfl) e bound vertex (askSimplex_eq_of_stores h h' [] relaxation e ▸ answer)⟩

end Rounding

section Sources

variable {source source' : Source ExtRat} {A : SparseMatrix ExtRat}
  {limits objective : List ExtRat} {n : ℕ} {M : List (List ExtRat)}

/-- Two programs that have the same objective, the same left-hand sides and the same points, and are
searched with the same end, wherever no zero that is stored meets an infinite or undefined
coordinate. -/
structure Interchangeable (n : ℕ) (p p' : Program ExtRat) : Prop where
  value : ∀ x, p'.value x = p.value x
  points : ∀ x : List ExtRat, x.length = n →
    (∀ v ∈ x, isFinite v = true) ∨ p.matrix.Absorbs x ∧ p'.matrix.Absorbs x →
      p'.activities? x = p.activities? x ∧ ∀ tol, p'.satisfies x tol = p.satisfies x tol
  search : ∀ settings : Settings ExtRat,
    ¬ settings.relaxation.pivotTol < 0
        ∨ p.AbsorbsRoots settings.relaxation ∧ p'.AbsorbsRoots settings.relaxation →
      (solve p' settings).result = (solve p settings).result

/-- Programs are interchangeable if the same matrix is given for them. -/
theorem interchangeable_of_denotes (h : source.Denotes objective.length n M)
    (h' : source'.Denotes objective.length n M) {p p' : Program ExtRat}
    (hp : Program.ofSource source limits objective = .ok p)
    (hp' : Program.ofSource source' limits objective = .ok p') : Interchangeable n p p' := by
  obtain ⟨width, -⟩ := (Program.exists_ofSource_iff h).mp ⟨p, hp⟩
  obtain ⟨heq, stores, -⟩ := Program.stores_of_ofSource h hp
  obtain ⟨heq', stores', -⟩ := Program.stores_of_ofSource h' hp'
  generalize p.matrix = A at heq stores
  generalize p'.matrix = B at heq' stores'
  subst heq heq'
  refine ⟨fun x => rfl, fun x hx absorbed => ?_, fun settings absorbed => ?_⟩
  · obtain ⟨absorbs, absorbs'⟩ : A.Absorbs x ∧ B.Absorbs x := absorbed.elim
      (fun finite => ⟨.of_forall_isFinite finite, .of_forall_isFinite finite⟩) id
    exact ⟨Program.activities?_eq_of_stores stores stores' hx absorbs absorbs',
      Program.satisfies_eq_of_stores stores stores' width absorbs absorbs'⟩
  · obtain ⟨absorbs, absorbs'⟩ := absorbed.elim (fun htol =>
      ⟨Program.absorbsRoots_of_not_neg (p := ⟨objective, A, limits⟩) stores.wellFormed htol,
        Program.absorbsRoots_of_not_neg (p := ⟨objective, B, limits⟩) stores'.wellFormed htol⟩) id
    rw [solve, solve, Outcome.result_summarised, Outcome.result_summarised]
    exact Solver.result_eq_of_stores stores stores' width absorbs absorbs' _ _

/-- **Nothing depends on how storage by columns is converted**, as long as the conversion keeps the
matrix: what it gives is accepted or not, and behaves, like any other source of the matrix. -/
theorem independent_of_conversion {convert : SparseMatrix ExtRat → SparseMatrix ExtRat}
    (keeps : SparseMatrix.KeepsMatrix convert) (h : source.Denotes objective.length n M)
    (h' : (Source.byColumns A).Denotes objective.length n M) :
    ((∃ p, Program.ofSource source limits objective = .ok p)
        ↔ ∃ p, Program.ofSource (.byRows (convert A)) limits objective = .ok p)
      ∧ ∀ p p' : Program ExtRat, Program.ofSource source limits objective = .ok p →
        Program.ofSource (.byRows (convert A)) limits objective = .ok p' →
          Interchangeable n p p' := by
  have converted := keeps _ _ _ _ h'
  exact ⟨(Program.exists_ofSource_iff h).trans (Program.exists_ofSource_iff converted).symm,
    fun p p' hp hp' => interchangeable_of_denotes h converted hp hp'⟩

end Sources

/-- **Nothing depends on the form in which a matrix is given.**  Of two sources that give the same
matrix, both are accepted or none.  The objective is the same at every point; the left-hand sides
and the test of the constraints are at every point of numbers, and at every other point if no
infinite or undefined coordinate meets a zero that is stored.  And the search ends in the same
record or with the same error, unless the tolerance for pivots is negative and such a coordinate of
a root vertex meets a zero that is stored. -/
theorem independent_of_storage {source source' : Source ExtRat} {limits objective : List ExtRat}
    {n : ℕ} {M : List (List ExtRat)} (h : source.Denotes objective.length n M)
    (h' : source'.Denotes objective.length n M) :
    ((∃ p, Program.ofSource source limits objective = .ok p)
        ↔ ∃ p, Program.ofSource source' limits objective = .ok p)
      ∧ ∀ p p' : Program ExtRat, Program.ofSource source limits objective = .ok p →
        Program.ofSource source' limits objective = .ok p' →
          (∀ x, p'.value x = p.value x)
            ∧ (∀ x : List ExtRat, x.length = n →
              (∀ v ∈ x, isFinite v = true) ∨ p.matrix.Absorbs x ∧ p'.matrix.Absorbs x →
                p'.activities? x = p.activities? x
                  ∧ ∀ tol, p'.satisfies x tol = p.satisfies x tol)
            ∧ ∀ settings : Settings ExtRat,
              ¬ settings.relaxation.pivotTol < 0
                  ∨ p.AbsorbsRoots settings.relaxation ∧ p'.AbsorbsRoots settings.relaxation →
                (solve p' settings).result = (solve p settings).result := by
  refine ⟨(Program.exists_ofSource_iff h).trans (Program.exists_ofSource_iff h').symm,
    fun p p' hp hp' => ?_⟩
  have same := interchangeable_of_denotes h h' hp hp'
  exact ⟨same.value, same.points, same.search⟩

/-- The square by its dense rows, and compressed by columns with a zero that is stored: both are
accepted, as programs that are not the same, and searched with the same end. -/
theorem independent_of_storage_square :
    (Source.dense [[num 2, 0], [0, num 2]]).Denotes 2 2 [[num 2, 0], [0, num 2]]
      ∧ (Source.byColumns (.ofEntries 2 [[(0, num 2), (1, 0)], [(1, num 2)]])).Denotes 2 2
        [[num 2, 0], [0, num 2]]
      ∧ ∃ p p' : Program ExtRat,
        Program.ofSource (.dense [[num 2, 0], [0, num 2]]) [num 3, num 3] [num 1, num 1] = .ok p
          ∧ Program.ofSource (.byColumns (.ofEntries 2 [[(0, num 2), (1, 0)], [(1, num 2)]]))
            [num 3, num 3] [num 1, num 1] = .ok p'
          ∧ p' ≠ p
          ∧ (∀ tol, p'.satisfies [num 1, num 2] tol = p.satisfies [num 1, num 2] tol)
          ∧ (solve p' .standard).result = (solve p .standard).result := by
  have dense : (Source.dense [[num 2, 0], [0, num 2]]).Denotes 2 2 [[num 2, 0], [0, num 2]] := by
    decide +kernel
  have columns : (Source.byColumns (.ofEntries 2 [[(0, num 2), (1, 0)], [(1, num 2)]])).Denotes 2 2
      [[num 2, 0], [0, num 2]] := by
    decide +kernel
  have first : Program.ofSource (.dense [[num 2, 0], [0, num 2]]) [num 3, num 3] [num 1, num 1]
      = .ok square.embed := by rfl
  obtain ⟨both, same⟩ := @independent_of_storage _ _ [num 3, num 3] [num 1, num 1] _ _ dense columns
  obtain ⟨p', second⟩ := both.mp ⟨_, first⟩
  obtain ⟨-, points, search⟩ := same _ p' first second
  have other : p' ≠ square.embed := by
    rintro rfl
    exact absurd second (by decide +kernel)
  exact ⟨dense, columns, _, p', first, second, other,
    (points [num 1, num 2] rfl (.inl (by decide +kernel))).2,
    search .standard (.inl (by decide +kernel))⟩

/-- The standard settings with a negative tolerance for pivots. -/
def rash : Settings ExtRat :=
  { Settings.standard with
    relaxation := { LinearProgram.Settings.standard with pivotTol := num (-1 / 2) } }

/-- A pivot at a zero: the greatest `x` where `0 x ≤ 1` comes out infinite.  With the zero stored
the product at the vertex is undefined, so that no rounding of it satisfies the constraint, and
neither the test nor the search ends as without it. -/
theorem depends_on_storage_flat :
    (Source.dense [[(0 : ExtRat)]]).Denotes 1 1 [[0]]
      ∧ (Source.byRows (.ofEntries 1 [[(0, (0 : ExtRat))]])).Denotes 1 1 [[0]]
      ∧ ∃ p p' : Program ExtRat,
        Program.ofSource (.dense [[0]]) [num 1] [num 1] = .ok p
          ∧ Program.ofSource (.byRows (.ofEntries 1 [[(0, 0)]])) [num 1] [num 1] = .ok p'
          ∧ p'.activities? [.posInf] ≠ p.activities? [.posInf]
          ∧ p'.satisfies [.posInf] 0 ≠ p.satisfies [.posInf] 0
          ∧ (solve p rash).result = .error (.error (.integralVertex 0))
          ∧ (solve p' rash).result ≠ (solve p rash).result := by
  have failed : (solve (⟨[num 1], .ofEntries 1 [[]], [num 1]⟩ : Program ExtRat) rash).result
      = .error (.error (.integralVertex 0)) := Outcome.result_eq_error_iff.mpr (by decide +kernel)
  refine ⟨by decide +kernel, by decide +kernel, ⟨[num 1], .ofEntries 1 [[]], [num 1]⟩,
    ⟨[num 1], .ofEntries 1 [[(0, 0)]], [num 1]⟩, rfl, rfl, by decide +kernel, by decide +kernel,
    failed, fun same => ?_⟩
  exact absurd (Outcome.result_eq_error_iff.mp (same.trans failed)) (by decide +kernel)

end IntegerProgramming.Search
