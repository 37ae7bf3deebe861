import Mathlib
import IntegerProgramming.Proofs.Search.Depth
import IntegerProgramming.Proofs.Search.Origins
import IntegerProgramming.Proofs.Search.Trajectories

/-!
# Search — what the status `unbounded` is worth

A relaxation that is unbounded has a *ray*: a direction that leaves no constraint and along which
the objective grows (`Program.Ray`).  The coordinates of a ray are rational, so a multiple of it is
a direction of the lattice, and from one integer point it leads to others of any objective
(`Program.exists_value_gt`).

That there is one integer point is what the probe finds out.  It need not run to its end for that: a
probe that does not report the absence of points has an integral root or an incumbent, and without a
tolerance for integers either of them is a feasible integer point (`Solver.searchProgram_achieves`).

**The report `unbounded` is true** (`Solver.unbounded_true`), whatever the selector, the policy, the
gap tolerances and the limit are.
-/

namespace IntegerProgramming

open ExtRat (num innerProd)

/-! ### Directions of the lattice -/

/-- A multiple of a point. -/
def scaled (t : ℚ) (x : List ℚ) : List ℚ := x.map fun q => t * q

theorem scaled_scaled (s t : ℚ) (x : List ℚ) : scaled s (scaled t x) = scaled (s * t) x := by
  simp [scaled, mul_assoc]

theorem lattice_map_mul (k : ℤ) (e : List ℤ) :
    lattice (e.map fun a => k * a) = scaled k (lattice e) := by
  simp [lattice, scaled]

/-- Rational numbers have a common denominator. -/
theorem exists_common_denominator (d : List ℚ) :
    ∃ N : ℕ, 0 < N ∧ ∃ e : List ℤ, lattice e = scaled N d := by
  induction d with
  | nil => exact ⟨1, Nat.one_pos, [], rfl⟩
  | cons q rest ih =>
      obtain ⟨N, hN, e, he⟩ := ih
      refine ⟨q.den * N, Nat.mul_pos q.den_pos hN, N * q.num :: e.map fun a => q.den * a, ?_⟩
      have head : ((N * q.num : ℤ) : ℚ) = (q.den * N : ℕ) * q := by
        push_cast
        rw [mul_right_comm, mul_comm (q.den : ℚ) q, Rat.mul_den_eq_num, mul_comm]
      have tail : lattice (e.map fun a => q.den * a) = scaled (q.den * N : ℕ) rest := by
        rw [lattice_map_mul, he, scaled_scaled]
        push_cast
        rfl
      rw [lattice, List.map_cons, head]
      exact congrArg (_ :: ·) tail

/-- The point `k` steps along a direction. -/
def walk (z e : List ℤ) (k : ℕ) : List ℤ := List.zipWith (fun a b => a + k * b) z e

theorem length_walk {z e : List ℤ} (h : e.length = z.length) (k : ℕ) :
    (walk z e k).length = z.length := by
  simp [walk, h]

theorem getD_lattice_walk {z e : List ℤ} (h : e.length = z.length) (k j : ℕ) :
    (lattice (walk z e k)).getD j 0 = (lattice z).getD j 0 + k * (lattice e).getD j 0 := by
  rcases lt_or_ge j z.length with hj | hj
  · simp [walk, lattice, List.getD_eq_getElem?_getD, hj, h]
  · rw [List.getD_eq_default _ _ (by rwa [length_lattice, length_walk h]),
      List.getD_eq_default _ _ (by rwa [length_lattice]),
      List.getD_eq_default _ _ (by rwa [length_lattice, h]), mul_zero, add_zero]

/-- Along a direction a row grows by its value there. -/
theorem rowValue_walk {z e : List ℤ} (h : e.length = z.length) (k : ℕ) (row : List (ℕ × ℚ)) :
    rowValue (lattice (walk z e k)) row
      = rowValue (lattice z) row + k * rowValue (lattice e) row := by
  induction row with
  | nil => simp [rowValue]
  | cons entry rest ih =>
      simp only [rowValue, List.map_cons, List.sum_cons] at ih ⊢
      rw [ih, getD_lattice_walk h]
      ring

/-- Along a direction the objective grows by its value there. -/
theorem innerProd_walk {z e : List ℤ} (h : e.length = z.length) (k : ℕ) (c : List ℚ) :
    innerProd c (lattice (walk z e k))
      = innerProd c (lattice z) + k * innerProd c (lattice e) := by
  induction c generalizing z e with
  | nil => simp [innerProd]
  | cons a c ih =>
      cases z with
      | nil =>
          cases List.length_eq_zero_iff.mp h
          simp [innerProd, lattice, walk]
      | cons b z =>
          obtain ⟨b', e, rfl⟩ := List.exists_cons_of_length_eq_add_one h
          have tail := ih (Nat.succ.inj h)
          simp only [innerProd, lattice, walk, List.map_cons, List.zipWith_cons_cons,
            List.sum_cons] at tail ⊢
          rw [tail]
          push_cast
          ring

theorem getD_scaled (t : ℚ) (x : List ℚ) (j : ℕ) : (scaled t x).getD j 0 = t * x.getD j 0 := by
  simp only [scaled, List.getD_eq_getElem?_getD, List.getElem?_map]
  cases x[j]? <;> simp

theorem rowValue_scaled (t : ℚ) (x : List ℚ) (row : List (ℕ × ℚ)) :
    rowValue (scaled t x) row = t * rowValue x row := by
  induction row with
  | nil => simp [rowValue]
  | cons entry rest ih =>
      simp only [rowValue, List.map_cons, List.sum_cons] at ih ⊢
      rw [ih, getD_scaled]
      ring

theorem innerProd_scaled (t : ℚ) (c x : List ℚ) :
    innerProd c (scaled t x) = t * innerProd c x := by
  induction c generalizing x with
  | nil => simp [innerProd]
  | cons a c ih =>
      cases x with
      | nil => simp [innerProd, scaled]
      | cons q x =>
          have tail := ih x
          simp only [innerProd, scaled, List.map_cons, List.zipWith_cons_cons, List.sum_cons]
            at tail ⊢
          rw [tail]
          ring

/-! ### Rays -/

namespace Program

/-- The same rows with zero for each limit. -/
def homogeneous {α : Type} [Arith α] (p : Program α) : Program α :=
  { p with limits := List.replicate p.numConstraints 0 }

/-- A direction `d ≥ 0` with `matrix d ≤ 0` along which the objective grows. -/
structure Ray (p : Program ExtRat) (d : List ℚ) : Prop where
  level : p.homogeneous.satisfies (nums d) 0 = true
  rises : 0 < p.value (nums d)

theorem homogeneous_embed (P : Program ℚ) : P.embed.homogeneous = P.homogeneous.embed := by
  simp only [homogeneous, embed, numConstraints, length_nums]
  rw [nums.eq_1 (List.replicate _ 0), List.map_replicate, ExtRat.zero_eq]

theorem Regular.homogeneous {P : Program ℚ} (h : P.Regular) : P.homogeneous.Regular :=
  ⟨h.rows.trans (List.length_replicate ..).symm, h.sorted, h.inRange⟩

/-- The rows of a ray, over the rationals. -/
theorem Ray.rows {P : Program ℚ} (hP : P.Regular) {d : List ℚ} (ray : P.embed.Ray d) :
    d.length = P.numVars ∧ (∀ q ∈ d, 0 ≤ q)
      ∧ (∀ row ∈ P.matrix.rowEntries, rowValue d row ≤ 0) ∧ 0 < innerProd P.objective d := by
  have level := ray.level
  have rises := ray.rises
  rw [homogeneous_embed] at level
  rw [value_embed, ExtRat.zero_eq, ExtRat.num_lt] at rises
  have feasible := (satisfies_embed_iff hP.homogeneous).mp level
  refine ⟨feasible.length, fun q hq => by simpa using feasible.lower q hq, fun row hrow => ?_,
    rises⟩
  obtain ⟨i, hi, rfl⟩ := List.mem_iff_getElem.mp hrow
  have hi' : i < P.limits.length := hP.rows ▸ hi
  have hmem : (P.matrix.rowEntries[i], (0 : ℚ)) ∈ P.homogeneous.matrix.rowEntries.zip
      P.homogeneous.limits := by
    refine List.mem_iff_getElem.mpr ⟨i, ?_, ?_⟩
    · simp [Program.homogeneous, numConstraints, hi, hi']
    · simp [Program.homogeneous]
  simpa using feasible.limits _ hmem

/-- **A ray leads from one integer point to others of any objective.** -/
theorem exists_value_gt {P : Program ℚ} (hP : P.Regular) {z : List ℤ} (hz : P.Feasible (lattice z))
    {d : List ℚ} (ray : P.embed.Ray d) (M : ℚ) :
    ∃ z' : List ℤ, P.Feasible (lattice z') ∧ M < innerProd P.objective (lattice z') := by
  obtain ⟨length, nonneg, rows, rises⟩ := ray.rows hP
  obtain ⟨N, hN, e, he⟩ := exists_common_denominator d
  have hN' : (0 : ℚ) < N := Nat.cast_pos.mpr hN
  have hlength : e.length = z.length := by
    rw [← length_lattice e, he, scaled, List.length_map, length, ← hz.length, length_lattice]
  have gain : 0 < innerProd P.objective (lattice e) := by
    rw [he, innerProd_scaled]
    exact mul_pos hN' rises
  -- enough steps for the objective
  obtain ⟨k, hk⟩ := exists_nat_gt ((M - innerProd P.objective (lattice z))
    / innerProd P.objective (lattice e))
  rw [div_lt_iff₀ gain] at hk
  refine ⟨walk z e k, ⟨?_, fun v hv => ?_, fun row hrow => ?_⟩, ?_⟩
  · rw [length_lattice, length_walk hlength, ← hz.length, length_lattice]
  · obtain ⟨j, hj, rfl⟩ := List.mem_iff_getElem.mp hv
    have from_z : 0 ≤ (lattice z).getD j 0 := by
      rw [length_lattice, length_walk hlength, ← length_lattice] at hj
      rw [List.getD_eq_getElem _ _ hj]
      simpa using hz.lower _ (List.getElem_mem hj)
    have along : 0 ≤ (lattice e).getD j 0 := by
      rw [length_lattice, length_walk hlength, ← length_lattice, hz.length, ← length] at hj
      rw [he, getD_scaled, List.getD_eq_getElem _ _ hj]
      exact mul_nonneg hN'.le (nonneg _ (List.getElem_mem hj))
    rw [neg_zero, ← List.getD_eq_getElem _ 0 hj, getD_lattice_walk hlength]
    positivity
  · have along : rowValue (lattice e) row.1 ≤ 0 := by
      rw [he, rowValue_scaled]
      exact mul_nonpos_of_nonneg_of_nonpos hN'.le (rows _ (List.of_mem_zip hrow).1)
    have from_z := hz.limits row hrow
    rw [rowValue_walk hlength]
    have := mul_nonpos_of_nonneg_of_nonpos (Nat.cast_nonneg (α := ℚ) k) along
    linarith
  · rw [innerProd_walk hlength]
    linarith

end Program

/-! ### Oracles -/

/-- The oracle says that a region of the program is unbounded only if the program has a ray. -/
def Oracle.RaysOn {β ε : Type} (oracle : Oracle ExtRat β ε) (p : Program ExtRat) : Prop :=
  ∀ (changes : List (BoundChange ExtRat)) (state : β),
    (∀ change ∈ changes, change.Proper p.numVars) →
    (oracle.ask ⟨p, changes⟩ state).answer = .ok .unbounded → ∃ d, p.Ray d

/-- The oracle that asks a second one when the first fails. -/
def Oracle.orElse {α ε : Type} (first second : Oracle α Unit ε) : Oracle α Unit ε where
  ask sub state :=
    match (first.ask sub state).answer with
    | .ok _ => first.ask sub state
    | .error _ => second.ask sub state

theorem Oracle.answer_orElse {α ε : Type} {first second : Oracle α Unit ε} {sub : Subproblem α}
    {state : Unit} {relaxation : Relaxation α}
    (h : ((first.orElse second).ask sub state).answer = .ok relaxation) :
    (first.ask sub state).answer = .ok relaxation
      ∨ (second.ask sub state).answer = .ok relaxation := by
  simp only [orElse] at h
  split at h
  · exact .inl h
  · exact .inr h

/-! ### A strip -/

/-- The greatest `x` where `2 y ≤ 3`. -/
def strip : Program ℚ := ⟨[1, 0], .ofEntries 2 [[(1, 2)]], [3]⟩

/-- The relaxations that the probe of the strip asks for. -/
def stripTable : List (List (BoundChange ExtRat) × Relaxation ExtRat) :=
  [([], .optimal (num 0) [num 0, num (3 / 2)]),
    ([⟨1, .upper, num 1⟩], .optimal (num 0) [num 0, num 1]),
    ([⟨1, .lower, num 2⟩], .infeasible)]

/-- The strip is unbounded, and its probe is answered from the table. -/
def stripOracle : Oracle ExtRat Unit Unit :=
  (Oracle.ofTable strip.embed [([], .unbounded)]).orElse
    (.ofTable strip.embed.withZeroObjective stripTable)

theorem ray_strip : strip.embed.Ray [1, 0] :=
  ⟨by decide +kernel, by decide +kernel⟩

theorem raysOn_stripOracle (p : Program ExtRat) : stripOracle.RaysOn p := by
  intro changes state _ hanswer
  rcases Oracle.answer_orElse hanswer with hanswer | hanswer
  · obtain ⟨hp, -⟩ := Oracle.mem_of_answer_ofTable hanswer
    cases hp
    exact ⟨_, ray_strip⟩
  · obtain ⟨-, hmem⟩ := Oracle.mem_of_answer_ofTable hanswer
    simp [stripTable] at hmem

theorem inRegionOn_stripOracle (p : Program ExtRat) : stripOracle.InRegionOn p := by
  intro changes state value vertex _ hanswer
  rcases Oracle.answer_orElse hanswer with hanswer | hanswer
  · obtain ⟨-, hmem⟩ := Oracle.mem_of_answer_ofTable hanswer
    simp at hmem
  · obtain ⟨hp, hmem⟩ := Oracle.mem_of_answer_ofTable hanswer
    cases hp
    simp only [stripTable, List.mem_cons, Prod.mk.injEq, Relaxation.optimal.injEq, reduceCtorEq,
      and_false, List.not_mem_nil, or_false] at hmem
    rcases hmem with ⟨rfl, -, rfl⟩ | ⟨rfl, -, rfl⟩
    · exact ⟨[0, 3 / 2], rfl, by decide +kernel, by decide +kernel⟩
    · exact ⟨[0, 1], rfl, by decide +kernel, by decide +kernel⟩

end IntegerProgramming

namespace IntegerProgramming.Search

open ExtRat (num innerProd)

variable {β η ε : Type} {S : Solver ExtRat β η ε} {p : Program ExtRat}

/-! ### Points of the probe -/

/-- An integer point that satisfies the constraints. -/
def IntegerPoint (p : Program ExtRat) (x : List ExtRat) : Prop :=
  (∃ z : List ℤ, x = nums (lattice z)) ∧ p.satisfies x 0 = true

/-- Without a tolerance, an integral vertex of a region is an integer point. -/
theorem integerPoint_of_isIntegral {changes : List (BoundChange ExtRat)} {vertex : List ExtRat}
    (region : ∃ x, vertex = nums x ∧ Subproblem.Contains ⟨p, changes⟩ x)
    (integral : isIntegral vertex 0 = true) : IntegerPoint p (nearestIntegers vertex) := by
  obtain ⟨x, rfl, contains⟩ := region
  refine ⟨⟨snap x, nearestIntegers_nums x⟩, ?_⟩
  rw [nearestIntegers_of_isIntegral integral]
  exact contains.satisfies

/-- The incumbent is an integer point, and open nodes have a vertex in their region. -/
structure Achieves (p : Program ExtRat) (s : State ExtRat β η ε) : Prop where
  best : ∀ c, s.incumbent.best = some c → IntegerPoint p c.point
  nodes : ∀ node ∈ s.frontier.nodes, Inhabited p node

/-- **One child.**  An integral vertex that is offered is an integer point, and a child that stays
open has its vertex in its region. -/
theorem Achieves.place (hint : S.settings.integrality = 0) (within : S.oracle.InRegionOn p)
    {node : Node ExtRat} {s t : State ExtRat β η ε} (h : Achieves p s)
    (proper : ∀ change ∈ node.changes, change.Proper p.numVars)
    (ht : S.place p node s = .ok t) : Achieves p t := by
  obtain ⟨relaxation, fate, hanswer, hfate, rfl⟩ := Solver.place_ok ht
  generalize (s.session.note (.created node)).afterReply _ _ = session
  rcases Solver.fate?_cases hfate with ⟨v, y, rfl, -, hy, rfl⟩ | ⟨v, y, rfl, -, -, rfl⟩
    | ⟨v, y, -, -, rfl⟩ | ⟨-, rfl⟩ | ⟨-, rfl⟩
  · rw [State.file, State.adopt]
    split
    · refine ⟨fun c hc => ?_, h.nodes⟩
      rcases offer_best hc with rfl | hc
      · rw [hint] at hy
        exact integerPoint_of_isIntegral (within _ _ _ _ proper hanswer) hy
      · exact h.best c hc
    · exact ⟨h.best, h.nodes⟩
  · refine ⟨h.best, fun n hn => ?_⟩
    rcases List.mem_append.mp hn with hn | hn
    · exact h.nodes n hn
    · exact List.mem_singleton.mp hn ▸ ⟨proper, within _ _ _ _ proper hanswer⟩
  · exact ⟨h.best, h.nodes⟩
  · exact ⟨h.best, h.nodes⟩
  · exact ⟨h.best, h.nodes⟩

/-- **A step keeps the incumbent an integer point.** -/
theorem Achieves.expand (hint : S.settings.integrality = 0) (within : S.oracle.InRegionOn p)
    {s t : State ExtRat β η ε} (h : Achieves p s) (ht : S.expand p s = .ok t) : Achieves p t := by
  obtain ⟨parent, rest, var, value, down, up, hpop, -, hvalue, hdown, hup, rfl⟩ :=
    Solver.expand_ok ht
  obtain ⟨hparent, hrest⟩ := Frontier.mem_of_pop? hpop
  have inhabited := h.nodes parent hparent
  obtain ⟨hn, x, q, -, -, -, rfl⟩ := inhabited.coordinate hvalue
  have selected : Achieves p (s.select parent rest) :=
    ⟨h.best, fun n hmem => h.nodes n (hrest n hmem)⟩
  have placed := (selected.place hint within
    (Node.proper_child inhabited.proper (BoundChange.proper_down hn q) _) hdown).place hint within
    (Node.proper_child inhabited.proper (BoundChange.proper_up hn q) _) hup
  exact ⟨placed.best, placed.nodes⟩

/-- The search begins with the point of the heuristic, if there is one. -/
theorem Achieves.begin (hH : S.heuristic.FeasibleOn p) {bound : ExtRat} {vertex : List ExtRat}
    (region : ∃ x, vertex = nums x ∧ Subproblem.Contains ⟨p, []⟩ x)
    {session : Session ExtRat β η ε} {s : State ExtRat β η ε}
    (h : S.begin p bound vertex session = .ok s) : Achieves p s := by
  obtain ⟨hnodes, -, -, hstart⟩ := Solver.begin_ok h
  refine ⟨fun c hc => ?_, fun node hnode => ?_⟩
  · rcases hstart with ⟨-, -, hi⟩ | ⟨x, hx, -, hi⟩
    · rw [hi] at hc
      cases hc
    · rw [hi] at hc
      rcases offer_best hc with rfl | hc
      · exact hH _ _ _ hx
      · cases hc
  · rw [hnodes] at hnode
    exact List.mem_singleton.mp hnode ▸ ⟨fun c hc => absurd hc List.not_mem_nil, region⟩

/-- **A search that does not report the absence of points has found one**, however early it
stopped. -/
theorem Solver.searchProgram_achieves (hint : S.settings.integrality = 0)
    (hH : S.heuristic.FeasibleOn p) (within : S.oracle.InRegionOn p)
    {ifUnbounded : Session ExtRat β η ε →
      Attempt ExtRat β η ε (Record ExtRat × Session ExtRat β η ε)}
    {session session' : Session ExtRat β η ε} {record : Record ExtRat}
    (h : S.searchProgram p ifUnbounded session = .ok (record, session'))
    (hs : record.status ≠ .infeasible) :
    (∃ x, IntegerPoint p x) ∨ ∃ between, S.ask ⟨p, []⟩ session = .ok (.unbounded, between)
      ∧ ifUnbounded between = .ok (record, session') := by
  obtain ⟨root, between, hask, hroot⟩ := Solver.searchProgram_cases h
  have region {bound : ExtRat} {vertex : List ExtRat} (hoptimal : root = .optimal bound vertex) :
      ∃ x, vertex = nums x ∧ Subproblem.Contains ⟨p, []⟩ x :=
    within [] _ bound vertex (fun c hc => absurd hc List.not_mem_nil)
      (hoptimal ▸ (Solver.ask_ok hask).1)
  rcases hroot with ⟨bound, vertex, hoptimal, hvertex, -, -⟩ | ⟨bound, vertex, hoptimal, -, htree⟩
    | ⟨-, rfl, -⟩ | ⟨rfl, hunbounded⟩
  · rw [hint] at hvertex
    exact .inl ⟨_, integerPoint_of_isIntegral (region hoptimal) hvertex⟩
  · obtain ⟨start, s, reason, hbegin, run, -, rfl, -⟩ := Solver.searchTree_ok htree
    have achieves : Achieves p s := run.invariant
      (fun _ _ h _ hexpand => h.expand hint within hexpand) (.begin hH (region hoptimal) hbegin)
    cases hbest : s.incumbent.best with
    | none =>
        rw [State.report, hbest] at hs
        exact absurd rfl hs
    | some c => exact .inl ⟨_, achieves.best c hbest⟩
  · exact absurd rfl hs
  · exact .inr ⟨between, hask, hunbounded⟩

/-! ### The status `unbounded` -/

/-- Only an unbounded root leads to the status `unbounded`. -/
theorem Solver.searchProgram_unbounded {α : Type} [Scalar α] {S : Solver α β η ε} {p : Program α}
    {ifUnbounded : Session α β η ε → Attempt α β η ε (Record α × Session α β η ε)}
    {session session' : Session α β η ε} {record : Record α}
    (h : S.searchProgram p ifUnbounded session = .ok (record, session'))
    (hs : record.status = .unbounded) :
    ∃ between, S.ask ⟨p, []⟩ session = .ok (.unbounded, between)
      ∧ ifUnbounded between = .ok (record, session') := by
  obtain ⟨root, between, hask, hroot⟩ := Solver.searchProgram_cases h
  rcases hroot with ⟨_, _, -, -, rfl, -⟩ | ⟨_, _, -, -, htree⟩ | ⟨-, rfl, -⟩ | ⟨rfl, hunbounded⟩
  · cases hs
  · obtain ⟨start, s, reason, -, -, -, rfl, -⟩ := Solver.searchTree_ok htree
    rw [State.report] at hs
    split at hs
    · cases hs
    · cases reason <;> cases hs
  · cases hs
  · exact ⟨between, hask, hunbounded⟩

/-- **The report `unbounded` is true.**  Without a tolerance for integers, with a heuristic that
finds feasible points, vertices that lie in their regions and rays behind unbounded relaxations, a
program with the status `unbounded` has integer points of any objective. -/
theorem Solver.unbounded_true (valid : p.validate = .ok ()) (stored : p.matrix.WellFormed)
    (hint : S.settings.integrality = 0) (hH : S.heuristic.FeasibleOn p.withZeroObjective)
    (within : S.oracle.InRegionOn p.withZeroObjective) (rays : S.oracle.RaysOn p)
    {session : Session ExtRat β η ε} {record : Record ExtRat}
    (h : (S.solve p session).result = .ok record) (hs : record.status = .unbounded) (M : ℚ) :
    ∃ z : List ℤ, p.satisfies (nums (lattice z)) 0 = true
      ∧ num M < p.value (nums (lattice z)) := by
  obtain ⟨P, hP, rfl⟩ := Program.exists_regular valid stored
  obtain ⟨between, hask, hunbounded⟩ := Solver.searchProgram_unbounded (Solver.solve_ok h) hs
  obtain ⟨d, ray⟩ := rays [] _ (fun c hc => absurd hc List.not_mem_nil) (Solver.ask_ok hask).1
  obtain ⟨probe, hprobe, rfl⟩ := Solver.searchUnbounded_ok hunbounded
  have found : probe.status ≠ .infeasible := by
    intro hinfeasible
    rw [afterProbe, if_pos hinfeasible] at hs
    cases hs
  rcases Solver.searchProgram_achieves hint hH within hprobe found
    with ⟨x, ⟨z, rfl⟩, hz⟩ | ⟨_, -, hfail⟩
  · rw [Program.satisfies_withZeroObjective] at hz
    obtain ⟨z', hz', hM⟩ :=
      Program.exists_value_gt hP ((Program.satisfies_embed_iff hP).mp hz) ray M
    refine ⟨z', (Program.satisfies_embed_iff hP).mpr hz', ?_⟩
    rwa [Program.value_embed, ExtRat.num_lt]
  · cases hfail

/-- The search of the strip, without a heuristic. -/
def stripSolver : Solver ExtRat Unit Unit Unit where
  settings := { Settings.standard with integrality := 0 }
  oracle := stripOracle
  selector := firstFractional
  heuristic := .never

/-- At the strip, whose probe finds the point `(0, 1)`. -/
theorem unbounded_true_strip :
    strip.embed.validate = .ok () ∧ strip.embed.matrix.WellFormed
      ∧ stripSolver.settings.integrality = 0
      ∧ stripSolver.heuristic.FeasibleOn strip.embed.withZeroObjective
      ∧ stripSolver.oracle.InRegionOn strip.embed.withZeroObjective
      ∧ stripSolver.oracle.RaysOn strip.embed
      ∧ ∃ record, (stripSolver.solve strip.embed (.new () ())).result = .ok record
        ∧ record.status = .unbounded
        ∧ ∃ z : List ℤ, strip.embed.satisfies (nums (lattice z)) 0 = true
          ∧ num 100 < strip.embed.value (nums (lattice z)) := by
  have valid : strip.embed.validate = .ok () := by decide +kernel
  have stored : strip.embed.matrix.WellFormed := by decide +kernel
  have feasible : stripSolver.heuristic.FeasibleOn strip.embed.withZeroObjective :=
    Heuristic.feasibleOn_never _
  have within : stripSolver.oracle.InRegionOn strip.embed.withZeroObjective :=
    inRegionOn_stripOracle _
  have rays : stripSolver.oracle.RaysOn strip.embed := raysOn_stripOracle _
  obtain ⟨record, h, hs⟩ : ∃ record,
      (stripSolver.solve strip.embed (.new () ())).result = .ok record
        ∧ record.status = .unbounded := exists_ok_of_toOption (by decide +kernel)
  exact ⟨valid, stored, rfl, feasible, within, rays, record, h, hs,
    Solver.unbounded_true valid stored rfl feasible within rays h hs 100⟩

end IntegerProgramming.Search
