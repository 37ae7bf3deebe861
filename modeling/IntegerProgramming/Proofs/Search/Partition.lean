import Mathlib
import IntegerProgramming.Proofs.Search.Optimality

/-!
# Search — the tree divides the integer points

Whatever the oracle answers, the nodes that are open and the children that were closed since the
search began divide the integer points among them (`Partition`): each integer point is admitted by
the changes of exactly one.  What a split relies on is only that it is made at a number that is no
integer, so at the tolerance of the search the selector has to name a coordinate that is away from
the integers (`Selector.FractionalAt`), and vertices have to be finite.

**Every state of a search divides the integer points** (`Solver.divides`), and neither child of the
node it is about to split admits the vertex of the node.  A child that is placed is opened or closed
(`Solver.place_regions`), so splitting a node replaces its changes by those of its two children
(`Solver.expand_regions`), and these divide what the node admits (`Partition.split`).
-/

namespace IntegerProgramming

open ExtRat (num)

/-! ### Splitting at a number that is no integer -/

/-- What the selector names at this tolerance is farther from the integers than the tolerance. -/
def Selector.FractionalAt {α : Type} [Scalar α] (select : Selector α) (tol : α) : Prop :=
  ∀ (x : List α) (var : ℕ), select x tol = some var →
    ∃ v, x[var]? = some v ∧ tol < fractionality v

theorem firstFractional_fractionalAt {α : Type} [Scalar α] (tol : α) :
    Selector.FractionalAt firstFractional tol := by
  intro x var h
  obtain ⟨hvar, hv, -⟩ := List.findIdx?_eq_some_iff_getElem.mp h
  exact ⟨x[var], List.getElem?_eq_getElem hvar, of_decide_eq_true hv⟩

/-- A number that is farther from the integers than a tolerance lies strictly between two of them.
-/
theorem floor_lt_and_lt_ceil {tol : ExtRat} (ht : 0 ≤ tol) {q : ℚ}
    (h : tol < fractionality (num q)) : (⌊q⌋ : ℚ) < q ∧ q < ⌈q⌉ := by
  have away (k : ℤ) : q ≠ k := by
    rintro rfl
    rw [ExtRat.fractionality_num, ExtRat.nearest_intCast, sub_self, abs_zero] at h
    rcases ExtRat.nonneg_cases ht with rfl | ⟨t, rfl, htol⟩
    · exact ExtRat.not_posInf_lt _ h
    · exact absurd (ExtRat.num_lt.mp h) (not_lt.mpr htol)
  exact ⟨lt_of_le_of_ne (Int.floor_le q) (away _).symm, lt_of_le_of_ne (Int.le_ceil q) (away _)⟩

/-- A fractional selector names a coordinate of a finite vertex that lies strictly between two
integers. -/
theorem Selector.FractionalAt.splits {select : Selector ExtRat} {tol : ExtRat}
    (fractional : select.FractionalAt tol) (ht : 0 ≤ tol) {vertex : List ExtRat}
    (finite : vertex.all isFinite = true) {var : ℕ} {value : ExtRat}
    (hvar : select vertex tol = some var) (hvalue : vertex[var]? = some value) :
    ∃ x q, vertex = nums x ∧ x[var]? = some q ∧ value = num q ∧ (⌊q⌋ : ℚ) < q ∧ q < ⌈q⌉ := by
  obtain ⟨x, rfl⟩ := exists_nums finite
  obtain ⟨v, hv, hfar⟩ := fractional _ _ hvar
  cases Option.some.inj (hv.symm.trans hvalue)
  rw [nums, List.getElem?_map, Option.map_eq_some_iff] at hvalue
  obtain ⟨q, hq, rfl⟩ := hvalue
  exact ⟨x, q, rfl, hq, rfl, floor_lt_and_lt_ceil ht hfar⟩

namespace BoundChange

/-- A number strictly between two integers is cut off by both parts of a split there. -/
theorem not_admits?_of_getElem {q : ℚ} (hq : (⌊q⌋ : ℚ) < q ∧ q < ⌈q⌉) {var : ℕ} {x : List ℚ}
    (hx : x[var]? = some q) :
    (down var (num q)).admits? (nums x) ≠ some true
      ∧ (up var (num q)).admits? (nums x) ≠ some true := by
  obtain ⟨hvar, rfl⟩ := List.getElem?_eq_some_iff.mp hx
  rw [Ne, Ne, admits?_down_iff hvar, admits?_up_iff hvar, not_le, not_le]
  exact hq

/-- Strictly between two integers, a split gives each integer point to one part only. -/
theorem admits?_up_iff_not_down {q : ℚ} (hq : (⌊q⌋ : ℚ) < q ∧ q < ⌈q⌉) {var : ℕ} {z : List ℤ}
    (h : var < z.length) :
    (up var (num q)).admits? (nums (lattice z)) = some true
      ↔ ¬ (down var (num q)).admits? (nums (lattice z)) = some true := by
  have hvar : var < (lattice z).length := by rwa [length_lattice]
  have coord : (lattice z)[var] = (z[var] : ℚ) := by simp [lattice]
  have apart : ⌊q⌋ < ⌈q⌉ := by exact_mod_cast hq.1.trans hq.2
  have next := Int.ceil_le_floor_add_one q
  rw [admits?_down_iff hvar, admits?_up_iff hvar, coord, Int.cast_le, Int.cast_le]
  omega

end BoundChange

/-! ### Vertices -/

/-- The oracle answers some question with the vertex. -/
def Oracle.Gives {α β ε : Type} (oracle : Oracle α β ε) (vertex : List α) : Prop :=
  ∃ sub state value, (oracle.ask sub state).answer = .ok (.optimal value vertex)

/-! ### Partitions -/

instance (changes : List (BoundChange ExtRat)) (x : List ℚ) : Decidable (Admits changes x) :=
  inferInstanceAs (Decidable (∀ change ∈ changes, change.admits? (nums x) = some true))

/-- Each integer point is admitted by exactly one of the lists of changes, if it has the coordinates
that they are about. -/
def Partition (regions : List (List (BoundChange ExtRat))) : Prop :=
  ∀ z : List ℤ, (∀ changes ∈ regions, ∀ change ∈ changes, change.var < z.length) →
    regions.countP (fun changes => decide (Admits changes (lattice z))) = 1

theorem Partition.perm {regions regions' : List (List (BoundChange ExtRat))}
    (h : Partition regions) (hperm : regions'.Perm regions) : Partition regions' := by
  intro z hz
  rw [hperm.countP_eq]
  exact h z fun changes hmem => hz changes (hperm.mem_iff.mpr hmem)

/-- Nothing divides the integer points but a list that admits them all. -/
theorem partition_whole : Partition [[]] := by
  intro z _
  simp [Admits]

/-- **A split divides what was whole.**  Splitting one of the lists strictly between two integers
keeps a partition. -/
theorem Partition.split {changes : List (BoundChange ExtRat)}
    {regions : List (List (BoundChange ExtRat))} (h : Partition (changes :: regions)) {q : ℚ}
    (hq : (⌊q⌋ : ℚ) < q ∧ q < ⌈q⌉) (var : ℕ) :
    Partition ((changes ++ [.down var (num q)]) :: (changes ++ [.up var (num q)]) :: regions) := by
  intro z hz
  obtain ⟨hdown, hz⟩ := List.forall_mem_cons.mp hz
  obtain ⟨-, hrest⟩ := List.forall_mem_cons.mp hz
  have hvar : var < z.length :=
    hdown _ (List.mem_append_right _ (List.mem_singleton_self (BoundChange.down var (num q))))
  have whole := h z (List.forall_mem_cons.mpr
    ⟨fun change hmem => hdown change (List.mem_append_left _ hmem), hrest⟩)
  have one := BoundChange.admits?_up_iff_not_down hq hvar
  rw [List.countP_cons] at whole ⊢
  rw [List.countP_cons]
  simp only [admits_append_singleton, one, decide_eq_true_eq] at whole ⊢
  by_cases hchanges : Admits changes (lattice z)
  · by_cases hside : (BoundChange.down var (num q)).admits? (nums (lattice z)) = some true
    · simpa [hchanges, hside] using whole
    · simpa [hchanges, hside] using whole
  · simpa [hchanges] using whole

end IntegerProgramming

namespace IntegerProgramming.Search

open ExtRat (num)

variable {α β η ε : Type}

/-! ### Closed children -/

/-- The child that an event closes. -/
def Event.closed? : Event α ε → Option (Node α)
  | .filed node fate => if fate.closes then some node else none
  | _ => none

/-- The children that were closed, in order. -/
def Journal.closed (journal : Journal α ε) : List (Node α) :=
  journal.toList.filterMap Event.closed?

theorem Journal.closed_push (journal : Journal α ε) (e : Event α ε) :
    Journal.closed (journal.push e) = journal.closed ++ e.closed?.toList := by
  cases h : e.closed? <;> simp [closed, h]

/-- An event that closes no child. -/
theorem Session.closed_note {s : Session α β η ε} {e : Event α ε} (h : e.closed? = none) :
    (s.note e).journal.closed = s.journal.closed := by
  rw [note, Journal.closed_push, h, Option.toList_none, List.append_nil]

theorem Session.closed_noteIf {s : Session α β η ε} {condition : Bool} {e : Event α ε}
    (h : e.closed? = none) : (s.noteIf condition e).journal.closed = s.journal.closed := by
  rw [noteIf]
  split
  · exact closed_note h
  · rfl

theorem Session.closed_afterReply (s : Session α β η ε) (sub : Subproblem α)
    (reply : Reply α β ε) : (s.afterReply sub reply).journal.closed = s.journal.closed := by
  have solved (results : List (LinearProgram.Result α)) : ∀ s : Session α β η ε,
      (results.foldl (fun s result => s.note (.solved result)) s).journal.closed
        = s.journal.closed := by
    induction results with
    | nil => exact fun s => rfl
    | cons result rest ih => exact fun s => (ih _).trans (closed_note rfl)
  exact (closed_note rfl).trans (solved reply.solved s)

/-- The changes of the nodes that are open and of the children that were closed since another state.
-/
def State.regionsSince (s start : State α β η ε) : List (List (BoundChange α)) :=
  (s.frontier.nodes ++ s.session.journal.closed.drop start.session.journal.closed.length).map
    Node.changes

/-! ### One child -/

section Steps

variable [Scalar α] {S : Solver α β η ε} {p : Program α} {start : State α β η ε}

/-- Only a child with a vertex is kept. -/
theorem Solver.relaxation_of_kept {lower v : α} {x : List α} {relaxation : Relaxation α}
    (h : S.fate? p lower relaxation = some (.kept v x)) : relaxation = .optimal v x := by
  rcases Solver.fate?_cases h with ⟨_, _, -, -, -, hf⟩ | ⟨_, _, rfl, -, -, hf⟩ | ⟨_, _, -, -, hf⟩
    | ⟨-, hf⟩ | ⟨-, hf⟩ <;> cases hf
  rfl

/-- A child that is placed is opened, with a vertex that the oracle gave, or it is closed. -/
theorem Solver.place_opens_or_closes {node : Node α} {s t : State α β η ε}
    (h : S.place p node s = .ok t) :
    ∃ opened closed, t.frontier.nodes = s.frontier.nodes ++ opened
      ∧ t.session.journal.closed = s.session.journal.closed ++ closed
      ∧ (opened ++ closed).map Node.changes = [node.changes]
      ∧ ∀ n ∈ opened, S.oracle.Gives n.vertex := by
  obtain ⟨relaxation, fate, hanswer, hfate, rfl⟩ := Solver.place_ok h
  have before : ((s.session.note (.created node)).afterReply ⟨p, node.changes⟩
      (S.oracle.ask ⟨p, node.changes⟩ s.session.oracle)).journal.closed
        = s.session.journal.closed :=
    (Session.closed_afterReply _ _ _).trans (Session.closed_note rfl)
  generalize (s.session.note (.created node)).afterReply _ _ = session at before ⊢
  have filed (fate : Fate α) : (session.note (.filed node fate)).journal.closed
      = s.session.journal.closed ++ (if fate.closes then [node] else []) := by
    rw [Session.note, Journal.closed_push, before, Event.closed?]
    split <;> rfl
  cases fate with
  | candidate c =>
      refine ⟨[], [node], ?_, ?_, rfl, by simp⟩
      · rw [State.file, State.adopt]
        split <;> exact (List.append_nil _).symm
      · rw [State.file, State.adopt]
        split
        · exact (Session.closed_note rfl).trans (filed _)
        · exact filed _
  | kept v x =>
      refine ⟨[node.withRelaxation v x], [], rfl, filed _, rfl, ?_⟩
      rw [Solver.relaxation_of_kept hfate] at hanswer
      exact List.forall_mem_singleton.mpr ⟨_, _, v, hanswer⟩
  | pruned kind => exact ⟨[], [node], (List.append_nil _).symm, filed _, rfl, by simp⟩
  | discarded => exact ⟨[], [node], (List.append_nil _).symm, filed _, rfl, by simp⟩

/-- What was closed before the start is closed afterwards. -/
def State.Follows (s start : State α β η ε) : Prop :=
  start.session.journal.closed.length ≤ s.session.journal.closed.length

/-- Placing a child adds its changes to the regions. -/
theorem Solver.place_regions {node : Node α} {s t : State α β η ε} (hs : s.Follows start)
    (h : S.place p node s = .ok t) :
    t.Follows start ∧ (t.regionsSince start).Perm (node.changes :: s.regionsSince start)
      ∧ ∀ n ∈ t.frontier.nodes, n ∈ s.frontier.nodes ∨ S.oracle.Gives n.vertex := by
  obtain ⟨opened, closed, hopened, hclosed, hchanges, gives⟩ := Solver.place_opens_or_closes h
  refine ⟨?_, ?_, fun n hn => ?_⟩
  · rw [State.Follows, hclosed, List.length_append]
    exact hs.trans (Nat.le_add_right _ _)
  · rw [State.regionsSince, hopened, hclosed, List.drop_append_of_le_length hs,
      ← List.singleton_append, ← hchanges, State.regionsSince, ← List.map_append]
    refine List.Perm.map _ ?_
    rw [List.append_assoc, List.append_assoc]
    refine (List.perm_append_comm_assoc _ _ _).trans (List.Perm.append_left opened ?_)
    rw [← List.append_assoc]
    exact List.perm_append_comm
  · rw [hopened] at hn
    exact (List.mem_append.mp hn).imp_right (gives n)

omit [Scalar α] in
/-- Taking an open node removes its changes from the regions. -/
theorem State.select_regions {s : State α β η ε} {node : Node α} {rest : Frontier α}
    (hpop : s.frontier.pop? = some (node, rest)) :
    node ∈ s.frontier.nodes
      ∧ (s.regionsSince start).Perm (node.changes :: (s.select node rest).regionsSince start)
      ∧ ∀ n ∈ (s.select node rest).frontier.nodes, n ∈ s.frontier.nodes := by
  obtain ⟨hnode, rfl⟩ := Frontier.pop?_eq_some_iff.mp hpop
  refine ⟨List.mem_of_getElem? hnode, ?_, fun n hn => List.mem_of_mem_eraseIdx hn⟩
  obtain ⟨hi, rfl⟩ := List.getElem?_eq_some_iff.mp hnode
  have closed : (s.session.note (.selected s.frontier.nodes[s.frontier.policy
      s.frontier.nodes])).journal.closed = s.session.journal.closed := Session.closed_note rfl
  simp only [State.regionsSince, State.select, closed, ← List.map_cons]
  exact ((List.getElem_cons_eraseIdx_perm hi).symm.append_right _).map _

/-- Splitting a node replaces its changes by those of its two children. -/
theorem Solver.expand_regions {s t : State α β η ε} (hs : s.Follows start)
    (h : S.expand p s = .ok t) :
    t.Follows start ∧ (∀ n ∈ t.frontier.nodes, n ∈ s.frontier.nodes ∨ S.oracle.Gives n.vertex)
      ∧ ∃ parent ∈ s.frontier.nodes, ∃ var value others,
        S.selector parent.vertex S.settings.integrality = some var
          ∧ parent.vertex[var]? = some value
          ∧ (s.regionsSince start).Perm (parent.changes :: others)
          ∧ (t.regionsSince start).Perm ((parent.changes ++ [.down var value])
              :: (parent.changes ++ [.up var value]) :: others) := by
  obtain ⟨parent, rest, var, value, down, up, hpop, hvar, hvalue, hdown, hup, rfl⟩ :=
    Solver.expand_ok h
  obtain ⟨hparent, selected, nodes⟩ : _ ∧ (s.regionsSince start).Perm _ ∧ _ :=
    State.select_regions hpop
  have follows : (s.select parent rest).Follows start := by
    rw [State.Follows, State.select, Session.closed_note rfl]
    exact hs
  obtain ⟨followsDown, regionsDown, nodesDown⟩ := Solver.place_regions follows hdown
  obtain ⟨followsUp, regionsUp, nodesUp⟩ := Solver.place_regions followsDown hup
  have settled : (S.settle up).session.journal.closed = up.session.journal.closed :=
    Session.closed_noteIf rfl
  refine ⟨?_, fun n hn => ?_, parent, hparent, var, value, _, hvar, hvalue, selected, ?_⟩
  · rw [State.Follows, settled]
    exact followsUp
  · rcases nodesUp n hn with hn | hn
    · exact (nodesDown n hn).imp_left (nodes n)
    · exact .inr hn
  · have regions : (S.settle up).regionsSince start = up.regionsSince start := by
      rw [State.regionsSince, settled]
      rfl
    rw [regions]
    exact regionsUp.trans ((regionsDown.cons _).trans (List.Perm.swap _ _ _))

/-! ### A whole search -/

/-- Exploring the tree of a program begins in one state and comes to another, in which it looks for
a reason to stop. -/
def Solver.Explores (S : Solver α β η ε) (p : Program α) (session : Session α β η ε)
    (start s : State α β η ε) : Prop :=
  ∃ bound vertex between, S.ask ⟨p, []⟩ session = .ok (.optimal bound vertex, between)
    ∧ S.begin p bound vertex between = .ok start ∧ Reaches S p start s

/-- The search of a program explores its tree, or that of the probe that an unbounded program is
given, from one state to another. -/
inductive Solver.Visits (S : Solver α β η ε) (p : Program α) (session : Session α β η ε)
    (start s : State α β η ε) : Prop where
  | program (h : S.Explores p { session with heuristic := S.heuristic.reset session.heuristic }
      start s)
  | probe {between : Session α β η ε}
      (unbounded : S.ask ⟨p, []⟩
          { session with heuristic := S.heuristic.reset session.heuristic }
        = .ok (.unbounded, between))
      (h : S.Explores p.withZeroObjective (between.note .rootUnbounded) start s)

end Steps

variable {S : Solver ExtRat β η ε} {p : Program ExtRat} {start : State ExtRat β η ε}

/-- What holds of every state of a search: its nodes have vertices that the oracle gave, its regions
are about coordinates of such vertices, and they divide the integer points. -/
structure Divided (S : Solver ExtRat β η ε) (start s : State ExtRat β η ε) : Prop where
  follows : s.Follows start
  vertices : ∀ node ∈ s.frontier.nodes, S.oracle.Gives node.vertex
  coordinates : ∀ changes ∈ s.regionsSince start, ∀ change ∈ changes,
    ∃ x, S.oracle.Gives x ∧ change.var < x.length
  partition : Partition (s.regionsSince start)

/-- The search begins with the root, which admits every point. -/
theorem Divided.begin {bound : ExtRat} {vertex : List ExtRat}
    (hvertex : S.oracle.Gives vertex) {session : Session ExtRat β η ε}
    (h : S.begin p bound vertex session = .ok start) : Divided S start start := by
  obtain ⟨hnodes, -⟩ := Solver.begin_ok h
  have regions : start.regionsSince start = [[]] := by
    rw [State.regionsSince, hnodes, List.drop_length]
    rfl
  refine ⟨Nat.le_refl _, fun node hnode => ?_, fun changes hchanges => ?_, ?_⟩
  · rw [hnodes] at hnode
    exact List.mem_singleton.mp hnode ▸ hvertex
  · rw [regions] at hchanges
    cases List.mem_singleton.mp hchanges
    exact fun change hchange => absurd hchange List.not_mem_nil
  · rw [regions]
    exact partition_whole

/-- **A step keeps the division.** -/
theorem Divided.expand
    (finite : ∀ x, S.oracle.Gives x → x.all isFinite = true)
    (fractional : S.selector.FractionalAt S.settings.integrality) (ht : 0 ≤ S.settings.integrality)
    {s t : State ExtRat β η ε} (divided : Divided S start s) (h : S.expand p s = .ok t) :
    Divided S start t := by
  obtain ⟨follows, nodes, parent, hparent, var, value, others, hvar, hvalue, before, after⟩ :=
    Solver.expand_regions divided.follows h
  have given := divided.vertices parent hparent
  obtain ⟨x, q, hx, -, rfl, hq⟩ := fractional.splits ht (finite _ given) hvar hvalue
  have hlength : var < parent.vertex.length := (List.getElem?_eq_some_iff.mp hvalue).1
  refine ⟨follows, fun n hn => (nodes n hn).elim (divided.vertices n) id,
    fun changes hchanges => ?_, ((divided.partition.perm before.symm).split hq var).perm after⟩
  have parentCoordinates := divided.coordinates _ (before.mem_iff.mpr (List.mem_cons_self ..))
  have child (change : BoundChange ExtRat) (hchange : change.var = var) :
      ∀ c ∈ parent.changes ++ [change], ∃ x, S.oracle.Gives x ∧ c.var < x.length := by
    intro c hc
    rcases List.mem_append.mp hc with hc | hc
    · exact parentCoordinates c hc
    · cases List.mem_singleton.mp hc
      exact ⟨_, given, hchange ▸ hlength⟩
  rcases List.mem_cons.mp (after.mem_iff.mp hchanges) with rfl | hchanges
  · exact child _ rfl
  · rcases List.mem_cons.mp hchanges with rfl | hchanges
    · exact child _ rfl
    · exact divided.coordinates _ (before.mem_iff.mpr (List.mem_cons_of_mem _ hchanges))

theorem Divided.explores
    (finite : ∀ x, S.oracle.Gives x → x.all isFinite = true)
    (fractional : S.selector.FractionalAt S.settings.integrality) (ht : 0 ≤ S.settings.integrality)
    {session : Session ExtRat β η ε} {s : State ExtRat β η ε}
    (h : S.Explores p session start s) : Divided S start s := by
  obtain ⟨bound, vertex, between, hask, hbegin, run⟩ := h
  have given : S.oracle.Gives vertex := ⟨_, _, bound, (Solver.ask_ok hask).1⟩
  exact run.invariant
    (fun _ _ divided _ hexpand => divided.expand finite fractional ht hexpand) (.begin given hbegin)

/-- **The tree divides the integer points.**  For an oracle with finite vertices and a selector that
names fractional coordinates at the tolerance of the search, every state of every search has
regions, the open nodes and the children closed since it began, of which each integer point lies in
exactly one.  They are about the variables that the vertices have.  A node that is about to be split
has a vertex that neither of its children admits. -/
theorem Solver.divides (finite : ∀ x, S.oracle.Gives x → x.all isFinite = true)
    (fractional : S.selector.FractionalAt S.settings.integrality) (ht : 0 ≤ S.settings.integrality)
    {session : Session ExtRat β η ε} {s : State ExtRat β η ε} (visit : S.Visits p session start s) :
    Partition (s.regionsSince start)
      ∧ (∀ n, (∀ x, S.oracle.Gives x → x.length ≤ n) →
          ∀ changes ∈ s.regionsSince start, ∀ change ∈ changes, change.var < n)
      ∧ ∀ parent rest decision, s.frontier.pop? = some (parent, rest) →
          S.selector.decide? parent.vertex S.settings.integrality = .ok (some decision) →
          ∃ x, parent.vertex = nums x ∧ ∀ id,
            ¬ Admits (parent.child id decision.down).changes x
              ∧ ¬ Admits (parent.child id decision.up).changes x := by
  have divided : Divided S start s := by
    cases visit with
    | program h => exact .explores finite fractional ht h
    | probe _ h => exact .explores finite fractional ht h
  refine ⟨divided.partition, fun n within changes hchanges change hchange => ?_,
    fun parent rest decision hpop hdecide => ?_⟩
  · obtain ⟨x, given, hvar⟩ := divided.coordinates changes hchanges change hchange
    exact hvar.trans_le (within x given)
  · obtain ⟨var, value, hvar, hvalue, rfl⟩ := Selector.decide?_eq_some hdecide
    obtain ⟨hnode, -⟩ := Frontier.pop?_eq_some_iff.mp hpop
    have given := divided.vertices parent (List.mem_of_getElem? hnode)
    obtain ⟨x, q, hx, hcoord, rfl, hq⟩ := fractional.splits ht (finite _ given) hvar hvalue
    obtain ⟨hdown, hup⟩ := BoundChange.not_admits?_of_getElem hq hcoord
    refine ⟨x, hx, fun id => ⟨fun ha => hdown ?_, fun ha => hup ?_⟩⟩
    · exact (admits_append_singleton.mp ha).2
    · exact (admits_append_singleton.mp ha).2

/-- At the square, where the search comes to a state in which two nodes were split. -/
theorem divides_square :
    (∀ x, squareSolver.oracle.Gives x → x.all isFinite = true)
      ∧ squareSolver.selector.FractionalAt squareSolver.settings.integrality
      ∧ 0 ≤ squareSolver.settings.integrality
      ∧ ∃ start s, squareSolver.Visits square.embed (.new () ()) start s ∧ s.explored = 2
        ∧ Partition (s.regionsSince start) := by
  have finite : ∀ x, squareSolver.oracle.Gives x → x.all isFinite = true := by
    rintro x ⟨sub, state, value, hanswer⟩
    have table : ∀ entry ∈ squareTable, entry.2.vertex.all isFinite = true := by decide +kernel
    exact table _ (Oracle.mem_of_answer_ofTable hanswer).2
  have ht := soundOn_squareSolver.integrality
  have fractional : squareSolver.selector.FractionalAt squareSolver.settings.integrality :=
    firstFractional_fractionalAt _
  refine ⟨finite, fractional, ht, ?_⟩
  obtain ⟨record, h, hexplored⟩ : ∃ record,
      (squareSolver.solve square.embed (.new () ())).result = .ok record
        ∧ record.stats.explored = 2 := exists_ok_of_toOption (by decide +kernel)
  obtain ⟨root, between, hask, hroot⟩ := Solver.searchProgram_cases (Solver.solve_ok h)
  rcases hroot with ⟨_, _, -, -, rfl, -⟩ | ⟨bound, vertex, rfl, -, htree⟩ | ⟨-, rfl, -⟩
    | ⟨-, hunbounded⟩
  · cases hexplored
  · obtain ⟨start, s, reason, hbegin, run, -, rfl, -⟩ := Solver.searchTree_ok htree
    have visit : squareSolver.Visits square.embed (.new () ()) start s :=
      .program ⟨bound, vertex, between, hask, hbegin, run⟩
    refine ⟨start, s, visit, ?_, (Solver.divides finite fractional ht visit).1⟩
    rw [State.report] at hexplored
    split at hexplored <;> exact hexplored
  · cases hexplored
  · obtain ⟨probe, -, rfl⟩ := Solver.searchUnbounded_ok hunbounded
    rw [afterProbe] at hexplored
    split at hexplored <;> cases hexplored

end IntegerProgramming.Search
