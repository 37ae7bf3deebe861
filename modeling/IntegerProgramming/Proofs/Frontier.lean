import Mathlib
import IntegerProgramming.Frontier
import IntegerProgramming.Proofs.Lawful

/-!
# The frontier — what goes in and what comes out

A *container* takes items in and hands them out again, one at a time; a queue hands out the oldest
and a stack the newest.  The frontier is a container under every policy.  Whatever is pushed and
popped, in whatever order, the nodes that went in are those that came out and those still open, and
the open ones stay in the order of insertion.

* `Container.run_agree`: containers whose pushes and pops agree give the same answers to every
  sequence of operations.
* `Frontier.Accounts.perform`: one operation keeps account of the nodes.
* `Frontier.leads_of_pop?`: under the policy of the greatest bound, the node that is popped is the
  earliest with the bound that the open nodes are said to have.
* `Frontier.container_run`: **no policy loses, doubles or moves a node**; breadth first is a queue,
  depth first a stack, and best first takes the earliest node of the greatest bound.
-/

namespace IntegerProgramming

/-! ### Containers -/

/-- States that items go into and come out of. -/
structure Container (β : Type) where
  State : Type
  empty : State
  push : State → β → State
  pop? : State → Option (β × State)

/-- What is done with a container. -/
inductive Operation (β : Type) where
  | push (item : β)
  | pop

/-- The items that a sequence of operations puts in, the first one first. -/
def pushed {β : Type} : List (Operation β) → List β
  | [] => []
  | .push item :: rest => item :: pushed rest
  | .pop :: rest => pushed rest

theorem pushed_cons {β : Type} (op : Operation β) (rest : List (Operation β)) :
    pushed (op :: rest) = pushed [op] ++ pushed rest := by
  cases op <;> rfl

namespace Container

variable {β : Type}

/-- The answer to an operation and the state after it: a pop answers with the item it takes, and
where it takes none it leaves the state alone. -/
def perform (c : Container β) (s : c.State) : Operation β → Option β × c.State
  | .push item => (none, c.push s item)
  | .pop => (c.pop? s).elim (none, s) fun taken => (some taken.1, taken.2)

/-- The answers to a sequence of operations, and the state after it. -/
def runFrom (c : Container β) (s : c.State) : List (Operation β) → List (Option β) × c.State
  | [] => ([], s)
  | op :: rest =>
    let after := c.perform s op
    let later := c.runFrom after.2 rest
    (after.1 :: later.1, later.2)

/-- The answers to a sequence of operations on an empty container, and the state after it. -/
def run (c : Container β) (ops : List (Operation β)) : List (Option β) × c.State :=
  c.runFrom c.empty ops

/-- First in, first out. -/
def queue (β : Type) : Container β where
  State := List β
  empty := []
  push items item := items ++ [item]
  pop?
    | [] => none
    | oldest :: rest => some (oldest, rest)

/-- Last in, first out. -/
def stack (β : Type) : Container β where
  State := List β
  empty := []
  push items item := item :: items
  pop?
    | [] => none
    | newest :: rest => some (newest, rest)

/-- Two containers agree along a relation of their states: whatever is pushed, and whatever is
popped is the same item, related states go on to related states. -/
structure Agree (c d : Container β) (R : c.State → d.State → Prop) : Prop where
  empty : R c.empty d.empty
  push : ∀ {s t} item, R s t → R (c.push s item) (d.push t item)
  pop : ∀ {s t}, R s t → Option.Rel (fun taken taken' => taken.1 = taken'.1 ∧ R taken.2 taken'.2)
    (c.pop? s) (d.pop? t)

variable {c d : Container β} {R : c.State → d.State → Prop}

theorem Agree.perform (agree : Agree c d R) {s : c.State} {t : d.State} (h : R s t)
    (op : Operation β) : (c.perform s op).1 = (d.perform t op).1
      ∧ R (c.perform s op).2 (d.perform t op).2 := by
  cases op with
  | push item => exact ⟨rfl, agree.push item h⟩
  | pop =>
      have popped := agree.pop h
      simp only [Container.perform]
      generalize c.pop? s = left, d.pop? t = right at popped
      cases popped with
      | none => exact ⟨rfl, h⟩
      | some taken => exact ⟨congrArg some taken.1, taken.2⟩

/-- **Containers whose pushes and pops agree answer alike.** -/
theorem Agree.runFrom (agree : Agree c d R) (ops : List (Operation β)) {s : c.State} {t : d.State}
    (h : R s t) : (c.runFrom s ops).1 = (d.runFrom t ops).1
      ∧ R (c.runFrom s ops).2 (d.runFrom t ops).2 := by
  induction ops generalizing s t with
  | nil => exact ⟨rfl, h⟩
  | cons op rest ih =>
      obtain ⟨answer, after⟩ := agree.perform h op
      obtain ⟨answers, last⟩ := ih after
      exact ⟨congrArg₂ List.cons answer answers, last⟩

theorem Agree.run (agree : Agree c d R) (ops : List (Operation β)) :
    (c.run ops).1 = (d.run ops).1 ∧ R (c.run ops).2 (d.run ops).2 :=
  agree.runFrom ops agree.empty

end Container

/-! ### The best of the open nodes -/

section Best

open LawfulScalar

variable {α : Type} [Scalar α] [LawfulScalar α]

/-- At a position among nodes there is one with this bound, which no other exceeds and no earlier
one reaches. -/
structure Leader (nodes : List (Node α)) (best : ℕ × α) : Prop where
  there : ∃ node, nodes[best.1]? = some node ∧ node.bound = best.2
  greatest : ∀ node ∈ nodes, node.bound ≤ best.2
  earliest : ∀ node ∈ nodes.take best.1, node.bound < best.2

omit [LawfulScalar α] in
theorem Leader.defined {nodes : List (Node α)} {best : ℕ × α} (h : Leader nodes best)
    (defined : ∀ node ∈ nodes, isUndefined node.bound = false) : isUndefined best.2 = false := by
  obtain ⟨node, hnode, hbound⟩ := h.there
  exact hbound ▸ defined node (List.mem_of_getElem? hnode)

/-- The better of the leader and one more node leads, and has the greater bound. -/
theorem Leader.concat {nodes : List (Node α)} {best : ℕ × α} (h : Leader nodes best)
    {node : Node α} (defined : ∀ n ∈ nodes ++ [node], isUndefined n.bound = false) :
    Leader (nodes ++ [node]) (betterNode best node nodes.length)
      ∧ (betterNode best node nodes.length).2 = greater best.2 node.bound := by
  rw [List.forall_mem_append, List.forall_mem_singleton] at defined
  have leader := h.defined defined.1
  rw [betterNode]
  split
  · rename_i better
    refine ⟨⟨⟨node, by simp, rfl⟩, ?_, ?_⟩, (greater_of_lt better).symm⟩
    · rw [List.forall_mem_append, List.forall_mem_singleton]
      exact ⟨fun n hn => le_trans (h.greatest n hn) (le_of_lt better), le_refl defined.2⟩
    · rw [List.take_left]
      exact fun n hn => lt_of_le_of_lt (h.greatest n hn) better
  · rename_i better
    obtain ⟨n, hn, hbound⟩ := h.there
    have hlt := (List.getElem?_eq_some_iff.mp hn).1
    refine ⟨⟨⟨n, ?_, hbound⟩, ?_, ?_⟩, (greater_of_not_lt leader better).symm⟩
    · rw [List.getElem?_append_left hlt, hn]
    · rw [List.forall_mem_append, List.forall_mem_singleton]
      exact ⟨h.greatest, (not_lt_iff leader defined.2).mp better⟩
    · rw [List.take_append_of_le_length hlt.le]
      exact h.earliest

/-- The position and the bound that are found by going through the nodes. -/
theorem leader_foldl (first : Node α) (rest : List (Node α))
    (defined : ∀ node ∈ first :: rest, isUndefined node.bound = false) :
    Leader (first :: rest) ((rest.zipIdx 1).foldl
        (fun best entry => betterNode best entry.1 entry.2) (0, first.bound))
      ∧ ((rest.zipIdx 1).foldl (fun best entry => betterNode best entry.1 entry.2)
          (0, first.bound)).2 = rest.foldl (fun best n => greater best n.bound) first.bound := by
  induction rest using List.reverseRecOn with
  | nil =>
      refine ⟨⟨⟨first, rfl, rfl⟩, ?_, by simp⟩, rfl⟩
      rw [List.forall_mem_singleton] at defined ⊢
      exact le_refl defined
  | append_singleton rest node ih =>
      rw [← List.cons_append] at defined ⊢
      obtain ⟨leader, bound⟩ := ih fun n hn => defined n (List.mem_append_left _ hn)
      obtain ⟨leads, greater⟩ := leader.concat defined
      rw [List.zipIdx_append, List.foldl_append, List.foldl_append, ← bound]
      simpa [Nat.add_comm 1] using And.intro leads greater

end Best

namespace Frontier

variable {α : Type}

/-! ### One operation -/

/-- The frontier under a policy, as a container of nodes. -/
def container (policy : Policy α) : Container (Node α) where
  State := Frontier α
  empty := .empty policy
  push := Frontier.push
  pop? := Frontier.pop?

/-- What a pop leaves when it takes the node at the position that the policy names. -/
def afterPop (f : Frontier α) : Frontier α :=
  { f with nodes := f.nodes.eraseIdx (f.policy f.nodes) }

/-- A policy that names the position of an open node takes that node. -/
theorem pop?_of_lt {f : Frontier α} (h : f.policy f.nodes < f.nodes.length) :
    f.pop? = some (f.nodes[f.policy f.nodes], f.afterPop) :=
  pop?_eq_some_iff.mpr ⟨List.getElem?_eq_getElem h, rfl⟩

/-- A policy that names no position of an open node takes none. -/
theorem pop?_of_le {f : Frontier α} (h : f.nodes.length ≤ f.policy f.nodes) : f.pop? = none := by
  simp only [pop?, List.getElem?_eq_none h, Option.map_none, ite_self]

/-- The nodes that were put in, the first one first, are those that came out and those that are
still open, the latter in the order in which they were put in. -/
structure Accounts (policy : Policy α) (put taken : List (Node α)) (f : Frontier α) : Prop where
  policy : f.policy = policy
  conserved : (taken ++ f.nodes).Perm put
  inOrder : f.nodes.Sublist put

variable {policy : Policy α} {put taken : List (Node α)} {f : Frontier α}

/-- **One operation keeps account of the nodes.** -/
theorem Accounts.perform (h : Accounts policy put taken f) (op : Operation (Node α)) :
    Accounts policy (put ++ pushed [op]) (taken ++ ((container policy).perform f op).1.toList)
      ((container policy).perform f op).2 := by
  cases op with
  | push node =>
      refine ⟨h.policy, ?_, h.inOrder.append (.refl _)⟩
      rw [show ((container policy).perform f (.push node)).1.toList = [] from rfl, List.append_nil]
      exact (List.append_assoc taken f.nodes [node]).symm ▸ h.conserved.append_right [node]
  | pop =>
      rw [show pushed [Operation.pop (β := Node α)] = [] from rfl, List.append_nil]
      by_cases hlt : f.policy f.nodes < f.nodes.length
      · rw [show (container policy).perform f .pop = (some _, _) from
          congrArg (Option.elim · _ _) (pop?_of_lt hlt)]
        refine ⟨h.policy, ?_, (List.eraseIdx_sublist ..).trans h.inOrder⟩
        rw [Option.toList_some, List.append_assoc, List.singleton_append]
        exact ((List.getElem_cons_eraseIdx_perm hlt).append_left taken).trans h.conserved
      · rw [show (container policy).perform f .pop = (none, f) from
          congrArg (Option.elim · _ _) (pop?_of_le (not_lt.mp hlt))]
        rwa [Option.toList_none, List.append_nil]

/-- **Every sequence of operations keeps account of the nodes.** -/
theorem Accounts.runFrom (h : Accounts policy put taken f) (ops : List (Operation (Node α))) :
    Accounts policy (put ++ pushed ops)
      (taken ++ ((container policy).runFrom f ops).1.reduceOption)
      ((container policy).runFrom f ops).2 := by
  induction ops generalizing put taken f with
  | nil => simpa [Container.runFrom, pushed] using h
  | cons op rest ih =>
      have answers : ((container policy).runFrom f (op :: rest)).1.reduceOption
          = ((container policy).perform f op).1.toList
            ++ ((container policy).runFrom ((container policy).perform f op).2 rest).1.reduceOption
          := by
        dsimp only [Container.runFrom]
        cases ((container policy).perform f op).1 <;> simp
      rw [pushed_cons, answers, ← List.append_assoc, ← List.append_assoc]
      exact ih (h.perform op)

theorem accounts_run (policy : Policy α) (ops : List (Operation (Node α))) :
    Accounts policy (pushed ops) ((container policy).run ops).1.reduceOption
      ((container policy).run ops).2 := by
  have start : Accounts policy [] [] (.empty policy) := ⟨rfl, .refl _, .refl _⟩
  exact start.runFrom ops

/-! ### The policies of the search -/

section Policies

variable [Scalar α]

/-- Breadth first, the nodes leave in the order in which they came. -/
theorem agree_queue : Container.Agree (container NodeSelection.breadthFirst.policy)
    (Container.queue (Node α)) fun f items => f.policy = NodeSelection.breadthFirst.policy
      ∧ f.nodes = items where
  empty := ⟨rfl, rfl⟩
  push node h := ⟨h.1, congrArg (· ++ [node]) h.2⟩
  pop {f items} h := by
    obtain ⟨policy, rfl⟩ := h
    obtain ⟨_, nodes⟩ := f
    cases policy
    cases nodes with
    | nil => exact .none
    | cons oldest rest => exact .some ⟨rfl, rfl, rfl⟩

/-- Depth first, the nodes leave in the opposite order. -/
theorem agree_stack : Container.Agree (container NodeSelection.depthFirst.policy)
    (Container.stack (Node α)) fun f items => f.policy = NodeSelection.depthFirst.policy
      ∧ f.nodes.reverse = items where
  empty := ⟨rfl, rfl⟩
  push node h := ⟨h.1, List.reverse_concat.trans (congrArg (node :: ·) h.2)⟩
  pop {f items} h := by
    obtain ⟨policy, rfl⟩ := h
    obtain ⟨_, nodes⟩ := f
    cases policy
    obtain rfl | ⟨older, newest, rfl⟩ := nodes.eq_nil_or_concat'
    · exact .none
    · have left : (container NodeSelection.depthFirst.policy).pop?
          ⟨NodeSelection.depthFirst.policy, older ++ [newest]⟩
          = some (newest, ⟨NodeSelection.depthFirst.policy, older⟩) := by
        refine pop?_eq_some_iff.mpr ?_
        simp [NodeSelection.policy, List.eraseIdx_append_of_length_le]
      have right : (Container.stack (Node α)).pop? (older ++ [newest]).reverse
          = some (newest, older.reverse) := by
        rw [List.reverse_concat]
        rfl
      rw [right]
      exact left ▸ .some ⟨rfl, rfl, rfl⟩

open LawfulScalar

variable [LawfulScalar α]

/-- **The node of greatest bound that is popped is the earliest of its bound**, which is the bound
that the open nodes are said to have. -/
theorem exists_pop?_greatest {f : Frontier α} (policy : f.policy = greatestNode)
    (defined : ∀ n ∈ f.nodes, isUndefined n.bound = false) (nonempty : f.nodes ≠ []) :
    ∃ before node after, f.nodes = before ++ node :: after
      ∧ f.pop? = some (node, { f with nodes := before ++ after })
      ∧ f.bestBound? = some node.bound
      ∧ (∀ n ∈ before, n.bound < node.bound) ∧ ∀ n ∈ after, n.bound ≤ node.bound := by
  obtain ⟨first, others, hnodes⟩ := List.exists_cons_of_ne_nil nonempty
  obtain ⟨leader, bound⟩ := leader_foldl first others (hnodes ▸ defined)
  have position : f.policy f.nodes = ((others.zipIdx 1).foldl
      (fun best entry => betterNode best entry.1 entry.2) (0, first.bound)).1 := by
    rw [policy, hnodes]
    rfl
  rw [← hnodes] at leader
  generalize (others.zipIdx 1).foldl _ _ = best at leader position bound
  obtain ⟨i, greatest⟩ := best
  obtain ⟨node, hnode, rfl⟩ := leader.there
  obtain ⟨hlt, hget⟩ := List.getElem?_eq_some_iff.mp hnode
  have split : f.nodes = f.nodes.take i ++ node :: f.nodes.drop (i + 1) := by
    rw [← hget, ← List.drop_eq_getElem_cons, List.take_append_drop]
  refine ⟨f.nodes.take i, node, f.nodes.drop (i + 1), split, ?_, ?_, leader.earliest, ?_⟩
  · rw [pop?_eq_some_iff, position, ← List.eraseIdx_eq_take_drop_succ]
    exact ⟨hnode, rfl⟩
  · rw [bestBound?, hnodes]
    exact congrArg some bound.symm
  · exact fun n hn => leader.greatest n (List.mem_of_mem_drop hn)

/-- The node that is popped has the bound that the open nodes are said to have, and no open node has
a greater one. -/
theorem leads_of_pop? {f rest : Frontier α} {node : Node α} (policy : f.policy = greatestNode)
    (defined : ∀ n ∈ f.nodes, isUndefined n.bound = false) (h : f.pop? = some (node, rest)) :
    f.bestBound? = some node.bound ∧ ∀ n ∈ f.nodes, n.bound ≤ node.bound := by
  have nonempty : f.nodes ≠ [] := by
    intro empty
    simp [pop?, empty] at h
  obtain ⟨before, first, after, split, hpop, best, earlier, later⟩ :=
    exists_pop?_greatest policy defined nonempty
  cases h.symm.trans hpop
  refine ⟨best, fun n hn => ?_⟩
  have hn' := split ▸ hn
  rw [List.mem_append, List.mem_cons] at hn'
  rcases hn' with hbefore | rfl | hafter
  · exact le_of_lt (earlier n hbefore)
  · exact le_refl (defined n hn)
  · exact later n hafter

end Policies

/-! ### Every sequence of operations -/

/-- A pop takes the node at the position that the policy names and leaves the others as they are;
where no node is open at that position, it takes none and changes nothing. -/
structure PopsNamed (policy : Policy α) (f : Frontier α) : Prop where
  takes : ∀ named : policy f.nodes < f.nodes.length, (container policy).perform f .pop
    = (some f.nodes[policy f.nodes], ⟨policy, f.nodes.eraseIdx (policy f.nodes)⟩)
  declines : f.nodes.length ≤ policy f.nodes → (container policy).perform f .pop = (none, f)

theorem popsNamed {policy : Policy α} {f : Frontier α} (h : f.policy = policy) :
    PopsNamed policy f := by
  cases h
  exact ⟨fun named => congrArg (Option.elim · _ _) (pop?_of_lt named),
    fun unnamed => congrArg (Option.elim · _ _) (pop?_of_le unnamed)⟩

/-- A pop takes the earliest of the open nodes whose bound is the greatest, and leaves the others as
they are. -/
def PopsEarliestBest [Scalar α] (policy : Policy α) (f : Frontier α) : Prop :=
  ∃ before node after, f.nodes = before ++ node :: after
    ∧ (container policy).perform f .pop = (some node, ⟨policy, before ++ after⟩)
    ∧ f.bestBound? = some node.bound
    ∧ (∀ n ∈ before, n.bound < node.bound) ∧ ∀ n ∈ after, n.bound ≤ node.bound

/-- **What a frontier does with its nodes.**  Under every policy, the nodes that are pushed are
those that are popped and those that stay, the latter in the order of insertion, and a pop takes the
node at the position that the policy names, or none.  Breadth first, the nodes leave as from a
queue; depth first, as from a stack; and best first, if the bounds are defined, a pop takes the
earliest of the nodes with the greatest bound. -/
theorem container_run [Scalar α] [LawfulScalar α] (ops : List (Operation (Node α))) :
    (∀ policy : Policy α,
        Accounts policy (pushed ops) ((container policy).run ops).1.reduceOption
            ((container policy).run ops).2
          ∧ PopsNamed policy ((container policy).run ops).2)
      ∧ ((container NodeSelection.breadthFirst.policy).run ops).1
        = ((Container.queue (Node α)).run ops).1
      ∧ ((container NodeSelection.depthFirst.policy).run ops).1
        = ((Container.stack (Node α)).run ops).1
      ∧ ((∀ node ∈ pushed ops, isUndefined node.bound = false) →
        ∀ f, ((container NodeSelection.bestFirst.policy).run ops).2 = f → f.nodes ≠ [] →
          PopsEarliestBest NodeSelection.bestFirst.policy f) := by
  refine ⟨fun policy => ?_, (agree_queue.run ops).1, (agree_stack.run ops).1, ?_⟩
  · have accounts := accounts_run policy ops
    exact ⟨accounts, popsNamed accounts.policy⟩
  · rintro defined f rfl nonempty
    have accounts := accounts_run NodeSelection.bestFirst.policy ops
    obtain ⟨before, node, after, split, popped, best, earlier, later⟩ :=
      exists_pop?_greatest accounts.policy
        (fun n hn => defined n (accounts.inOrder.subset hn)) nonempty
    rw [accounts.policy] at popped
    exact ⟨before, node, after, split, congrArg (Option.elim · _ _) popped, best, earlier, later⟩

/-- Four nodes, two of them with the greatest bound, and one pop. -/
def fourNodes : List (Operation (Node ExtRat)) :=
  [.push { Node.root with id := 1, bound := .num 10 },
    .push { Node.root with id := 2, bound := .num 15 },
    .push { Node.root with id := 3, bound := .num 5 },
    .push { Node.root with id := 4, bound := .num 15 }, .pop]

/-- The first of the two leaves first, and the second one next. -/
theorem container_run_fourNodes :
    (∀ node ∈ pushed fourNodes, isUndefined node.bound = false)
      ∧ ∃ f, ((container NodeSelection.bestFirst.policy).run fourNodes).2 = f
        ∧ f.nodes.map Node.id = [1, 3, 4] ∧ f.nodes ≠ []
        ∧ PopsEarliestBest NodeSelection.bestFirst.policy f := by
  have defined : ∀ node ∈ pushed fourNodes, isUndefined node.bound = false := by decide +kernel
  have ids : ((container NodeSelection.bestFirst.policy).run fourNodes).2.nodes.map Node.id
      = [1, 3, 4] := by decide +kernel
  have nonempty : ((container NodeSelection.bestFirst.policy).run fourNodes).2.nodes ≠ [] := by
    intro empty
    rw [empty] at ids
    cases ids
  exact ⟨defined, _, rfl, ids, nonempty,
    (container_run fourNodes).2.2.2 defined _ rfl nonempty⟩

end Frontier

end IntegerProgramming
