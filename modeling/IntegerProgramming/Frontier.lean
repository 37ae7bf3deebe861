import IntegerProgramming.Node

/-!
# The frontier — open nodes

The open nodes, in the order in which they were pushed, with a policy that says which of them is
popped next.  The three policies of `NodeSelection` take the node of greatest bound, the last one
pushed and the first one pushed; any other function from the open nodes to a position may serve.

* `pop?_eq_some_iff`: a pop removes exactly the node at the position that the policy names.
-/

namespace IntegerProgramming

/-- The position of the node to pop, among open nodes in the order of insertion. -/
abbrev Policy (α : Type) := List (Node α) → Nat

/-- The policies of the search. -/
inductive NodeSelection where
  /-- The node of greatest bound, the earliest of several. -/
  | bestFirst
  /-- The node pushed last. -/
  | depthFirst
  /-- The node pushed first. -/
  | breadthFirst
  deriving DecidableEq, Repr

/-- The name of the policy. -/
def NodeSelection.name : NodeSelection → String
  | .bestFirst => "BestFirst"
  | .depthFirst => "DepthFirst"
  | .breadthFirst => "BreadthFirst"

section Policies

variable {α : Type} [Arith α]

/-- The position and bound of the better of the best node so far and node `i`. -/
def betterNode (best : Nat × α) (node : Node α) (i : Nat) : Nat × α :=
  if best.2 < node.bound then (i, node.bound) else best

/-- The position of the earliest node whose bound no later one exceeds. -/
def greatestNode : Policy α
  | [] => 0
  | node :: rest =>
    ((rest.zipIdx 1).foldl (fun best entry => betterNode best entry.1 entry.2)
      (0, node.bound)).1

/-- The policy of a selection rule. -/
def NodeSelection.policy : NodeSelection → Policy α
  | .bestFirst => greatestNode
  | .depthFirst => fun nodes => nodes.length - 1
  | .breadthFirst => fun _ => 0

end Policies

/-- The open nodes in the order of insertion, and the policy by which they leave. -/
structure Frontier (α : Type) where
  policy : Policy α
  nodes : List (Node α)

namespace Frontier

variable {α : Type}

/-- No open nodes. -/
def empty (policy : Policy α) : Frontier α := ⟨policy, []⟩

/-- Whether no node is open. -/
def isEmpty (f : Frontier α) : Bool := f.nodes.isEmpty

/-- How many nodes are open. -/
def size (f : Frontier α) : Nat := f.nodes.length

/-- One more open node, after all others. -/
def push (f : Frontier α) (node : Node α) : Frontier α :=
  { f with nodes := f.nodes ++ [node] }

/-- The node at the position the policy names, and the frontier without it; `none` if nothing is
there. -/
def pop? (f : Frontier α) : Option (Node α × Frontier α) :=
  if f.nodes.isEmpty then none
  else
    let i := f.policy f.nodes
    f.nodes[i]?.map fun node => (node, { f with nodes := f.nodes.eraseIdx i })

/-- The greatest bound of an open node. -/
def bestBound? [Arith α] (f : Frontier α) : Option α :=
  match f.nodes with
  | [] => none
  | node :: rest => some (rest.foldl (fun best n => greater best n.bound) node.bound)

/-! ### Laws -/

@[simp] theorem nodes_push (f : Frontier α) (node : Node α) :
    (f.push node).nodes = f.nodes ++ [node] := rfl

theorem pop?_eq_some_iff {f g : Frontier α} {node : Node α} :
    f.pop? = some (node, g) ↔
      f.nodes[f.policy f.nodes]? = some node ∧
        g = { f with nodes := f.nodes.eraseIdx (f.policy f.nodes) } := by
  unfold pop?
  cases hn : f.nodes with
  | nil => simp
  | cons first rest =>
    simp only [List.isEmpty_cons, Bool.false_eq_true, if_false, Option.map_eq_some_iff,
      Prod.mk.injEq]
    constructor
    · rintro ⟨n, hn, rfl, rfl⟩
      exact ⟨hn, rfl⟩
    · rintro ⟨h, rfl⟩
      exact ⟨node, h, rfl, rfl⟩

end Frontier

end IntegerProgramming
