import IntegerProgramming.BoundChange

/-!
# Nodes of the search tree

A node carries the bound changes on the path from the root, in the order they were made, and the
relaxation of its region: the greatest objective there, and a vertex that attains it.
-/

namespace IntegerProgramming

/-- A node of the search tree. -/
structure Node (α : Type) where
  /-- Number of the node; the root has number zero. -/
  id : Nat
  /-- Number of the node it was branched from. -/
  parent : Option Nat
  /-- Distance from the root. -/
  depth : Nat
  /-- The changes on the path from the root. -/
  changes : List (BoundChange α)
  /-- No point of the region has a greater objective. -/
  bound : α
  /-- A vertex of the relaxation, empty until it is solved. -/
  vertex : List α
  deriving DecidableEq, Repr

namespace Node

variable {α : Type}

/-- The node of the whole program, before its relaxation is solved. -/
def root [Scalar α] : Node α :=
  { id := 0, parent := none, depth := 0, changes := [], bound := infinity, vertex := [] }

/-- The node `id` one change further down; it starts with the bound of its parent. -/
def child (node : Node α) (id : Nat) (change : BoundChange α) : Node α :=
  { id
    parent := some node.id
    depth := node.depth + 1
    changes := node.changes ++ [change]
    bound := node.bound
    vertex := [] }

/-- The node with its relaxation solved. -/
def withRelaxation (node : Node α) (bound : α) (vertex : List α) : Node α :=
  { node with bound, vertex }

/-- A node as deep as it has changes. -/
def DepthCounts (node : Node α) : Prop := node.depth = node.changes.length

theorem depthCounts_root [Scalar α] : (root : Node α).DepthCounts := rfl

theorem DepthCounts.child {node : Node α} (h : node.DepthCounts) (id : Nat)
    (change : BoundChange α) : (node.child id change).DepthCounts := by
  simp only [DepthCounts, Node.child, List.length_append, List.length_cons, List.length_nil] at *
  omega

theorem DepthCounts.withRelaxation {node : Node α} (h : node.DepthCounts) (bound : α)
    (vertex : List α) : (node.withRelaxation bound vertex).DepthCounts := h

end Node

end IntegerProgramming
