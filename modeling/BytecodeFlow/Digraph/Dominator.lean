import BytecodeFlow.Digraph.Ancestor
import BytecodeFlow.Digraph.DominatorSearch

/-!
# Dominators

A node dominates another if every path from the root to the other passes through it. The immediate
dominator of a node is the strict dominator that all its other strict dominators dominate. The
immediate dominators make a tree, which `DominatorSearch` finds.
-/

namespace BytecodeFlow

/-- The immediate dominators of the nodes reachable from a root. -/
structure DominatorTree where
  root : Nat
  /-- the immediate dominator of each node; the root and the unreachable nodes have none -/
  parents : Array (Option Nat)
  /-- whether each node is reachable from the root -/
  reached : Array Bool
deriving DecidableEq, Repr

namespace DominatorTree

/-- The immediate dominator of a node. -/
def immediate? (tree : DominatorTree) (node : Nat) : Option Nat :=
  tree.parents[node]?.getD none

/-- Whether a node is reachable from the root. -/
def isReachable (tree : DominatorTree) (node : Nat) : Bool :=
  tree.reached[node]?.getD false

/-- The dominators of a node, from the node itself up to the root. -/
def dominators (tree : DominatorTree) (node : Nat) : List Nat :=
  if node < tree.parents.size then ancestors tree.immediate? tree.parents.size node else []

/-- Whether `above` dominates `node`. -/
def dominates (tree : DominatorTree) (above node : Nat) : Bool :=
  (tree.dominators node).contains above

/-- Whether `above` dominates `node` and differs from it. -/
def strictlyDominates (tree : DominatorTree) (above node : Nat) : Bool :=
  above != node && tree.dominates above node

/-- The number of strict dominators of a node. -/
def depth (tree : DominatorTree) (node : Nat) : Nat :=
  (tree.dominators node).length - 1

/-- The nodes whose immediate dominator is `node`, ascending. -/
def children (tree : DominatorTree) (node : Nat) : List Nat :=
  (List.range tree.parents.size).filter fun child => tree.immediate? child == some node

end DominatorTree

namespace Digraph

variable {α : Type}

/-- The dominator tree of the nodes reachable from `root`. A root outside the graph reaches none. -/
def dominatorTree (g : Digraph α) (root : Nat) : DominatorTree :=
  if root < g.size then
    let tree := g.searchTree root
    let search := DominatorSearch.run g tree
    { root
      parents := Array.ofFn fun node : Fin g.size =>
        if node.val = root ∨ tree.number node = 0 then none else search.immediate? node
      reached := Array.ofFn fun node : Fin g.size => tree.number node != 0 }
  else
    { root
      parents := Array.replicate g.size none
      reached := Array.replicate g.size false }

end Digraph

end BytecodeFlow
