import BytecodeFlow.Digraph.Basic

/-!
# Traversals

The nodes reachable from a start, in several orders. Each traversal is defined over a function
that lists the neighbours of a node, so that it can run on a graph, on its reverse, or on a part
of it. Every node is taken from the agenda at most once, which bounds the number of steps by the
number of nodes.

In the depth-first order a node counts as seen from the moment it is put on the agenda, not only
when it is taken from it. The finishing order is that of the recursive search, where a node counts
as seen from the moment it is entered.
-/

namespace BytecodeFlow

namespace Traversal

/-- The nodes of a list that are not seen yet, each of them once, at its first place. -/
def unseen (seen : List Nat) : List Nat → List Nat
  | [] => []
  | node :: nodes =>
    if seen.contains node then unseen seen nodes else node :: unseen (node :: seen) nodes

/-- Takes nodes from the front of the agenda and puts their unseen neighbours to the front, so
that the first neighbour comes next. -/
def depthFirst (next : Nat → List Nat) : Nat → List Nat → List Nat → List Nat
  | 0, _, _ => []
  | _, [], _ => []
  | fuel + 1, node :: agenda, seen =>
    let fresh := unseen seen (next node).reverse
    node :: depthFirst next fuel (fresh.reverse ++ agenda) (fresh ++ seen)

/-- Takes nodes from the front of the agenda and puts their unseen neighbours to its end. -/
def breadthFirst (next : Nat → List Nat) : Nat → List Nat → List Nat → List Nat
  | 0, _, _ => []
  | _, [], _ => []
  | fuel + 1, node :: agenda, seen =>
    let fresh := unseen seen (next node)
    node :: breadthFirst next fuel (agenda ++ fresh) (fresh ++ seen)

/-- The nodes that a recursive search has entered and those that it has finished, the one that was
finished last at the front. -/
structure Finished where
  entered : List Nat
  done : List Nat

/-- Searches from a node, unless it was entered before, and finishes it. -/
def finish (next : Nat → List Nat) : Nat → Finished → Nat → Finished
  | 0, state, _ => state
  | fuel + 1, state, node =>
    if state.entered.contains node then state
    else
      let inner := (next node).foldl (finish next fuel)
        { state with entered := node :: state.entered }
      { inner with done := node :: inner.done }

end Traversal

namespace Digraph

variable {α : Type}

/-- The nodes reachable from `start`, depth first. -/
def depthFirst (g : Digraph α) (start : Nat) : List Nat :=
  if start < g.size then Traversal.depthFirst g.successors g.size [start] [start] else []

/-- The nodes reachable from `start`, breadth first. -/
def breadthFirst (g : Digraph α) (start : Nat) : List Nat :=
  if start < g.size then Traversal.breadthFirst g.successors g.size [start] [start] else []

/-- The nodes reachable from `start`, the last finished first. -/
def reversePostorder (g : Digraph α) (start : Nat) : List Nat :=
  if start < g.size then (Traversal.finish g.successors g.size ⟨[], []⟩ start).done else []

/-- The nodes reachable from `start` in the order in which a recursive search finishes them. -/
def postorder (g : Digraph α) (start : Nat) : List Nat :=
  (g.reversePostorder start).reverse

/-- The nodes reachable from any of the starts; starts outside the graph do not count. -/
def reachableFrom (g : Digraph α) (starts : List Nat) : List Nat :=
  starts.foldl
    (fun seen start => if seen.contains start then seen else seen ++ g.breadthFirst start) []

/-- For each node whether it is reachable from any of the starts. -/
def reachable (g : Digraph α) (starts : List Nat) : Array Bool :=
  let seen := g.reachableFrom starts
  Array.ofFn fun node : Fin g.size => seen.contains node.val

/-- Whether a path leads from `source` to `target`; every node has a path to itself. -/
def hasPath (g : Digraph α) (source target : Nat) : Bool :=
  (g.depthFirst source).contains target

end Digraph

end BytecodeFlow
