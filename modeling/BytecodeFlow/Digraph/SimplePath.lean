import BytecodeFlow.Digraph.Basic

/-!
# Simple paths

The paths between two nodes that visit no node twice, in the order in which a search that follows
the edges of each node in turn finds them. A path grows by a node that is not on it yet, so that
its length is bounded by the number of nodes.
-/

namespace BytecodeFlow.Digraph

variable {α : Type}

/-- The ways to go on from `node` to the target without another visit to the nodes in `visited`. -/
def simplePathsFrom (g : Digraph α) (target : Nat) : Nat → List Nat → Nat → List (List Nat)
  | 0, _, _ => []
  | fuel + 1, visited, node =>
    (g.successors node).flatMap fun next =>
      if next = target then [[node, target]]
      else if visited.contains next then []
      else (g.simplePathsFrom target fuel (next :: visited) next).map (node :: ·)

/-- The paths from `source` to `target` that visit no node twice. -/
def simplePaths (g : Digraph α) (source target : Nat) : List (List Nat) :=
  if source < g.size ∧ target < g.size then
    if source = target then [[source]]
    else g.simplePathsFrom target g.size [source] source
  else []

end BytecodeFlow.Digraph
