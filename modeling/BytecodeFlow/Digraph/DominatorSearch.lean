import BytecodeFlow.Digraph.Basic
import BytecodeFlow.Loop

/-!
# The search for immediate dominators

The algorithm of Lengauer and Tarjan. A depth-first search numbers the nodes that the root reaches,
and keeps for each of them the node it was met from, which makes a tree (`SearchTree`).

The nodes are then taken in descending order of their numbers. A node's semidominator is the least
numbered node with a path to it whose other nodes all have larger numbers than it has. It is found
among the semidominators of what lies above the predecessors of the node, in a forest that holds the
nodes that were taken before (`DominatorSearch`). Paths in the forest are compressed as they are
looked at, and each of its nodes knows the node with the least semidominator on the part of the path
that was cut out above it.

A node waits in the bucket of its semidominator until the path between the two is in the forest.
Then it gets its immediate dominator, or a node with a smaller number that has the same one, which
a last pass in ascending order replaces.
-/

namespace BytecodeFlow

/-- The tree of a depth-first search. -/
structure SearchTree where
  /-- the number of each node, from one on; zero for a node that is not visited -/
  numbers : Array Nat
  /-- the visited nodes in the order of their numbers -/
  order : Array Nat
  /-- the node that each node was met from; the root has none -/
  parents : Array (Option Nat)
deriving DecidableEq, Repr

namespace SearchTree

/-- The tree of `size` nodes before any of them is visited. -/
def empty (size : Nat) : SearchTree where
  numbers := Array.replicate size 0
  order := #[]
  parents := Array.replicate size none

/-- The number of a node. -/
def number (tree : SearchTree) (node : Nat) : Nat :=
  tree.numbers[node]?.getD 0

/-- The node that a node was met from. -/
def parent? (tree : SearchTree) (node : Nat) : Option Nat :=
  tree.parents[node]?.getD none

/-- Gives a node, met from `parent`, the next number. -/
def visit (tree : SearchTree) (node : Nat) (parent : Option Nat) : SearchTree where
  numbers := tree.numbers.setIfInBounds node (tree.order.size + 1)
  order := tree.order.push node
  parents := tree.parents.setIfInBounds node parent

end SearchTree

/-- A depth-first search that builds a tree. -/
structure TreeSearch where
  /-- the nodes that are left to visit, each with the node it was met from -/
  stack : List (Nat × Option Nat)
  tree : SearchTree
deriving DecidableEq, Repr

namespace TreeSearch

variable {α : Type}

/-- The search at the start. -/
def start (size root : Nat) : TreeSearch :=
  ⟨[(root, none)], .empty size⟩

/-- Visits the node on top of the stack, unless it was visited before, and puts its successors that
are not visited yet on the stack, the first of them on top. -/
def step (g : Digraph α) : TreeSearch → Option TreeSearch
  | ⟨[], _⟩ => none
  | ⟨(node, parent) :: stack, tree⟩ =>
    if tree.number node ≠ 0 then some ⟨stack, tree⟩
    else
      let tree := tree.visit node parent
      let fresh := (g.successors node).filter fun next => tree.number next == 0
      some ⟨fresh.map (fun next => (next, some node)) ++ stack, tree⟩

end TreeSearch

/-- The tree of the depth-first search from `root`. Every node is visited once and puts no more
nodes on the stack than the graph has edges, which bounds the number of steps. -/
def Digraph.searchTree {α : Type} (g : Digraph α) (root : Nat) : SearchTree :=
  (runSteps (TreeSearch.step g) (g.size * (g.edges.size + 1) + 1) (.start g.size root)).tree

/-- What is known in the course of the search for immediate dominators. -/
structure DominatorSearch where
  /-- the least semidominator known of each node; the node itself before it is taken -/
  semi : Array Nat
  /-- the immediate dominator of each node, or a node that has the same one -/
  immediate : Array (Option Nat)
  /-- the node above each node of the forest -/
  above : Array (Option Nat)
  /-- the node with the least semidominator from each node of the forest up to the one above it,
  which is left out -/
  best : Array Nat
  /-- the nodes that wait for the path between them and their semidominator -/
  buckets : Array (List Nat)
deriving DecidableEq, Repr

namespace DominatorSearch

variable {α : Type}

/-- The search at the start, among `size` nodes. -/
def start (size : Nat) : DominatorSearch where
  semi := Array.range size
  immediate := Array.replicate size none
  above := Array.replicate size none
  best := Array.range size
  buckets := Array.replicate size []

/-- The least semidominator known of a node. -/
def semiOf (search : DominatorSearch) (node : Nat) : Nat :=
  search.semi[node]?.getD node

/-- What is known of the immediate dominator of a node. -/
def immediate? (search : DominatorSearch) (node : Nat) : Option Nat :=
  search.immediate[node]?.getD none

/-- The node above a node in the forest; the nodes outside it and its roots have none. -/
def above? (search : DominatorSearch) (node : Nat) : Option Nat :=
  search.above[node]?.getD none

/-- The node with the least semidominator from a node up to the one above it. -/
def bestOf (search : DominatorSearch) (node : Nat) : Nat :=
  search.best[node]?.getD node

/-- The nodes that wait for the path between them and the given node. -/
def bucketOf (search : DominatorSearch) (node : Nat) : List Nat :=
  search.buckets[node]?.getD []

/-! ## The forest -/

/-- Puts a node below another one. -/
def link (search : DominatorSearch) (node parent : Nat) : DominatorSearch :=
  { search with above := search.above.setIfInBounds node (some parent) }

/-- Goes up in the forest, unless the next node is a root, and remembers the node it has left. -/
def climb (above? : Nat → Option Nat) : Nat × List Nat → Option (Nat × List Nat)
  | (node, passed) =>
    match above? node with
    | none => none
    | some next => if (above? next).isSome then some (next, node :: passed) else none

/-- The nodes from a node up to the last but one below the root of its tree, from above. -/
def passedFrom (search : DominatorSearch) (node : Nat) : List Nat :=
  (runSteps (climb search.above?) search.above.size (node, [])).2

/-- Cuts out the node above a node, and takes over what that node knows. -/
def shorten (tree : SearchTree) (search : DominatorSearch) (node : Nat) : DominatorSearch :=
  match search.above? node with
  | none => search
  | some above =>
    let best :=
      if tree.number (search.semiOf (search.bestOf above)) <
          tree.number (search.semiOf (search.bestOf node)) then search.bestOf above
      else search.bestOf node
    { search with
      best := search.best.setIfInBounds node best
      above := search.above.setIfInBounds node (search.above? above) }

/-- Puts a node, and the nodes on its way up, right below the root of their tree. -/
def compress (tree : SearchTree) (search : DominatorSearch) (node : Nat) : DominatorSearch :=
  (search.passedFrom node).foldl (shorten tree) search

/-- The node with the least semidominator from a node up to the root of its tree, which is left out;
a root stands for itself. -/
def evaluate (tree : SearchTree) (search : DominatorSearch) (node : Nat) : Nat × DominatorSearch :=
  if (search.above? node).isNone then (node, search)
  else
    let search := search.compress tree node
    (search.bestOf node, search)

/-! ## The passes -/

/-- Gives a node another semidominator, if that has a smaller number than the one known. -/
def lower (tree : SearchTree) (search : DominatorSearch) (node semi : Nat) : DominatorSearch :=
  if tree.number semi < tree.number (search.semiOf node) then
    { search with semi := search.semi.setIfInBounds node semi }
  else search

/-- Looks for a smaller semidominator of a node above one of its predecessors. Predecessors that
were not visited do not count. -/
def examine (tree : SearchTree) (node : Nat) (search : DominatorSearch) (predecessor : Nat) :
    DominatorSearch :=
  if tree.number predecessor = 0 then search
  else
    let found := search.evaluate tree predecessor
    found.2.lower tree node (found.2.semiOf found.1)

/-- Puts a node into the bucket of its semidominator. -/
def file (search : DominatorSearch) (node : Nat) : DominatorSearch :=
  let semi := search.semiOf node
  { search with buckets := search.buckets.setIfInBounds semi (search.bucketOf semi ++ [node]) }

/-- Empties the bucket of a node. -/
def clear (search : DominatorSearch) (node : Nat) : DominatorSearch :=
  { search with buckets := search.buckets.setIfInBounds node [] }

/-- Notes what is known of the immediate dominator of a node. -/
def setImmediate (search : DominatorSearch) (node : Nat) (immediate : Option Nat) :
    DominatorSearch :=
  { search with immediate := search.immediate.setIfInBounds node immediate }

/-- Takes a node out of the bucket of `semi`. The path between the two is in the forest, so the node
with the least semidominator on it is known: if that is `semi`, it is the immediate dominator. -/
def settle (tree : SearchTree) (semi : Nat) (search : DominatorSearch) (node : Nat) :
    DominatorSearch :=
  let found := search.evaluate tree node
  found.2.setImmediate node
    (some (if found.2.semiOf found.1 = found.2.semiOf node then semi else found.1))

/-- Takes a node: finds its semidominator, puts it below its parent and settles what has waited in
the bucket of the parent. -/
def take (g : Digraph α) (tree : SearchTree) (search : DominatorSearch) (node : Nat) :
    DominatorSearch :=
  match tree.parent? node with
  | none => search
  | some parent =>
    let search := (g.predecessors node).foldl (examine tree node) search
    let search := (search.file node).link node parent
    (search.bucketOf parent).foldl (settle tree parent) (search.clear parent)

/-- Replaces a node that has the same immediate dominator by that dominator. -/
def resolve (search : DominatorSearch) (node : Nat) : DominatorSearch :=
  if search.immediate? node = some (search.semiOf node) then search
  else search.setImmediate node ((search.immediate? node).bind search.immediate?)

/-- The whole search over the nodes of a tree. The root is not taken. -/
def run (g : Digraph α) (tree : SearchTree) : DominatorSearch :=
  let nodes := tree.order.toList.tail
  nodes.foldl resolve (nodes.reverse.foldl (take g tree) (start g.size))

end DominatorSearch

end BytecodeFlow
