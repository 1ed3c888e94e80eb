import BytecodeFlow.Digraph.Dominator
import BytecodeFlow.FlowGraph.Drawing

/-!
# Post-dominators

A node post-dominates another if every path from the other to the method exit passes through it.
Post-dominators are the dominators of the reversed graph. A node that cannot reach the exit hangs
right below it, so that the tree spans all nodes.
-/

namespace BytecodeFlow

/-- The tree of the immediate post-dominators. Its graph has the nodes of the graph that it was
computed from, and an edge from every node but the root to its parent. -/
structure PostDominatorTree where
  graph : Digraph Instruction
  root : Nat
  /-- the immediate post-dominator of each node; the root has none -/
  parents : Array (Option Nat)

namespace PostDominatorTree

/-- The parents of the nodes of a graph with the given exit. -/
def parentsIn (graph : Digraph Instruction) (exit : Nat) : Array (Option Nat) :=
  let dominators := graph.reverse.dominatorTree exit
  Array.ofFn fun node : Fin graph.size =>
    if node.val = exit then none else some ((dominators.immediate? node).getD exit)

/-- The edges from nodes to their parents. -/
def parentEdges (parents : Array (Option Nat)) : List (Nat × Nat) :=
  (List.range parents.size).filterMap fun node =>
    (parents[node]?.getD none).map fun parent => (node, parent)

/-- The post-dominator tree of a graph, rooted at `exit`, which has to hold a method exit. -/
def ofGraph (graph : Digraph Instruction) (exit : Nat) : Except Error PostDominatorTree := do
  unless (graph.node? exit).any Instruction.isMethodExit do
    throw (.invariant (.notExit exit))
  let parents := parentsIn graph exit
  let draft ← (parentEdges parents).foldlM
    (fun draft (node, parent) => draft.addEdgeBetween node parent Edge.plainWeight) graph.nodeDraft
  return { graph := draft.freeze, root := exit, parents }

/-- The immediate post-dominator of a node. -/
def parent? (tree : PostDominatorTree) (node : Nat) : Option Nat :=
  tree.parents[node]?.getD none

/-- The chain from a node up to the root; a node outside the tree stands alone. -/
def chain (tree : PostDominatorTree) (node : Nat) : List Nat :=
  ancestors tree.parent? (tree.parents.size + 1) node

/-- The post-dominators of a node, from the node itself up to the root. -/
def ancestorsOf (tree : PostDominatorTree) (node : Nat) : List Nat :=
  if node < tree.parents.size then tree.chain node else []

/-- Whether `above` post-dominates `node`. Every node post-dominates itself. -/
def postDominates (tree : PostDominatorTree) (above node : Nat) : Bool :=
  (tree.ancestorsOf node).contains above

/-- Whether `above` post-dominates an instruction. -/
def isPostDominated (tree : PostDominatorTree) (instruction above : Instruction) :
    Except Error Bool := do
  let node ← tree.graph.locate instruction
  let top ← tree.graph.locate above
  return tree.postDominates top node

/-- The nodes of a chain up to the given one. -/
def upTo (top : Nat) : List Nat → Option (List Nat)
  | [] => none
  | node :: nodes => if node = top then some [node] else (upTo top nodes).map (node :: ·)

/-- The way up the tree from an instruction to one that post-dominates it. -/
def path? (tree : PostDominatorTree) (instruction above : Instruction) :
    Except Error (Option (List Instruction)) := do
  let node ← tree.graph.locate instruction
  let top ← tree.graph.locate above
  return (upTo top (tree.ancestorsOf node)).map tree.graph.contentsOf

/-- The immediate post-dominator of an instruction. -/
def immediate? (tree : PostDominatorTree) (instruction : Instruction) :
    Except Error (Option Instruction) := do
  let node ← tree.graph.locate instruction
  return (tree.parent? node).bind tree.graph.node?

/-- The post-dominators of an instruction, from itself up to the method exit. -/
def postDominatorsOf (tree : PostDominatorTree) (instruction : Instruction) :
    Except Error (List Instruction) := do
  let node ← tree.graph.locate instruction
  return tree.graph.contentsOf (tree.ancestorsOf node)

/-- The instructions whose immediate post-dominator is the given one. -/
def childrenOf (tree : PostDominatorTree) (instruction : Instruction) :
    Except Error (List Instruction) := do
  let node ← tree.graph.locate instruction
  return tree.graph.contentsOf (tree.graph.predecessors node)

/-- The distance of an instruction from the root. -/
def depthOf (tree : PostDominatorTree) (instruction : Instruction) : Except Error Nat := do
  let node ← tree.graph.locate instruction
  return (tree.ancestorsOf node).length - 1

/-- The drawing of a post-dominator tree. -/
def draw (tree : PostDominatorTree) (title : Option String) : Drawing :=
  tree.graph.draw "PDT" title
    (fun node instruction =>
      if node = tree.root then .exit else if instruction.isMethodEntry then .entry else .plain)
    (fun _ => none)

end PostDominatorTree

/-- The post-dominator tree of a flow graph. -/
def FlowGraph.postDominators (flow : FlowGraph) : Except Error PostDominatorTree := do
  PostDominatorTree.ofGraph (← flow.augmented) flow.exit

end BytecodeFlow
