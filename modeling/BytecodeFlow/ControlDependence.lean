import BytecodeFlow.Loop
import BytecodeFlow.PostDominators

/-!
# Control dependence

A node depends on another if one of the edges that leave the other leads to it for certain, while
another edge may bypass it. An edge from `a` to `b` that `b` does not post-dominate `a` along
decides about the nodes from `b` up to the first post-dominator that `a` and `b` share; if that is
`a` itself, then `a` decides about its own repetition, and so does a node with an edge to itself.
Nodes that depend on no other node hang below the method entry.
-/

namespace BytecodeFlow

/-- That `target` depends on `source`, with the label of the edge that decides it. -/
structure Dependence where
  source : Nat
  target : Nat
  label : Option String
deriving DecidableEq, Repr

namespace Dependence

/-- Adds a dependence to a list in the order of source and target, unless the pair is there. -/
def insert (dependence : Dependence) : List Dependence → List Dependence
  | [] => [dependence]
  | first :: rest =>
    if dependence.source = first.source ∧ dependence.target = first.target then first :: rest
    else if dependence.source < first.source ∨
        (dependence.source = first.source ∧ dependence.target < first.target) then
      dependence :: first :: rest
    else first :: insert dependence rest

end Dependence

/-- A search for what a node depends on. The worklist is a stack, and a node may lie on it more than
once. -/
structure DependencySearch where
  worklist : List Nat
  found : List Nat
deriving DecidableEq, Repr

namespace DependencySearch

variable {α : Type}

/-- The search at the start. The last of the direct dependencies is taken first. -/
def start (graph : Digraph α) (node : Nat) : DependencySearch :=
  ⟨(graph.predecessors node).reverse, []⟩

/-- Takes a node from the worklist. If it was not found before, it is found now, and its own direct
dependencies come to the worklist. -/
def step (graph : Digraph α) : DependencySearch → Option DependencySearch
  | ⟨[], _⟩ => none
  | ⟨node :: worklist, found⟩ =>
    if found.contains node then some ⟨worklist, found⟩
    else some ⟨(graph.predecessors node).reverse ++ worklist, node :: found⟩

end DependencySearch

/-- The graph of the control dependences of a method, with an edge from every node to those that
depend on it. -/
structure ControlDependence where
  graph : Digraph Instruction
  entry : Nat

namespace ControlDependence

/-- The nodes that an edge decides about. -/
def decidedBy (tree : PostDominatorTree) (edge : Edge) : Except Error (List Nat) :=
  if edge.source ≠ edge.target ∧ tree.postDominates edge.target edge.source then .ok []
  else match commonAncestor? tree.chain edge.source edge.target with
    | none => .error (.invariant (.noCommonAncestor edge.source edge.target))
    | some meeting =>
      let below := (tree.chain edge.target).takeWhile (· != meeting)
      .ok (if meeting = edge.source then below ++ [meeting] else below)

/-- The dependences of a graph, in the order of source and target. The first edge that decides
about a pair gives it its label. -/
def dependences (graph : Digraph Instruction) (tree : PostDominatorTree) :
    Except Error (List Dependence) :=
  graph.edges.toList.foldlM (fun found edge => do
    let decided ← decidedBy tree edge
    let label := graph.label? edge.source edge.target
    return decided.foldl (fun found node => Dependence.insert ⟨edge.source, node, label⟩ found)
      found) []

/-- Whether a node depends on no other node. -/
def isUnconditional (found : List Dependence) (node : Nat) : Bool :=
  found.all fun dependence => dependence.target != node || dependence.source == node

/-- The control dependences of a graph with the given post-dominator tree and entry. -/
def ofGraph (graph : Digraph Instruction) (tree : PostDominatorTree) (entry : Nat) :
    Except Error ControlDependence := do
  let found ← dependences graph tree
  let decided ← found.foldlM
    (fun draft dependence =>
      draft.addEdgeLabelled dependence.source dependence.target dependence.label)
    graph.nodeDraft
  let free := graph.nodeIds.filter fun node => node != entry && isUnconditional found node
  let draft ← free.foldlM (fun draft node => draft.addEdgeLabelled entry node none) decided
  return { graph := draft.freeze, entry }

/-- The contents of the nodes of a list, in the order of their numbers and each of them once. -/
def contents (dependence : ControlDependence) (nodes : List Nat) : List Instruction :=
  dependence.graph.contentsOf (dependence.graph.nodeIds.filter nodes.contains)

/-- The nodes that a node depends on, directly or through others. Every node that is found brings
its direct dependencies to the worklist once, which bounds the number of steps. -/
def dependencyNodes (dependence : ControlDependence) (node : Nat) : List Nat :=
  let graph := dependence.graph
  (runSteps (DependencySearch.step graph) ((graph.size + 1) * (graph.edges.size + 1))
    (.start graph node)).found

/-- The instructions that an instruction depends on, directly or through others. Itself is one of
them if it depends on itself, unless `strict` excludes it. -/
def dependenciesOf (dependence : ControlDependence) (instruction : Instruction) (strict : Bool) :
    Except Error (List Instruction) := do
  let node ← dependence.graph.locate instruction
  let nodes := dependence.dependencyNodes node
  return dependence.contents (if strict then nodes.filter (· != node) else nodes)

/-- The instructions that an instruction depends on directly. -/
def immediateDependenciesOf (dependence : ControlDependence) (instruction : Instruction)
    (strict : Bool) : Except Error (List Instruction) := do
  let node ← dependence.graph.locate instruction
  let nodes := dependence.graph.predecessors node
  return dependence.contents (if strict then nodes.filter (· != node) else nodes)

/-- The instructions that depend directly on an instruction. -/
def dependentsOf (dependence : ControlDependence) (instruction : Instruction) :
    Except Error (List Instruction) := do
  let node ← dependence.graph.locate instruction
  return dependence.contents (dependence.graph.successors node)

/-- Whether `below` depends on `above`, directly or through others. An instruction depends on
itself only if it lies on a cycle. -/
def isDependent (dependence : ControlDependence) (above below : Instruction) :
    Except Error Bool := do
  let source ← dependence.graph.locate above
  let target ← dependence.graph.locate below
  if source = target then
    return (dependence.graph.predecessors target).any fun node =>
      node == target || dependence.graph.hasPath target node
  return dependence.graph.hasPath source target

/-- The drawing of the control dependences. -/
def draw (dependence : ControlDependence) (title : Option String) : Drawing :=
  dependence.graph.draw "CDG" title
    (fun node instruction =>
      if node = dependence.entry then .entry
      else if instruction.isMethodExit then .exit else .plain)
    (fun edge => dependence.graph.label? edge.source edge.target)

end ControlDependence

/-- The control dependences of a flow graph. -/
def FlowGraph.controlDependence (flow : FlowGraph) : Except Error ControlDependence := do
  ControlDependence.ofGraph (← flow.augmented) (← flow.postDominators) flow.entry

end BytecodeFlow
