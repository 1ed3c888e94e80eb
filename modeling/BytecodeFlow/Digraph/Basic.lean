import BytecodeFlow.Digraph.Draft

/-!
# Directed graphs

A frozen graph: a draft together with the edges that leave and enter each node, in the order in
which they were added. A graph can be thawed into a draft again, which keeps its numbering.
-/

namespace BytecodeFlow

/-- The edges of each of `count` nodes, where `key` picks the end of an edge that counts. -/
def edgesBy (key : Edge → Nat) (count : Nat) (edges : Array Edge) : Array (List Edge) :=
  Array.ofFn fun node : Fin count => edges.toList.filter fun edge => key edge == node

/-- A directed graph over contents `α`. -/
structure Digraph (α : Type) where
  nodes : Array α
  edges : Array Edge
  labels : EdgeLabels
  /-- the edges that leave each node -/
  outgoing : Array (List Edge)
  /-- the edges that enter each node -/
  incoming : Array (List Edge)
  edge_lt : ∀ e ∈ edges, e.source < nodes.size ∧ e.target < nodes.size
  outgoing_eq : outgoing = edgesBy Edge.source nodes.size edges
  incoming_eq : incoming = edgesBy Edge.target nodes.size edges

/-- The graph of a draft. -/
def Draft.freeze {α : Type} (draft : Draft α) : Digraph α where
  nodes := draft.nodes
  edges := draft.edges
  labels := draft.labels
  outgoing := edgesBy Edge.source draft.nodes.size draft.edges
  incoming := edgesBy Edge.target draft.nodes.size draft.edges
  edge_lt := draft.edge_lt
  outgoing_eq := rfl
  incoming_eq := rfl

namespace Digraph

variable {α : Type}

/-- A draft of the graph. -/
def thaw (g : Digraph α) : Draft α where
  nodes := g.nodes
  edges := g.edges
  labels := g.labels
  edge_lt := g.edge_lt

/-- A draft of the graph without its edges and labels. -/
def nodeDraft (g : Digraph α) : Draft α where
  nodes := g.nodes

/-- The graph with every edge reversed. -/
def reverse (g : Digraph α) : Digraph α :=
  g.thaw.reverse.freeze

/-- The number of nodes. -/
def size (g : Digraph α) : Nat :=
  g.nodes.size

/-- The numbers of the nodes, ascending. -/
def nodeIds (g : Digraph α) : List Nat :=
  List.range g.size

/-- The content of a node. -/
def node? (g : Digraph α) (node : Nat) : Option α :=
  g.nodes[node]?

/-- The edges that leave a node, in the order in which they were added. -/
def edgesFrom (g : Digraph α) (node : Nat) : List Edge :=
  g.outgoing[node]?.getD []

/-- The edges that enter a node, in the order in which they were added. -/
def edgesInto (g : Digraph α) (node : Nat) : List Edge :=
  g.incoming[node]?.getD []

/-- The targets of the edges that leave a node. -/
def successors (g : Digraph α) (node : Nat) : List Nat :=
  (g.edgesFrom node).map Edge.target

/-- The sources of the edges that enter a node. -/
def predecessors (g : Digraph α) (node : Nat) : List Nat :=
  (g.edgesInto node).map Edge.source

/-- The number of edges that leave a node. -/
def outDegree (g : Digraph α) (node : Nat) : Nat :=
  (g.edgesFrom node).length

/-- The number of edges that enter a node. -/
def inDegree (g : Digraph α) (node : Nat) : Nat :=
  (g.edgesInto node).length

/-- Whether an edge runs from `source` to `target`. -/
def hasEdge (g : Digraph α) (source target : Nat) : Bool :=
  (g.successors source).contains target

/-- The label of the edges from `source` to `target`. -/
def label? (g : Digraph α) (source target : Nat) : Option String :=
  EdgeLabels.find? g.labels source target

/-- The nodes that no edge enters. -/
def entryNodes (g : Digraph α) : List Nat :=
  g.nodeIds.filter fun node => g.inDegree node == 0

/-- The nodes that no edge leaves. -/
def exitNodes (g : Digraph α) : List Nat :=
  g.nodeIds.filter fun node => g.outDegree node == 0

/-- The edges in the order of source, target and weight. -/
def edgeSet (g : Digraph α) : List Edge :=
  g.edges.toList.mergeSort Edge.le

/-- The contents that satisfy a predicate, in the order of their nodes. -/
def filterNodes (g : Digraph α) (p : α → Bool) : List α :=
  g.nodes.toList.filter p

/-- The contents in the order of `le`; equal ones stay in the order of their nodes. -/
def sortNodes (g : Digraph α) (le : α → α → Bool) : List α :=
  g.nodes.toList.mergeSort le

/-- The contents of the given nodes. -/
def contentsOf (g : Digraph α) (nodes : List Nat) : List α :=
  nodes.filterMap g.node?

variable [NodeContent α]

/-- The node with the given content. -/
def index? (g : Digraph α) (content : α) : Option Nat :=
  g.nodes.findIdx? (· == content)

/-- Whether a node has the given content. -/
def contains (g : Digraph α) (content : α) : Bool :=
  (g.index? content).isSome

/-- The node with the given content, which has to be there. -/
def require (g : Digraph α) (content : α) : Except Error Nat :=
  match g.index? content with
  | some node => .ok node
  | none => .error (.invalidArgument (.absent (NodeContent.describe content)))

/-- The contents of the successors of a content. -/
def successorsOf (g : Digraph α) (content : α) : Except Error (List α) :=
  (g.require content).map fun node => g.contentsOf (g.successors node)

/-- The contents of the predecessors of a content. -/
def predecessorsOf (g : Digraph α) (content : α) : Except Error (List α) :=
  (g.require content).map fun node => g.contentsOf (g.predecessors node)

/-- The only node whose content has the given order. -/
def nodeAt (g : Digraph α) (order : Int) : Except Error (Option Nat) :=
  findByOrder g.nodes order

end Digraph

end BytecodeFlow
