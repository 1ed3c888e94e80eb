import BytecodeFlow.Digraph.IndexedDraft

/-!
# Graphs with an index

What a draft with an index is frozen into. The graph takes over the index of the draft. An edge is
kept once, under its number, and each node lists the numbers of the edges that leave it and of those
that enter it.
-/

namespace BytecodeFlow

/-- The numbers of the edges at each of `count` nodes, where `key` picks the end of an edge that
counts. The edges are filed in turn. -/
def numbersBy (key : Edge → Nat) (count : Nat) (edges : Array Edge) : Array (List Nat) :=
  edges.toList.zipIdx.foldl
    (fun table numbered => table.modify (key numbered.1) fun numbers => numbers ++ [numbered.2])
    (Array.replicate count [])

/-- A directed graph over contents `α`, with its tables. -/
structure IndexedGraph (α : Type) where
  nodes : Array α
  /-- the number of each content -/
  index : List (α × Nat)
  edges : Array Edge
  labels : EdgeLabels
  /-- the numbers of the edges that leave each node -/
  outgoing : Array (List Nat)
  /-- the numbers of the edges that enter each node -/
  incoming : Array (List Nat)
  edge_lt : ∀ e ∈ edges, e.source < nodes.size ∧ e.target < nodes.size
  outgoing_eq : outgoing = numbersBy Edge.source nodes.size edges
  incoming_eq : incoming = numbersBy Edge.target nodes.size edges

/-- The graph of a draft, with its tables. An edge without its nodes cannot be filed. -/
def IndexedDraft.build? {α : Type} (draft : IndexedDraft α) : Option (IndexedGraph α) :=
  if h : ∀ e ∈ draft.edges, e.source < draft.nodes.size ∧ e.target < draft.nodes.size then
    some {
      nodes := draft.nodes
      index := draft.index
      edges := draft.edges
      labels := draft.labels
      outgoing := numbersBy Edge.source draft.nodes.size draft.edges
      incoming := numbersBy Edge.target draft.nodes.size draft.edges
      edge_lt := h
      outgoing_eq := rfl
      incoming_eq := rfl }
  else none

namespace IndexedGraph

variable {α : Type}

/-- The graph without the index. -/
def toDigraph (g : IndexedGraph α) : Digraph α :=
  Draft.freeze ⟨g.nodes, g.edges, g.labels, g.edge_lt⟩

/-- The edges with the given numbers. -/
def edgesNumbered (g : IndexedGraph α) (numbers : List Nat) : List Edge :=
  numbers.filterMap fun number => g.edges[number]?

/-- The edges that leave a node. -/
def edgesFrom (g : IndexedGraph α) (node : Nat) : List Edge :=
  g.edgesNumbered (g.outgoing[node]?.getD [])

/-- The edges that enter a node. -/
def edgesInto (g : IndexedGraph α) (node : Nat) : List Edge :=
  g.edgesNumbered (g.incoming[node]?.getD [])

/-- The targets of the edges that leave a node. -/
def successors (g : IndexedGraph α) (node : Nat) : List Nat :=
  (g.edgesFrom node).map Edge.target

/-- The sources of the edges that enter a node. -/
def predecessors (g : IndexedGraph α) (node : Nat) : List Nat :=
  (g.edgesInto node).map Edge.source

variable [NodeContent α]

/-- The node with the given content. -/
def index? (g : IndexedGraph α) (content : α) : Option Nat :=
  g.index.lookup content

/-- A draft of the graph. -/
def thaw (g : IndexedGraph α) : IndexedDraft α :=
  .ofGraph g.toDigraph

/-- A draft of the nodes of the graph, without edges and labels. -/
def nodeDraft (g : IndexedGraph α) : IndexedDraft α :=
  .ofNodesOf g.toDigraph

/-- A draft of the graph with every edge turned round. -/
def reverse (g : IndexedGraph α) : IndexedDraft α :=
  g.thaw.reverse

end IndexedGraph

end BytecodeFlow
