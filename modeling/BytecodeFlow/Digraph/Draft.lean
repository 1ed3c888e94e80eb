import BytecodeFlow.Digraph.Edge
import BytecodeFlow.Error

/-!
# Drafts of directed graphs

A draft collects the nodes and edges of a graph under these rules:

* nodes are told apart by their content, and adding a content twice changes nothing;
* an edge can only join nodes that are already there;
* an edge that is already there cannot be added again.

This is the form in which the analyses build their graphs: an operation that fails yields no draft
at all.
-/

namespace BytecodeFlow

/-- What the content of a node has to offer: equality, the text that messages show, and the
position in a stream by which nodes are looked up. -/
class NodeContent (α : Type) extends BEq α where
  describe : α → String
  order : α → Int

/-- A graph under construction. Both ends of every edge are nodes. -/
structure Draft (α : Type) where
  nodes : Array α := #[]
  edges : Array Edge := #[]
  labels : EdgeLabels := []
  edge_lt : ∀ e ∈ edges, e.source < nodes.size ∧ e.target < nodes.size := by simp

/-- The number of the only element with the given order, if there is one. -/
def findByOrder {α : Type} [NodeContent α] (contents : Array α) (order : Int) :
    Except Error (Option Nat) :=
  match (List.range contents.size).filter fun i =>
      (contents[i]?.map NodeContent.order) == some order with
  | [] => .ok none
  | [node] => .ok (some node)
  | _ => .error (.orderCollision order)

namespace Draft

variable {α : Type}

/-- The draft with every edge reversed. -/
def reverse (draft : Draft α) : Draft α where
  nodes := draft.nodes
  edges := draft.edges.map Edge.reversed
  labels := EdgeLabels.reversed draft.labels
  edge_lt := by
    intro e he
    obtain ⟨e', he', rfl⟩ := Array.mem_map.1 he
    exact (draft.edge_lt e' he').symm

/-- The draft with the label of a pair set, or removed. -/
def setLabel (draft : Draft α) (source target : Nat) : Option String → Draft α
  | some label => { draft with labels := EdgeLabels.insert draft.labels source target label }
  | none => { draft with labels := EdgeLabels.erase draft.labels source target }

variable [NodeContent α]

/-- The number of the node with the given content. -/
def index? (draft : Draft α) (content : α) : Option (Fin draft.nodes.size) :=
  draft.nodes.findFinIdx? (· == content)

/-- Whether a node has the given content. -/
def contains (draft : Draft α) (content : α) : Bool :=
  (draft.index? content).isSome

/-- Adds a node, unless its content is already there. -/
def addNode (draft : Draft α) (content : α) : Draft α :=
  if draft.contains content then draft
  else
    { draft with
      nodes := draft.nodes.push content
      edge_lt := by
        intro e he
        have := draft.edge_lt e he
        rw [Array.size_push]
        omega }

/-- Adds nodes in turn. -/
def addNodes (draft : Draft α) (contents : List α) : Draft α :=
  contents.foldl addNode draft

/-- A draft of the given nodes, without edges. -/
def ofNodes (contents : List α) : Draft α :=
  addNodes {} contents

/-- Adds an edge that is not there yet. -/
def insertEdge (draft : Draft α) (source target : Fin draft.nodes.size) (weight : Nat) :
    Except Error (Draft α) :=
  if draft.edges.contains ⟨source, target, weight⟩ then
    .error (.duplicateEdge (NodeContent.describe draft.nodes[source])
      (NodeContent.describe draft.nodes[target]))
  else
    .ok { draft with
      edges := draft.edges.push ⟨source, target, weight⟩
      edge_lt := by
        intro e he
        rcases Array.mem_push.1 he with he | rfl
        · exact draft.edge_lt e he
        · exact ⟨source.isLt, target.isLt⟩ }

/-- The number of a node, checked as the end of an edge. -/
def checkNode (draft : Draft α) (role : EdgeEnd) (node : Nat) :
    Except Error (Fin draft.nodes.size) :=
  if h : node < draft.nodes.size then .ok ⟨node, h⟩
  else .error (.invalidArgument (.edgeNode role node draft.nodes.size))

/-- Adds an edge between two numbered nodes. -/
def addEdgeBetween (draft : Draft α) (source target weight : Nat) : Except Error (Draft α) := do
  let s ← draft.checkNode .source source
  let t ← draft.checkNode .target target
  draft.insertEdge s t weight

/-- Adds an edge of plain weight between two numbered nodes, labelling their pair if there is a
label. -/
def addEdgeLabelled (draft : Draft α) (source target : Nat) (label : Option String) :
    Except Error (Draft α) := do
  let extended ← draft.addEdgeBetween source target Edge.plainWeight
  match label with
  | some text => return extended.setLabel source target (some text)
  | none => return extended

end Draft

end BytecodeFlow
