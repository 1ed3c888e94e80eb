import BytecodeFlow.Digraph.Basic

/-!
# Drafts with an index

The form of a draft that callers build step by step. Next to the nodes and edges it holds two tables
that repeat them: the number of each content, and the set of the edges. Whether a content or an edge
is there is asked of the tables alone.

A step works on the draft in place (`Drafting`), and one that fails leaves what it wrote up to then.
-/

namespace BytecodeFlow

/-- A graph under construction, with its tables. -/
structure IndexedDraft (α : Type) where
  nodes : Array α := #[]
  /-- the number of each content -/
  index : List (α × Nat) := []
  edges : Array Edge := #[]
  /-- the edges as a set -/
  edgeSet : List Edge := []
  labels : EdgeLabels := []
deriving DecidableEq, Repr

/-- One step of a draft. -/
inductive DraftStep (α : Type) where
  | addNode (content : α)
  | addNodes (contents : List α)
  | addEdge (source target : α)
  | addWeightedEdge (source target : α) (weight : Nat)
  | addLabelledEdge (source target : α) (label : String)
  | addEdgeBetween (source target weight : Nat)
  | addLabelledEdgeBetween (source target : Nat) (label : String)
  /-- adds edges in turn -/
  | addEdges (pairs : List (α × α))
  /-- puts one edge in the place of all edges between two contents -/
  | updateEdge (source target : α) (weight : Nat) (label : Option String)
  /-- updates edges in turn; the labels are kept -/
  | updateEdges (edges : List (α × α × Nat))
  | removeEdge (source target : α)
  /-- turns every edge round -/
  | reverse
deriving DecidableEq, Repr

/-- What works on a draft and may fail. A failure keeps what was done before it. -/
abbrev Drafting (α : Type) := EStateM Error (IndexedDraft α)

namespace IndexedDraft

variable {α : Type}

/-- The draft with one more edge. -/
def pushEdge (draft : IndexedDraft α) (edge : Edge) : IndexedDraft α :=
  { draft with edges := draft.edges.push edge, edgeSet := edge :: draft.edgeSet }

/-- The draft with one more edge, unless it is there. -/
def includeEdge (draft : IndexedDraft α) (edge : Edge) : IndexedDraft α :=
  if draft.edgeSet.contains edge then draft else draft.pushEdge edge

/-- The draft without the edges from `source` to `target`. -/
def detach (draft : IndexedDraft α) (source target : Nat) : IndexedDraft α :=
  { draft with
    edges := draft.edges.filter fun edge => !edge.joins source target
    edgeSet := draft.edgeSet.filter fun edge => !edge.joins source target }

/-- The draft with the label of a pair set, or removed. -/
def setLabel (draft : IndexedDraft α) (source target : Nat) : Option String → IndexedDraft α
  | some label => { draft with labels := EdgeLabels.insert draft.labels source target label }
  | none => { draft with labels := EdgeLabels.erase draft.labels source target }

/-- The draft with every edge turned round, and the set of edges made anew. -/
def reverse (draft : IndexedDraft α) : IndexedDraft α :=
  { draft with
    edges := draft.edges.map Edge.reversed
    edgeSet := (draft.edges.map Edge.reversed).toList.foldr List.insert []
    labels := EdgeLabels.reversed draft.labels }

/-- The graph of a draft. An edge without its nodes has no place in a graph. -/
def freeze? (draft : IndexedDraft α) : Option (Digraph α) :=
  if h : ∀ e ∈ draft.edges, e.source < draft.nodes.size ∧ e.target < draft.nodes.size then
    some (Draft.freeze ⟨draft.nodes, draft.edges, draft.labels, h⟩)
  else none

variable [NodeContent α]

/-- The number of the node with the given content. -/
def index? (draft : IndexedDraft α) (content : α) : Option Nat :=
  draft.index.lookup content

/-- Whether a node has the given content. -/
def contains (draft : IndexedDraft α) (content : α) : Bool :=
  (draft.index? content).isSome

/-- Whether an edge joins two contents. -/
def hasEdge (draft : IndexedDraft α) (source target : α) : Bool :=
  match draft.index? source, draft.index? target with
  | some s, some t => draft.edges.any (·.joins s t)
  | _, _ => false

/-- The text of the content of a node. -/
def describeNode (draft : IndexedDraft α) (node : Nat) : String :=
  (draft.nodes[node]?.map NodeContent.describe).getD ""

/-- Adds a node, unless its content is already there. Either way the number comes with the draft. -/
def addNode (draft : IndexedDraft α) (content : α) : Nat × IndexedDraft α :=
  match draft.index? content with
  | some node => (node, draft)
  | none =>
    (draft.nodes.size,
      { draft with
        index := (content, draft.nodes.size) :: draft.index
        nodes := draft.nodes.push content })

/-- Adds nodes in turn. -/
def addNodes (draft : IndexedDraft α) (contents : List α) : IndexedDraft α :=
  contents.foldl (fun draft content => (draft.addNode content).2) draft

/-- A draft of the nodes of a graph, without edges and labels. -/
def ofNodesOf (g : Digraph α) : IndexedDraft α :=
  addNodes {} g.nodes.toList

/-- A draft of a graph. -/
def ofGraph (g : Digraph α) : IndexedDraft α :=
  { g.edges.toList.foldl includeEdge (ofNodesOf g) with labels := g.labels }

/-- The numbers of two contents that an edge is to join. -/
def resolve (source target : α) : Drafting α (Nat × Nat) := do
  match (← get).index? source with
  | none => throw (.invalidArgument (.edgeContent .source (NodeContent.describe source)))
  | some s =>
    match (← get).index? target with
    | none => throw (.invalidArgument (.edgeContent .target (NodeContent.describe target)))
    | some t => return (s, t)

/-- Accepts the number of a node as the end of an edge. -/
def checkNode (role : EdgeEnd) (node : Nat) : Drafting α Unit := do
  let count := (← get).nodes.size
  if count ≤ node then throw (.invalidArgument (.edgeNode role node count))

/-- Adds an edge that is not there yet. -/
def insertEdge (edge : Edge) : Drafting α Unit := do
  let draft ← get
  if draft.edgeSet.contains edge then
    throw (.duplicateEdge (draft.describeNode edge.source) (draft.describeNode edge.target))
  modify (·.pushEdge edge)

/-- Adds an edge between two contents. -/
def addWeightedEdge (source target : α) (weight : Nat) : Drafting α Unit := do
  let (s, t) ← resolve source target
  insertEdge ⟨s, t, weight⟩

/-- Adds an edge of plain weight between two contents. -/
def addEdge (source target : α) : Drafting α Unit :=
  addWeightedEdge source target Edge.plainWeight

/-- Adds an edge of plain weight between two contents and labels their pair. -/
def addLabelledEdge (source target : α) (label : String) : Drafting α Unit := do
  let (s, t) ← resolve source target
  insertEdge ⟨s, t, Edge.plainWeight⟩
  modify (·.setLabel s t (some label))

/-- Adds an edge between two numbered nodes. -/
def addEdgeBetween (source target weight : Nat) : Drafting α Unit := do
  checkNode .source source
  checkNode .target target
  insertEdge ⟨source, target, weight⟩

/-- Adds an edge of plain weight between two numbered nodes and labels their pair. -/
def addLabelledEdgeBetween (source target : Nat) (label : String) : Drafting α Unit := do
  addEdgeBetween source target Edge.plainWeight
  modify (·.setLabel source target (some label))

/-- Replaces the edges between two contents by one of the given weight, and answers their
numbers. -/
def replaceEdge (source target : α) (weight : Nat) : Drafting α (Nat × Nat) := do
  let (s, t) ← resolve source target
  modify (·.detach s t)
  insertEdge ⟨s, t, weight⟩
  return (s, t)

/-- Replaces the edges between two contents by one of the given weight and label; no label removes
the label that is there. -/
def updateEdge (source target : α) (weight : Nat) (label : Option String) : Drafting α Unit := do
  let (s, t) ← replaceEdge source target weight
  modify (·.setLabel s t label)

/-- Removes the edges between two contents and their label, and answers how many edges there
were. -/
def removeEdge (source target : α) : Drafting α Nat := do
  let (s, t) ← resolve source target
  let before := (← get).edges.size
  modify (·.detach s t)
  let after := (← get).edges.size
  modify (·.setLabel s t none)
  return before - after

/-- Performs a step. One that adds a node answers its number, and one that removes edges their
count. -/
def step : DraftStep α → Drafting α (Option Nat)
  | .addNode content => some <$> modifyGet (·.addNode content)
  | .addNodes contents => (fun _ => none) <$> modify (·.addNodes contents)
  | .addEdge source target => (fun _ => none) <$> addEdge source target
  | .addWeightedEdge source target weight =>
    (fun _ => none) <$> addWeightedEdge source target weight
  | .addLabelledEdge source target label => (fun _ => none) <$> addLabelledEdge source target label
  | .addEdgeBetween source target weight => (fun _ => none) <$> addEdgeBetween source target weight
  | .addLabelledEdgeBetween source target label =>
    (fun _ => none) <$> addLabelledEdgeBetween source target label
  | .addEdges pairs => (fun _ => none) <$> pairs.forM fun pair => addEdge pair.1 pair.2
  | .updateEdge source target weight label =>
    (fun _ => none) <$> updateEdge source target weight label
  | .updateEdges edges =>
    (fun _ => none) <$> edges.forM fun edge => discard (replaceEdge edge.1 edge.2.1 edge.2.2)
  | .removeEdge source target => some <$> removeEdge source target
  | .reverse => (fun _ => none) <$> modify reverse

end IndexedDraft

end BytecodeFlow
