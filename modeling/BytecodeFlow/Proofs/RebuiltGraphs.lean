import BytecodeFlow.Digraph.IndexedGraph
import BytecodeFlow.Proofs.DraftConsistency

/-!
# Graphs that are built again

A graph can be taken apart and built again, as it is (`Reachable.thaw`) or with every edge turned
round (`Reachable.exists_reverse`), and nothing is lost on the way.

The tables of the edges at the nodes are told by their look-ups: filing the edges in turn puts the
number of an edge at the end of the list of its node (`getElem?_foldl_file`), so a look-up gives the
edges of the node in the order in which they were added (`edgesFrom_eq`, `edgesInto_eq`).

The nodes of a thawed graph are added anew by their contents. The index that comes out is the index
of the first draft, since in every draft that can be reached the index lists the nodes with their
numbers, the last one first (`Reachable.enumerated`). What `build?` makes depends on the nodes, the
index, the edges and the labels only (`SameParts`).
-/

namespace BytecodeFlow

theorem EdgeLabels.reversed_reversed (labels : EdgeLabels) :
    EdgeLabels.reversed (EdgeLabels.reversed labels) = labels := by
  unfold reversed
  rw [List.map_map]
  exact List.map_id labels

/-! ## Tables of edge numbers -/

section Numbers

variable {key : Edge → Nat} {count node : Nat}

/-- Filing edges puts their numbers behind those that are there. -/
theorem getElem?_foldl_file (key : Edge → Nat) (numbered : List (Edge × Nat))
    (table : Array (List Nat)) (node : Nat) :
    (numbered.foldl (fun table entry => table.modify (key entry.1) fun numbers =>
      numbers ++ [entry.2]) table)[node]? =
      table[node]?.map (· ++ (numbered.filter fun entry => key entry.1 == node).map Prod.snd) := by
  induction numbered generalizing table with
  | nil => simp
  | cons first rest ih =>
    rw [List.foldl_cons, ih, Array.getElem?_modify, List.filter_cons]
    by_cases hFirst : key first.1 = node
    · simp [hFirst, Function.comp_def]
    · simp [hFirst]

theorem getElem?_numbersBy (key : Edge → Nat) (count : Nat) (edges : Array Edge) (node : Nat) :
    (numbersBy key count edges)[node]? =
      if node < count then
        some ((edges.toList.zipIdx.filter fun entry => key entry.1 == node).map Prod.snd)
      else none := by
  unfold numbersBy
  rw [getElem?_foldl_file, Array.getElem?_replicate]
  split <;> simp

/-- The numbers that are filed under a node are those of its edges, in their order. -/
theorem filterMap_numbersBy {edges : Array Edge} (hLt : ∀ edge ∈ edges, key edge < count)
    (node : Nat) :
    ((numbersBy key count edges)[node]?.getD []).filterMap (edges[·]?) =
      edges.toList.filter (key · == node) := by
  rw [getElem?_numbersBy]
  by_cases hNode : node < count
  · have hEdge : ∀ entry ∈ edges.toList.zipIdx.filter (fun entry => key entry.1 == node),
        edges[entry.2]? = some entry.1 := by
      intro entry hEntry
      rw [← Array.getElem?_toList]
      exact List.mem_zipIdx_iff_getElem?.mp (List.mem_of_mem_filter hEntry)
    rw [if_pos hNode, Option.getD_some, List.filterMap_map]
    calc (edges.toList.zipIdx.filter fun entry => key entry.1 == node).filterMap
          ((edges[·]?) ∘ Prod.snd)
        = (edges.toList.zipIdx.filter fun entry => key entry.1 == node).filterMap
          (some ∘ Prod.fst) := List.filterMap_congr hEdge
      _ = (edges.toList.zipIdx.map Prod.fst).filter (key · == node) := by
        rw [List.filterMap_eq_map, List.filter_map]
        rfl
      _ = edges.toList.filter (key · == node) := by rw [List.zipIdx_map_fst]
  · rw [if_neg hNode, Option.getD_none, List.filterMap_nil, eq_comm, List.filter_eq_nil_iff]
    intro edge hEdge hKey
    have hBound := hLt edge (Array.mem_toList_iff.mp hEdge)
    rw [beq_iff_eq] at hKey
    omega

end Numbers

namespace IndexedGraph

variable {α : Type}

theorem edgesFrom_eq (g : IndexedGraph α) (node : Nat) :
    g.edgesFrom node = g.edges.toList.filter (·.source == node) := by
  unfold edgesFrom edgesNumbered
  rw [g.outgoing_eq]
  exact filterMap_numbersBy (fun edge hEdge => (g.edge_lt edge hEdge).1) node

theorem edgesInto_eq (g : IndexedGraph α) (node : Nat) :
    g.edgesInto node = g.edges.toList.filter (·.target == node) := by
  unfold edgesInto edgesNumbered
  rw [g.incoming_eq]
  exact filterMap_numbersBy (fun edge hEdge => (g.edge_lt edge hEdge).2) node

/-- A node is a successor once for each edge that joins the two. -/
theorem count_successors (g : IndexedGraph α) (source target : Nat) :
    (g.successors source).count target =
      (g.edges.toList.filter (·.joins source target)).length := by
  rw [successors, edgesFrom_eq, List.count, List.countP_map, List.countP_filter,
    List.countP_eq_length_filter]
  congr 2
  funext edge
  exact Bool.and_comm _ _

/-- A node is a predecessor once for each edge that joins the two. -/
theorem count_predecessors (g : IndexedGraph α) (source target : Nat) :
    (g.predecessors target).count source =
      (g.edges.toList.filter (·.joins source target)).length := by
  rw [predecessors, edgesInto_eq, List.count, List.countP_map, List.countP_filter,
    List.countP_eq_length_filter]
  rfl

/-- Where the edges are turned round, successors and predecessors change places. -/
theorem neighbours_of_reversed {g turned : IndexedGraph α}
    (hEdges : turned.edges = g.edges.map Edge.reversed) (node : Nat) :
    turned.successors node = g.predecessors node ∧
      turned.predecessors node = g.successors node := by
  simp only [successors, predecessors, edgesFrom_eq, edgesInto_eq, hEdges, Array.toList_map,
    List.filter_map, List.map_map]
  exact ⟨rfl, rfl⟩

end IndexedGraph

namespace IndexedDraft

open InPlace

variable {α : Type}

/-! ## What a graph is built from -/

/-- The drafts have the same nodes, index, edges and labels. Their sets of edges may be listed in
different orders. -/
structure SameParts (a b : IndexedDraft α) : Prop where
  nodes_eq : a.nodes = b.nodes
  index_eq : a.index = b.index
  edges_eq : a.edges = b.edges
  labels_eq : a.labels = b.labels

theorem SameParts.build?_eq {a b : IndexedDraft α} (h : SameParts a b) : a.build? = b.build? := by
  obtain ⟨nodes, index, edges, edgeSet, labels⟩ := a
  obtain ⟨hNodes, hIndex, hEdges, hLabels⟩ := h
  dsimp only at hNodes hIndex hEdges hLabels
  subst hNodes hIndex hEdges hLabels
  rfl

theorem SameParts.reverse {a b : IndexedDraft α} (h : SameParts a b) :
    SameParts a.reverse b.reverse where
  nodes_eq := h.nodes_eq
  index_eq := h.index_eq
  edges_eq := congrArg (Array.map Edge.reversed) h.edges_eq
  labels_eq := congrArg EdgeLabels.reversed h.labels_eq

theorem sameParts_reverse_reverse (draft : IndexedDraft α) :
    SameParts draft.reverse.reverse draft where
  nodes_eq := rfl
  index_eq := rfl
  edges_eq := by
    show (draft.edges.map Edge.reversed).map Edge.reversed = draft.edges
    rw [Array.map_map]
    exact Array.map_id draft.edges
  labels_eq := EdgeLabels.reversed_reversed draft.labels

/-- The graph of a draft has the parts of the draft. -/
theorem build?_eq_some {draft : IndexedDraft α} {g : IndexedGraph α}
    (h : draft.build? = some g) :
    g.nodes = draft.nodes ∧ g.index = draft.index ∧ g.edges = draft.edges ∧
      g.labels = draft.labels := by
  unfold build? at h
  split at h
  · cases h
    exact ⟨rfl, rfl, rfl, rfl⟩
  · cases h

theorem Listed.exists_build {draft : IndexedDraft α} (h : Listed draft) :
    ∃ g, draft.build? = some g :=
  ⟨_, dif_pos h.edge_lt⟩

theorem freeze?_of_build? {draft : IndexedDraft α} {g : IndexedGraph α}
    (h : draft.build? = some g) : draft.freeze? = some g.toDigraph := by
  unfold build? at h
  split at h
  · rename_i hLt
    cases h
    exact dif_pos hLt
  · cases h

/-! ## The index -/

/-- The nodes and the index. -/
def numbering (draft : IndexedDraft α) : Array α × List (α × Nat) :=
  (draft.nodes, draft.index)

/-- The index lists the nodes with their numbers, the last one first. -/
def Enumerated (draft : IndexedDraft α) : Prop :=
  draft.index = draft.nodes.toList.zipIdx.reverse

theorem Enumerated.of_numbering_eq {draft other : IndexedDraft α} (h : Enumerated draft)
    (hKept : other.numbering = draft.numbering) : Enumerated other := by
  obtain ⟨hNodes, hIndex⟩ := Prod.mk.inj hKept
  rw [Enumerated, hNodes, hIndex]
  exact h

theorem numbering_includeEdge (draft : IndexedDraft α) (edge : Edge) :
    (draft.includeEdge edge).numbering = draft.numbering := by
  unfold includeEdge
  split <;> rfl

theorem keeps_setLabel (source target : Nat) (label : Option String) :
    Keeps numbering (modify (·.setLabel source target label) : Drafting α PUnit) := by
  apply keeps_modify
  intro draft
  cases label with
  | none => rfl
  | some text => rfl

theorem Enumerated.foldl_includeEdge {draft : IndexedDraft α} (h : Enumerated draft)
    (edges : List Edge) : Enumerated (edges.foldl includeEdge draft) := by
  induction edges generalizing draft with
  | nil => exact h
  | cons edge edges ih => exact ih (h.of_numbering_eq (numbering_includeEdge draft edge))

variable [NodeContent α]

theorem Enumerated.addNode {draft : IndexedDraft α} (h : Enumerated draft) (content : α) :
    Enumerated (draft.addNode content).2 := by
  rcases addNode_cases draft content with ⟨-, hSame⟩ | ⟨-, hPushed⟩
  · rw [hSame]
    exact h
  · rw [hPushed, Enumerated, Array.toList_push, List.zipIdx_append, List.reverse_append, ← h]
    simp

theorem Enumerated.addNodes {draft : IndexedDraft α} (h : Enumerated draft) (contents : List α) :
    Enumerated (draft.addNodes contents) := by
  induction contents generalizing draft with
  | nil => exact h
  | cons content contents ih => exact ih (h.addNode content)

theorem enumerated_ofNodesOf (g : Digraph α) : Enumerated (ofNodesOf g) := by
  apply Enumerated.addNodes
  rfl

/-! ## Steps on edges -/

theorem keeps_insertEdge (edge : Edge) :
    Keeps numbering (insertEdge edge : Drafting α Unit) := by
  intro draft
  unfold leaves
  rw [insertEdge_eq]
  by_cases hThere : draft.edgeSet.contains edge
  · rw [if_pos hThere]
  · rw [if_neg hThere]
    rfl

theorem keeps_addWeightedEdge (source target : α) (weight : Nat) :
    Keeps numbering (addWeightedEdge source target weight) :=
  .bind ((looks_resolve source target).keeps _) fun _ => keeps_insertEdge _

theorem keeps_addEdgeBetween (source target weight : Nat) :
    Keeps numbering (addEdgeBetween source target weight : Drafting α Unit) :=
  .bind ((looks_checkNode _ _).keeps _) fun _ =>
    .bind ((looks_checkNode _ _).keeps _) fun _ => keeps_insertEdge _

theorem keeps_replaceEdge (source target : α) (weight : Nat) :
    Keeps numbering (replaceEdge source target weight) := by
  refine .bind ((looks_resolve source target).keeps _) fun _ => ?_
  refine .bind (keeps_modify fun _ => rfl) fun _ => ?_
  exact (keeps_insertEdge _).bind fun _ => (looks_pure _).keeps _

theorem after_eq_leaves (draft : IndexedDraft α) (call : DraftStep α) :
    draft.after call = leaves (step call) draft := by
  unfold after leaves
  cases step call draft with
  | ok answer left => rfl
  | error error left => rfl

/-- Only the steps that add nodes change the numbering, and those keep the index in step. -/
theorem Enumerated.after {draft : IndexedDraft α} (h : Enumerated draft) (call : DraftStep α) :
    Enumerated (draft.after call) := by
  have hKeeps : Keeps numbering (step call) → Enumerated (draft.after call) := by
    intro hKeeps
    apply h.of_numbering_eq
    rw [after_eq_leaves, hKeeps draft]
  cases call with
  | addNode content => exact h.addNode content
  | addNodes contents => exact h.addNodes contents
  | addEdge source target => exact hKeeps (keeps_addWeightedEdge _ _ _).map
  | addWeightedEdge source target weight => exact hKeeps (keeps_addWeightedEdge _ _ _).map
  | addLabelledEdge source target label =>
    refine hKeeps (.map (.bind ((looks_resolve source target).keeps _) fun _ => ?_))
    exact (keeps_insertEdge _).bind fun _ => keeps_setLabel _ _ _
  | addEdgeBetween source target weight => exact hKeeps (keeps_addEdgeBetween _ _ _).map
  | addLabelledEdgeBetween source target label =>
    exact hKeeps ((keeps_addEdgeBetween _ _ _).bind fun _ => keeps_setLabel _ _ _).map
  | addEdges pairs => exact hKeeps (Keeps.forM (fun _ => keeps_addWeightedEdge _ _ _) pairs).map
  | updateEdge source target weight label =>
    exact hKeeps ((keeps_replaceEdge _ _ _).bind fun _ => keeps_setLabel _ _ _).map
  | updateEdges edges =>
    exact hKeeps (Keeps.forM (fun _ => (keeps_replaceEdge _ _ _).map) edges).map
  | removeEdge source target =>
    refine hKeeps (.map (.bind ((looks_resolve source target).keeps _) fun _ => ?_))
    refine .bind (looks_get.keeps _) fun _ => .bind (keeps_modify fun _ => rfl) fun _ => ?_
    refine .bind (looks_get.keeps _) fun _ => .bind (keeps_setLabel _ _ _) fun _ => ?_
    exact (looks_pure _).keeps _
  | reverse => exact hKeeps (Keeps.map (keeps_modify fun _ => rfl))

theorem Reachable.enumerated {draft : IndexedDraft α} (h : Reachable draft) :
    Enumerated draft := by
  induction h with
  | empty => rfl
  | step _ call ih => exact ih.after call
  | ofGraph => exact (enumerated_ofNodesOf _).foldl_includeEdge _
  | ofNodesOf => exact enumerated_ofNodesOf _

/-! ## Building again -/

variable {draft : IndexedDraft α} {g : IndexedGraph α}

theorem Reachable.reverse (h : Reachable draft) : Reachable draft.reverse :=
  h.step .reverse

variable [EquivBEq α]

/-- A graph that was built can be thawed, and the draft has the parts of the one before. -/
theorem Reachable.thaw (h : Reachable draft) (hBuild : draft.build? = some g) :
    Reachable g.thaw ∧ SameParts g.thaw draft := by
  have hFreeze := freeze?_of_build? hBuild
  have hThaw : Reachable g.thaw := h.ofGraph hFreeze
  obtain ⟨hNodes, hEdges, hLabels⟩ := freeze?_eq_some hFreeze
  obtain ⟨-, hThawNodes, hThawEdges, hThawLabels⟩ := h.consistent.ofGraph_eq hFreeze
  have hSame : g.thaw.nodes = draft.nodes := hThawNodes.trans hNodes
  refine ⟨hThaw, hSame, ?_, hThawEdges.trans hEdges, hThawLabels.trans hLabels⟩
  rw [hThaw.enumerated, hSame, ← h.enumerated]

/-- A graph that was built can be reversed, and reversing what comes out leads back. -/
theorem Reachable.exists_reverse (h : Reachable draft) (hBuild : draft.build? = some g) :
    ∃ turned, g.reverse.build? = some turned ∧ turned.reverse.build? = some g ∧
      turned.edges = g.edges.map Edge.reversed ∧ turned.labels = EdgeLabels.reversed g.labels := by
  obtain ⟨hThaw, hSame⟩ := h.thaw hBuild
  obtain ⟨turned, hTurned⟩ := hThaw.reverse.consistent.toListed.exists_build
  obtain ⟨-, hBack⟩ := hThaw.reverse.thaw hTurned
  obtain ⟨-, -, hEdges, hLabels⟩ := build?_eq_some hBuild
  obtain ⟨-, -, hTurnedEdges, hTurnedLabels⟩ := build?_eq_some hTurned
  refine ⟨turned, hTurned, ?_, ?_, ?_⟩
  · calc turned.reverse.build?
        = g.thaw.reverse.reverse.build? := hBack.reverse.build?_eq
      _ = g.thaw.build? := (sameParts_reverse_reverse g.thaw).build?_eq
      _ = draft.build? := hSame.build?_eq
      _ = some g := hBuild
  · rw [hTurnedEdges, hEdges, ← hSame.edges_eq]
    rfl
  · rw [hTurnedLabels, hLabels, ← hSame.labels_eq]
    rfl

/-- Every draft that can be reached is built into a graph with its parts, and no two edges of the
graph are equal. Thawing the graph and building it again gives the same graph, tables and order
included, and so does reversing it twice. Reversing once exchanges successors and predecessors and
turns the labels round. The successors and predecessors of a node stand in the order in which the
edges were added, one for each edge. -/
theorem graphs_survive_rebuilding (draft : IndexedDraft α) (hReachable : Reachable draft) :
    ∃ g, draft.build? = some g ∧
      (g.nodes = draft.nodes ∧ g.index = draft.index ∧ g.edges = draft.edges ∧
        g.labels = draft.labels) ∧
      g.edges.toList.Nodup ∧
      g.thaw.build? = some g ∧
      (∃ turned, g.reverse.build? = some turned ∧ turned.reverse.build? = some g ∧
        (∀ node, turned.successors node = g.predecessors node ∧
          turned.predecessors node = g.successors node) ∧
        ∀ source target, turned.labels.find? target source = g.labels.find? source target) ∧
      (∀ node,
        g.successors node = (g.edges.toList.filter (·.source == node)).map Edge.target ∧
        g.predecessors node = (g.edges.toList.filter (·.target == node)).map Edge.source) ∧
      ∀ source target,
        (g.successors source).count target =
          (g.edges.toList.filter (·.joins source target)).length ∧
        (g.predecessors target).count source =
          (g.edges.toList.filter (·.joins source target)).length := by
  obtain ⟨g, hBuild⟩ := hReachable.consistent.toListed.exists_build
  have hParts := build?_eq_some hBuild
  obtain ⟨turned, hTurned, hBack, hEdges, hLabels⟩ := hReachable.exists_reverse hBuild
  refine ⟨g, hBuild, hParts, ?_, ?_, ⟨turned, hTurned, hBack, ?_, ?_⟩, ?_, ?_⟩
  · rw [hParts.2.2.1]
    exact hReachable.consistent.nodup
  · rw [(hReachable.thaw hBuild).2.build?_eq, hBuild]
  · exact IndexedGraph.neighbours_of_reversed hEdges
  · intro source target
    rw [hLabels, EdgeLabels.find?_reversed]
  · intro node
    exact ⟨congrArg _ (g.edgesFrom_eq node), congrArg _ (g.edgesInto_eq node)⟩
  · intro source target
    exact ⟨g.count_successors source target, g.count_predecessors source target⟩

/-- Two edges of different weight join the first two nodes, and the second is joined to itself. The
last step fails. -/
def doubled : List (DraftStep Instruction) :=
  [.addNodes [spinning 0, spinning 1, spinning 0, spinning 2],
    .addLabelledEdge (spinning 0) (spinning 1) "next",
    .addEdges [(spinning 2, spinning 1), (spinning 1, spinning 1)],
    .addWeightedEdge (spinning 0) (spinning 1) 7, .addEdge (spinning 0) (spinning 1)]

theorem graphs_survive_rebuilding_doubled :
    Reachable (doubled.foldl after {}) ∧
      ∃ g turned, (doubled.foldl after {}).build? = some g ∧ g.thaw.build? = some g ∧
        g.reverse.build? = some turned ∧ turned.reverse.build? = some g ∧
        g.predecessors 1 = [0, 2, 1, 0] ∧ turned.successors 1 = [0, 2, 1, 0] ∧
        (g.successors 0).count 1 = 2 ∧ turned.labels.find? 1 0 = some "next" := by
  have hReachable : Reachable (doubled.foldl after {}) := Reachable.empty.run doubled
  obtain ⟨g, hBuild, ⟨-, -, hEdges, hLabels⟩, -, hThaw, ⟨turned, hTurned, hBack, hSwap, hLabel⟩,
    hLists, hCount⟩ := graphs_survive_rebuilding _ hReachable
  have hBefore : g.predecessors 1 = [0, 2, 1, 0] := by
    rw [(hLists 1).2, hEdges]
    decide +kernel
  refine ⟨hReachable, g, turned, hBuild, hThaw, hTurned, hBack, hBefore, ?_, ?_, ?_⟩
  · rw [(hSwap 1).1, hBefore]
  · rw [(hCount 0 1).1, hEdges]
    decide +kernel
  · rw [hLabel 0 1, hLabels]
    decide +kernel

end IndexedDraft

end BytecodeFlow
