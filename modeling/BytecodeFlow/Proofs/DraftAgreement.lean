import BytecodeFlow.ControlDependence
import BytecodeFlow.Proofs.DraftConsistency
import BytecodeFlow.Proofs.EdgeInsertion

/-!
# The two forms of drafts

The analyses build their graphs on drafts without tables, which search their nodes and edges. On a
consistent draft the tables give the same answers as the search. So an operation of the analyses
ends in the same graph, or fails for the same reason, as the one that asks the tables.

Every draft of the analyses is therefore one that steps can reach (`Draft.Built.exists_reachable`),
and their graphs are frozen from such drafts (`FlowGraph.drafted_graphs`). The nodes of these have
different contents, and the index finds what a search of the nodes finds.
-/

namespace BytecodeFlow

namespace IndexedDraft

open InPlace

variable {α : Type}

/-- Both forms hold the same graph. -/
structure Represents (draft : IndexedDraft α) (plain : Draft α) : Prop where
  nodes_eq : plain.nodes = draft.nodes
  edges_eq : plain.edges = draft.edges
  labels_eq : plain.labels = draft.labels

/-- Both forms end in the same graph or fail for the same reason. -/
inductive SameOutcome {β : Type} :
    EStateM.Result Error (IndexedDraft α) β → Except Error (Draft α) → Prop
  | ok {answer : β} {draft : IndexedDraft α} {plain : Draft α} (h : Represents draft plain) :
      SameOutcome (.ok answer draft) (.ok plain)
  | error {error : Error} {draft : IndexedDraft α} : SameOutcome (.error error draft) (.error error)

theorem SameOutcome.map_iff {β γ : Type} {x : Drafting α β} {g : β → γ} {draft : IndexedDraft α}
    {outcome : Except Error (Draft α)} :
    SameOutcome ((g <$> x) draft) outcome ↔ SameOutcome (x draft) outcome := by
  change SameOutcome (EStateM.map g x draft) outcome ↔ _
  unfold EStateM.map
  cases x draft with
  | ok answer left =>
    constructor
    · intro h
      cases h with
      | ok hLeft => exact .ok hLeft
    · intro h
      cases h with
      | ok hLeft => exact .ok hLeft
  | error error left =>
    constructor
    · intro h
      cases h
      exact .error
    · intro h
      cases h
      exact .error

namespace Represents

variable {draft : IndexedDraft α} {plain : Draft α}

theorem reverse (h : Represents draft plain) : Represents draft.reverse plain.reverse :=
  ⟨h.nodes_eq, by simp [Draft.reverse, IndexedDraft.reverse, h.edges_eq],
    by simp [Draft.reverse, IndexedDraft.reverse, h.labels_eq]⟩

theorem setLabel (h : Represents draft plain) (source target : Nat) (label : Option String) :
    Represents (draft.setLabel source target label) (plain.setLabel source target label) := by
  cases label with
  | none =>
    exact ⟨h.nodes_eq, h.edges_eq, by simp [Draft.setLabel, IndexedDraft.setLabel, h.labels_eq]⟩
  | some text =>
    exact ⟨h.nodes_eq, h.edges_eq, by simp [Draft.setLabel, IndexedDraft.setLabel, h.labels_eq]⟩

theorem freeze? (h : Represents draft plain) : draft.freeze? = some plain.freeze := by
  obtain ⟨nodes, edges, labels, hLt⟩ := plain
  obtain ⟨hNodes, hEdges, hLabels⟩ := h
  dsimp only at hNodes hEdges hLabels
  subst hNodes hEdges hLabels
  exact dif_pos hLt

variable [NodeContent α]

theorem insertEdge (h : Represents draft plain) (hConsistent : Consistent draft)
    (source target : Fin plain.nodes.size) (weight : Nat) :
    SameOutcome (IndexedDraft.insertEdge ⟨source, target, weight⟩ draft)
      (plain.insertEdge source target weight) := by
  have hThere : draft.edgeSet.contains ⟨source, target, weight⟩ =
      plain.edges.contains ⟨source, target, weight⟩ := by
    rw [Bool.eq_iff_iff, List.contains_iff_mem, Array.contains_iff_mem, h.edges_eq,
      hConsistent.mem_edgeSet]
  have hText : ∀ node : Fin plain.nodes.size,
      draft.describeNode node = NodeContent.describe plain.nodes[node] := by
    intro node
    simp [describeNode, ← h.nodes_eq]
  rw [insertEdge_eq, Draft.insertEdge, hThere, hText source, hText target]
  split
  · exact .error
  · exact .ok ⟨h.nodes_eq, by simp [pushEdge, h.edges_eq], h.labels_eq⟩

theorem addEdgeBetween (h : Represents draft plain) (hConsistent : Consistent draft)
    (source target weight : Nat) :
    SameOutcome (step (.addEdgeBetween source target weight) draft)
      (plain.addEdgeBetween source target weight) := by
  have hSize : draft.nodes.size = plain.nodes.size := by rw [h.nodes_eq]
  apply SameOutcome.map_iff.mpr
  unfold IndexedDraft.addEdgeBetween Draft.addEdgeBetween Draft.checkNode
  by_cases hSource : source < plain.nodes.size
  · rw [bind_apply_of_ok ((checkNode_eq _ _ _).trans (if_neg (by omega))), dif_pos hSource]
    by_cases hTarget : target < plain.nodes.size
    · rw [bind_apply_of_ok ((checkNode_eq _ _ _).trans (if_neg (by omega))), dif_pos hTarget]
      exact h.insertEdge hConsistent ⟨source, hSource⟩ ⟨target, hTarget⟩ weight
    · rw [bind_apply_of_error ((checkNode_eq _ _ _).trans (if_pos (by omega))), dif_neg hTarget,
        hSize]
      exact .error
  · rw [bind_apply_of_error ((checkNode_eq _ _ _).trans (if_pos (by omega))), dif_neg hSource,
      hSize]
    exact .error

theorem addLabelledEdgeBetween (h : Represents draft plain) (hConsistent : Consistent draft)
    (source target : Nat) (label : String) :
    SameOutcome (step (.addLabelledEdgeBetween source target label) draft)
      (plain.addEdgeLabelled source target (some label)) := by
  have hAdd := SameOutcome.map_iff.mp (h.addEdgeBetween hConsistent source target Edge.plainWeight)
  apply SameOutcome.map_iff.mpr
  unfold IndexedDraft.addLabelledEdgeBetween Draft.addEdgeLabelled
  cases hLeft : IndexedDraft.addEdgeBetween source target Edge.plainWeight draft with
  | ok answer left =>
    rw [hLeft] at hAdd
    rw [bind_apply_of_ok hLeft]
    generalize plain.addEdgeBetween source target Edge.plainWeight = outcome at hAdd ⊢
    cases hAdd with
    | ok hRest => exact .ok (hRest.setLabel source target (some label))
  | error error left =>
    rw [hLeft] at hAdd
    rw [bind_apply_of_error hLeft]
    generalize plain.addEdgeBetween source target Edge.plainWeight = outcome at hAdd ⊢
    cases hAdd with
    | error => exact .error

variable [EquivBEq α]

/-- The index finds a content exactly if the search does. -/
theorem contains_eq (h : Represents draft plain) (hConsistent : Consistent draft) (content : α) :
    plain.contains content = (draft.index? content).isSome := by
  rw [Draft.contains, Draft.index?, Array.isSome_findFinIdx?, h.nodes_eq, Bool.eq_iff_iff,
    Array.any_eq_true', Option.isSome_iff_exists]
  constructor
  · intro hFound
    obtain ⟨other, hMem, hEqual⟩ := hFound
    obtain ⟨node, hNode⟩ := Array.mem_iff_getElem?.mp hMem
    exact ⟨node, (hConsistent.index_iff content node).mpr ⟨other, hNode, BEq.symm hEqual⟩⟩
  · intro hFound
    obtain ⟨node, hNode⟩ := hFound
    obtain ⟨other, hOther, hEqual⟩ := (hConsistent.index_iff content node).mp hNode
    exact ⟨other, Array.mem_of_getElem? hOther, BEq.symm hEqual⟩

theorem addNode (h : Represents draft plain) (hConsistent : Consistent draft) (content : α) :
    Represents (draft.addNode content).2 (plain.addNode content) := by
  unfold Draft.addNode
  rw [h.contains_eq hConsistent]
  rcases addNode_cases draft content with ⟨hThere, hSame⟩ | ⟨hAbsent, hPushed⟩
  · rw [if_pos hThere, hSame]
    exact h
  · rw [if_neg (by simp [hAbsent]), hPushed]
    exact ⟨by simp [h.nodes_eq], h.edges_eq, h.labels_eq⟩

theorem addNodes (h : Represents draft plain) (hConsistent : Consistent draft) (contents : List α) :
    Represents (draft.addNodes contents) (plain.addNodes contents) := by
  induction contents generalizing draft plain with
  | nil => exact h
  | cons content contents ih =>
    exact ih (h.addNode hConsistent content) (hConsistent.addNode content)

end Represents

end IndexedDraft

/-! ## The drafts of the analyses -/

namespace Draft

open IndexedDraft InPlace

variable {α : Type} [NodeContent α]

/-- The drafts that the analyses build: from a list of nodes or from a graph, by adding edges. -/
inductive Built : Draft α → Prop
  | ofNodes (contents : List α) : Built (.ofNodes contents)
  | addEdgeBetween {plain next : Draft α} {source target weight : Nat} (h : Built plain)
      (hOk : plain.addEdgeBetween source target weight = .ok next) : Built next
  | addEdgeLabelled {plain next : Draft α} {source target : Nat} {label : Option String}
      (h : Built plain) (hOk : plain.addEdgeLabelled source target label = .ok next) : Built next
  | reverse {plain : Draft α} (h : Built plain) : Built plain.reverse
  | thaw {plain : Draft α} (h : Built plain) : Built plain.freeze.thaw
  | nodeDraft {plain : Draft α} (h : Built plain) : Built plain.freeze.nodeDraft

/-- What a step of the analyses ends in can be reached if it can be reached by a step in place. -/
theorem exists_reachable_of_step {draft : IndexedDraft α} {next : Draft α} {call : DraftStep α}
    (hReachable : Reachable draft) (hSame : SameOutcome (step call draft) (.ok next)) :
    ∃ left, Reachable left ∧ Represents left next := by
  have hNext := hReachable.step call
  cases hStep : step call draft with
  | error error left =>
    rw [hStep] at hSame
    cases hSame
  | ok answer left =>
    rw [hStep] at hSame
    rw [after_of_ok hStep] at hNext
    cases hSame with
    | ok hLeft => exact ⟨left, hNext, hLeft⟩

variable [EquivBEq α]

/-- Every draft of the analyses is one that steps can reach, without the tables. -/
theorem Built.exists_reachable {plain : Draft α} (h : Built plain) :
    ∃ draft, Reachable draft ∧ Represents draft plain := by
  induction h with
  | ofNodes contents =>
    have hEmpty : Represents ({} : IndexedDraft α) ({} : Draft α) := ⟨rfl, rfl, rfl⟩
    exact ⟨_, Reachable.empty.step (.addNodes contents),
      hEmpty.addNodes consistent_empty contents⟩
  | addEdgeBetween _ hOk ih =>
    obtain ⟨draft, hReachable, hDraft⟩ := ih
    have hSame := hDraft.addEdgeBetween hReachable.consistent
    exact exists_reachable_of_step hReachable (hOk ▸ hSame _ _ _)
  | @addEdgeLabelled plain next source target label _ hOk ih =>
    obtain ⟨draft, hReachable, hDraft⟩ := ih
    cases label with
    | none =>
      rw [addEdgeLabelled_none] at hOk
      have hSame := hDraft.addEdgeBetween hReachable.consistent
      exact exists_reachable_of_step hReachable (hOk ▸ hSame _ _ _)
    | some label =>
      have hSame := hDraft.addLabelledEdgeBetween hReachable.consistent
      exact exists_reachable_of_step hReachable (hOk ▸ hSame _ _ _)
  | reverse _ ih =>
    obtain ⟨draft, hReachable, hDraft⟩ := ih
    exact ⟨_, hReachable.step .reverse, hDraft.reverse⟩
  | thaw _ ih =>
    obtain ⟨draft, hReachable, hDraft⟩ := ih
    obtain ⟨-, hNodes, hEdges, hLabels⟩ := hReachable.consistent.ofGraph_eq hDraft.freeze?
    exact ⟨_, hReachable.ofGraph hDraft.freeze?, hNodes.symm, hEdges.symm, hLabels.symm⟩
  | nodeDraft _ ih =>
    obtain ⟨draft, hReachable, hDraft⟩ := ih
    obtain ⟨hNodes, hEdges, hLabels⟩ := hReachable.consistent.ofNodesOf_eq hDraft.freeze?
    exact ⟨_, hReachable.ofNodesOf hDraft.freeze?, hNodes.symm, hEdges.symm, hLabels.symm⟩

end Draft

/-! ## The graphs of the analyses -/

namespace Digraph

variable {α : Type} [NodeContent α] {g : Digraph α} {content : α} {n : Nat}

/-- A draft that steps can reach freezes to the graph. -/
def Drafted (g : Digraph α) : Prop :=
  ∃ draft : IndexedDraft α, draft.Reachable ∧ draft.freeze? = some g

/-- A draft of the analyses freezes to the graph. -/
def IsBuilt (g : Digraph α) : Prop :=
  ∃ plain : Draft α, plain.Built ∧ plain.freeze = g

/-- No two nodes have the same content. -/
def Distinct (g : Digraph α) : Prop :=
  ∀ m n x y, g.node? m = some x → g.node? n = some y → (x == y) = true → m = n

theorem Distinct.congr {h : Digraph α} (hDistinct : g.Distinct) (hNodes : h.nodes = g.nodes) :
    h.Distinct := by
  unfold Distinct node?
  rw [hNodes]
  exact hDistinct

/-- The search finds the only node with the content. -/
theorem Distinct.index?_eq_some_iff [EquivBEq α] (h : g.Distinct) :
    g.index? content = some n ↔ ∃ other, g.node? n = some other ∧ (other == content) = true := by
  rw [index?, Array.findIdx?_eq_some_iff_getElem]
  constructor
  · rintro ⟨hn, hSame, -⟩
    exact ⟨_, Array.getElem?_eq_getElem hn, hSame⟩
  · rintro ⟨other, hNode, hSame⟩
    obtain ⟨hn, rfl⟩ := Array.getElem?_eq_some_iff.mp hNode
    refine ⟨hn, hSame, fun k hk hOther => ?_⟩
    -- a smaller number with the same content would be the same number
    have hEq := h k n _ _ (Array.getElem?_eq_getElem (Nat.lt_trans hk hn)) hNode
      (BEq.trans hOther (BEq.symm hSame))
    omega

theorem distinct_of_pairwise [EquivBEq α]
    (h : g.nodes.toList.Pairwise fun a b => (a == b) = false) : g.Distinct := by
  intro m n x y hm hn hSame
  obtain ⟨hmSize, rfl⟩ := Array.getElem?_eq_some_iff.mp hm
  obtain ⟨hnSize, rfl⟩ := Array.getElem?_eq_some_iff.mp hn
  have hApart := List.pairwise_iff_getElem.mp h
  simp only [Array.getElem_toList, Array.length_toList] at hApart
  rcases Nat.lt_trichotomy m n with hLess | hEq | hLess
  · rw [hApart m n hmSize hnSize hLess] at hSame
    cases hSame
  · exact hEq
  · rw [BEq.comm, hApart n m hnSize hmSize hLess] at hSame
    cases hSame

theorem Drafted.distinct [EquivBEq α] (h : g.Drafted) : g.Distinct := by
  obtain ⟨draft, hReachable, hFreeze⟩ := h
  apply distinct_of_pairwise
  rw [(IndexedDraft.freeze?_eq_some hFreeze).1]
  exact hReachable.consistent.distinct

theorem IsBuilt.drafted [EquivBEq α] (h : g.IsBuilt) : g.Drafted := by
  obtain ⟨plain, hBuilt, rfl⟩ := h
  obtain ⟨draft, hReachable, hSame⟩ := hBuilt.exists_reachable
  exact ⟨draft, hReachable, hSame.freeze?⟩

theorem IsBuilt.reverse (h : g.IsBuilt) : g.reverse.IsBuilt := by
  obtain ⟨plain, hBuilt, rfl⟩ := h
  exact ⟨_, hBuilt.thaw.reverse, rfl⟩

end Digraph

/-- The index of a draft finds what a search of its graph finds. -/
theorem IndexedDraft.Consistent.index?_eq {α : Type} [NodeContent α] [EquivBEq α]
    {draft : IndexedDraft α} {g : Digraph α} (h : Consistent draft)
    (hFreeze : draft.freeze? = some g) (content : α) : draft.index? content = g.index? content := by
  have hNodes := (freeze?_eq_some hFreeze).1
  have hDistinct : g.Distinct := Digraph.distinct_of_pairwise (hNodes ▸ h.distinct)
  refine Option.ext fun node => ?_
  rw [h.index_iff, hDistinct.index?_eq_some_iff, Digraph.node?, hNodes]
  simp only [BEq.comm]

namespace FlowGraph

variable {method : MethodId} {instructions : List Instruction} {handlers : List HandlerRange}
  {settings : Settings} {flow : FlowGraph} {graph : Digraph Instruction}

theorem built_addFlows {count : Nat} {source : Nat × Instruction}
    {draft extended : Draft Instruction} (h : draft.Built)
    (hAdd : addFlows settings handlers count draft source = .ok extended) : extended.Built := by
  unfold addFlows at hAdd
  obtain ⟨orders, -, hAdd⟩ := bind_eq_ok.mp hAdd
  split at hAdd
  · exact h.addEdgeLabelled hAdd
  · refine foldlM_preserves (fun state order next _ hState hNext => ?_) h hAdd
    unfold addFlow at hNext
    split at hNext
    · cases hNext
    · exact hState.addEdgeLabelled hNext

theorem isBuilt_graph (hBuild : build method instructions handlers settings = .ok flow) :
    flow.graph.IsBuilt := by
  obtain ⟨draft, hFold, hFreeze⟩ := exists_draft_of_build hBuild
  exact ⟨draft, foldlM_preserves (fun _ _ _ _ hState hNext => built_addFlows hState hNext)
    (.ofNodes _) hFold, hFreeze⟩

theorem isBuilt_augmented (hGraph : flow.graph.IsBuilt) (h : flow.augmented = .ok graph) :
    graph.IsBuilt := by
  unfold augmented at h
  split at h
  · cases h
    exact hGraph
  · obtain ⟨draft, hAdd, h⟩ := bind_eq_ok.mp h
    cases h
    obtain ⟨plain, hBuilt, hFreeze⟩ := hGraph
    rw [← hFreeze] at hAdd
    exact ⟨draft, hBuilt.thaw.addEdgeLabelled hAdd, rfl⟩

end FlowGraph

theorem PostDominatorTree.isBuilt_graph {graph : Digraph Instruction} {exit : Nat}
    {tree : PostDominatorTree} (hGraph : graph.IsBuilt) (h : ofGraph graph exit = .ok tree) :
    tree.graph.IsBuilt := by
  unfold ofGraph at h
  dsimp only at h
  split at h
  · obtain ⟨draft, hFold, h⟩ := bind_eq_ok.mp h
    cases h
    obtain ⟨plain, hBuilt, rfl⟩ := hGraph
    exact ⟨draft, foldlM_preserves (fun _ _ _ _ hState hNext => hState.addEdgeBetween hNext)
      hBuilt.nodeDraft hFold, rfl⟩
  · cases h

namespace ControlDependence

variable {graph : Digraph Instruction} {tree : PostDominatorTree} {entry : Nat}
  {dependence : ControlDependence}

/-- The graph is frozen from a draft that has every property of the nodes alone which is kept when an
edge is added. -/
theorem exists_draft_of_ofGraph {P : Draft Instruction → Prop}
    (hKeeps : ∀ {draft next source target label}, P draft →
      draft.addEdgeLabelled source target label = .ok next → P next)
    (hStart : P graph.nodeDraft) (h : ofGraph graph tree entry = .ok dependence) :
    ∃ draft, P draft ∧ draft.freeze = dependence.graph := by
  unfold ofGraph at h
  obtain ⟨found, -, h⟩ := bind_eq_ok.mp h
  obtain ⟨decided, hDecided, h⟩ := bind_eq_ok.mp h
  obtain ⟨draft, hFold, h⟩ := bind_eq_ok.mp h
  cases h
  have hMiddle : P decided :=
    foldlM_preserves (fun _ _ _ _ hState hNext => hKeeps hState hNext) hStart hDecided
  exact ⟨draft, foldlM_preserves (fun _ _ _ _ hState hNext => hKeeps hState hNext) hMiddle hFold,
    rfl⟩

theorem isBuilt_graph (hGraph : graph.IsBuilt) (h : ofGraph graph tree entry = .ok dependence) :
    dependence.graph.IsBuilt := by
  obtain ⟨plain, hBuilt, rfl⟩ := hGraph
  exact exists_draft_of_ofGraph (fun hState hNext => hState.addEdgeLabelled hNext)
    hBuilt.nodeDraft h

/-- The graph has the nodes of the graph that it is made from. -/
theorem nodes_ofGraph (h : ofGraph graph tree entry = .ok dependence) :
    dependence.graph.nodes = graph.nodes := by
  obtain ⟨draft, hNodes, hFreeze⟩ :=
    exists_draft_of_ofGraph (P := fun draft => draft.nodes = graph.nodes)
      (fun hState hNext => (Draft.addEdgeLabelled_eq_ok hNext).nodes_eq.trans hState) rfl h
  rw [← hFreeze]
  exact hNodes

end ControlDependence

/-- All graphs that are built on the way to the control dependences of a method are frozen from
drafts that steps can reach. -/
theorem FlowGraph.drafted_graphs {method : MethodId} {instructions : List Instruction}
    {handlers : List HandlerRange} {settings : Settings} {flow : FlowGraph}
    {graph : Digraph Instruction} {tree : PostDominatorTree} {dependence : ControlDependence}
    (hBuild : build method instructions handlers settings = .ok flow)
    (hAugmented : flow.augmented = .ok graph) (hTree : flow.postDominators = .ok tree)
    (hDependence : flow.controlDependence = .ok dependence) :
    ∀ g ∈ [flow.graph, graph, graph.reverse, tree.graph, dependence.graph], g.Drafted := by
  have hFlow := isBuilt_graph hBuild
  have hGraph := isBuilt_augmented hFlow hAugmented
  have hParents : tree.graph.IsBuilt := by
    unfold postDominators at hTree
    rw [hAugmented] at hTree
    exact PostDominatorTree.isBuilt_graph hGraph hTree
  have hDepends : dependence.graph.IsBuilt := by
    unfold controlDependence at hDependence
    rw [hAugmented, hTree] at hDependence
    exact ControlDependence.isBuilt_graph hGraph hDependence
  simp only [List.forall_mem_cons, List.not_mem_nil, false_implies, implies_true, and_true]
  exact ⟨hFlow.drafted, hGraph.drafted, hGraph.reverse.drafted, hParents.drafted, hDepends.drafted⟩

end BytecodeFlow
