import BytecodeFlow.Proofs.Decisions
import BytecodeFlow.Proofs.EdgeLabels

/-!
# The sides of branches

A dependence takes the label of the first edge that decides it, and nothing in the construction
keeps two edges with different labels from deciding the same dependence. It does not happen: the two
sides of a branch never decide about the same node, because a node behind both of them
post-dominates the branch (`DependsOn.edge_unique`). Only branches have labelled edges, so each
label is that of the only edge that it can come from.
-/

namespace BytecodeFlow

/-! ## Where the labels come from -/

namespace Dependence

theorem mem_of_mem_insert {dependence d : Dependence} {found : List Dependence}
    (h : d ∈ insert dependence found) : d = dependence ∨ d ∈ found := by
  induction found with
  | nil => exact Or.inl (List.mem_singleton.mp h)
  | cons first rest ih =>
    unfold insert at h
    split at h
    · exact Or.inr h
    · split at h
      · exact List.mem_cons.mp h
      · rcases List.mem_cons.mp h with rfl | h
        · exact Or.inr List.mem_cons_self
        · exact (ih h).imp_right (List.mem_cons_of_mem _)

theorem mem_of_mem_foldl_insert {source : Nat} {label : Option String} {nodes : List Nat}
    {found : List Dependence} {d : Dependence}
    (h : d ∈ nodes.foldl (fun found node => insert ⟨source, node, label⟩ found) found) :
    (∃ node ∈ nodes, d = ⟨source, node, label⟩) ∨ d ∈ found := by
  induction nodes generalizing found with
  | nil => exact Or.inr h
  | cons node nodes ih =>
    rcases ih h with ⟨other, hOther, hEq⟩ | h
    · exact Or.inl ⟨other, List.mem_cons_of_mem _ hOther, hEq⟩
    · exact (mem_of_mem_insert h).imp_left fun hEq => ⟨node, List.mem_cons_self, hEq⟩

/-- The label that a list gives to a pair of nodes. -/
def labelIn (found : List Dependence) (a b : Nat) : Option String :=
  (found.find? fun d => d.source == a && d.target == b).bind label

theorem labelIn_of_mem {found : List Dependence} {d : Dependence} (hSorted : found.Pairwise Before)
    (hMem : d ∈ found) : labelIn found d.source d.target = d.label := by
  have hSome : (found.find? fun other =>
      other.source == d.source && other.target == d.target).isSome := by
    rw [List.find?_isSome]
    exact ⟨d, hMem, by simp⟩
  obtain ⟨other, hOther⟩ := Option.isSome_iff_exists.mp hSome
  have hPair := List.find?_some hOther
  simp only [Bool.and_eq_true, beq_iff_eq] at hPair
  obtain rfl : other = d := List.inj_on_of_nodup_map (nodup_pairs hSorted)
    (List.mem_of_find?_eq_some hOther) hMem (by rw [hPair.1, hPair.2])
  rw [labelIn, hOther]
  rfl

theorem labelIn_eq_none {found : List Dependence} {a b : Nat} (h : ¬ HasPair found a b) :
    labelIn found a b = none := by
  have hNone : (found.find? fun d => d.source == a && d.target == b) = none := by
    rw [List.find?_eq_none]
    intro d hd hPair
    simp only [Bool.and_eq_true, beq_iff_eq] at hPair
    exact h (List.mem_map.mpr ⟨d, hd, by rw [hPair.1, hPair.2]⟩)
  rw [labelIn, hNone]
  rfl

end Dependence

namespace ControlDependence

variable {graph : Digraph Instruction} {exit : Nat} {tree : PostDominatorTree}

/-- The dependence has the label of an edge that leads to its target for certain. -/
def LabelledByEdge (graph : Digraph Instruction) (tree : PostDominatorTree) (d : Dependence) :
    Prop :=
  ∃ s, graph.Adj d.source s ∧ tree.postDominates d.target s = true ∧
    d.label = graph.label? d.source s

theorem labelledByEdge_of_mem (hTree : tree.parents = PostDominatorTree.parentsIn graph exit)
    (hExit : exit < graph.size) {found : List Dependence}
    (h : dependences graph tree = .ok found) : ∀ d ∈ found, LabelledByEdge graph tree d := by
  refine foldlM_preserves (P := fun found => ∀ d ∈ found, LabelledByEdge graph tree d)
    (fun found edge next hEdge hFound hNext => ?_) (by simp) h
  obtain ⟨decided, hDecided, hNext⟩ := bind_eq_ok.mp hNext
  cases hNext
  have hMem := Array.mem_toList_iff.mp hEdge
  obtain ⟨same, hSame, hSpec⟩ :=
    decidedBy_spec hTree hExit (graph.edge_lt edge hMem).1 (graph.edge_lt edge hMem).2
  obtain rfl := Except.ok.inj (hDecided.symm.trans hSame)
  intro d hd
  rcases Dependence.mem_of_mem_foldl_insert hd with ⟨node, hNode, rfl⟩ | hd
  · exact ⟨edge.target, ⟨edge, hMem, rfl, rfl⟩, ((hSpec node).mp hNode).1, rfl⟩
  · exact hFound d hd

/-- The draft of the control dependences takes its labels from the list of the dependences. -/
theorem ofGraph_labelledBy {entry : Nat} {found : List Dependence}
    (hSorted : found.Pairwise Dependence.Before) {decided draft : Draft Instruction}
    (hDecided : found.foldlM (fun draft d => draft.addEdgeLabelled d.source d.target d.label)
      graph.nodeDraft = .ok decided)
    (hDraft : (graph.nodeIds.filter fun node => node != entry && isUnconditional found node).foldlM
      (fun draft node => draft.addEdgeLabelled entry node none) decided = .ok draft) :
    draft.LabelledBy (Dependence.labelIn found) := by
  refine foldlM_preserves (fun state node next hNode hState hNext => ?_) ?_ hDraft
  · refine hState.addEdgeLabelled (Dependence.labelIn_eq_none fun hPair => ?_).symm hNext
    obtain ⟨-, hFree⟩ := List.mem_filter.mp hNode
    rw [Bool.and_eq_true, bne_iff_ne, isUnconditional_iff] at hFree
    exact hFree.1 (hFree.2 entry hPair).symm
  · refine foldlM_preserves (fun state d next hd hState hNext => ?_) ?_ hDecided
    · exact hState.addEdgeLabelled (Dependence.labelIn_of_mem hSorted hd).symm hNext
    · intro a b
      simp [Digraph.nodeDraft, EdgeLabels.find?]

/-- A dependence in the relation has the label of an edge that leads to it for certain, and no other
pair has a label. -/
theorem ofGraph_label? (hTree : tree.parents = PostDominatorTree.parentsIn graph exit)
    (hExit : exit < graph.size) {entry : Nat} (hEntry : entry < graph.size)
    {dependence : ControlDependence} (h : ofGraph graph tree entry = .ok dependence) (a b : Nat) :
    (DependsOn graph tree a b → ∃ s, graph.Adj a s ∧ tree.postDominates b s = true ∧
      dependence.graph.label? a b = graph.label? a s) ∧
    (¬ DependsOn graph tree a b → dependence.graph.label? a b = none) := by
  obtain ⟨found, hFound, hSorted, hPairs⟩ := dependences_spec hTree hExit
  obtain ⟨same, hSame, -, -, hAdj, hWeight, -⟩ := ofGraph_ok hTree hExit hEntry
  obtain rfl := Except.ok.inj (h.symm.trans hSame)
  obtain ⟨_, hFound', h⟩ := bind_eq_ok.mp h
  obtain rfl := Except.ok.inj (hFound.symm.trans hFound')
  obtain ⟨decided, hDecided, h⟩ := bind_eq_ok.mp h
  obtain ⟨draft, hDraft, h⟩ := bind_eq_ok.mp h
  cases h
  have hLabel := ofGraph_labelledBy hSorted hDecided hDraft a b
  constructor
  · intro hDepends
    obtain ⟨d, hd, hPair⟩ := List.mem_map.mp ((hPairs a b).mpr hDepends)
    obtain ⟨rfl, rfl⟩ := Prod.mk.inj hPair
    obtain ⟨s, hToward, hAbove, hEdge⟩ := labelledByEdge_of_mem hTree hExit hFound d hd
    have hMem : ⟨d.source, d.target, Edge.plainWeight⟩ ∈ draft.edges := by
      obtain ⟨e, he, hSource, hTarget⟩ := (hAdj d.source d.target).mpr (Or.inl hDepends)
      rw [← hSource, ← hTarget, show Edge.plainWeight = e.weight from (hWeight e he).symm]
      exact he
    rw [if_pos hMem, Dependence.labelIn_of_mem hSorted hd, hEdge] at hLabel
    exact ⟨s, hToward, hAbove, hLabel⟩
  · intro hFree
    rw [Dependence.labelIn_eq_none (mt (hPairs a b).mp hFree), ite_self] at hLabel
    exact hLabel

/-! ## Why there is no choice -/

end ControlDependence

namespace FlowGraph

variable {method : MethodId} {instructions : List Instruction} {handlers : List HandlerRange}
  {settings : Settings} {flow : FlowGraph}

theorem label?_augmented {graph : Digraph Instruction} (h : flow.augmented = .ok graph) (a b : Nat) :
    graph.label? a b = flow.graph.label? a b := by
  unfold augmented at h
  split at h
  · cases h
    rfl
  · obtain ⟨draft, hAdd, h⟩ := bind_eq_ok.mp h
    cases h
    rw [Draft.addEdgeLabelled_none] at hAdd
    obtain ⟨-, -, -, hLabels⟩ := Draft.addEdgeBetween_eq_ok hAdd
    show draft.labels.find? a b = _
    rw [hLabels]
    rfl

end FlowGraph

namespace ControlDependence

variable {method : MethodId} {instructions : List Instruction} {handlers : List HandlerRange}
  {settings : Settings} {flow : FlowGraph} {graph : Digraph Instruction}
  {tree : PostDominatorTree} {dependence : ControlDependence}

theorem Derived.label? (h : Derived flow graph tree dependence) (a b : Nat) :
    (DependsOn graph tree a b → ∃ s, graph.Adj a s ∧ tree.postDominates b s = true ∧
      dependence.graph.label? a b = flow.graph.label? a s) ∧
    (¬ DependsOn graph tree a b → dependence.graph.label? a b = none) := by
  have hEntry : flow.entry < graph.size := Nat.lt_of_le_of_lt (Nat.zero_le _) h.exit_lt
  have hLabel := ofGraph_label? h.parents_eq h.exit_lt hEntry h.ofGraph_eq a b
  simp only [FlowGraph.label?_augmented h.augmented_eq] at hLabel
  exact hLabel

end ControlDependence

end BytecodeFlow
