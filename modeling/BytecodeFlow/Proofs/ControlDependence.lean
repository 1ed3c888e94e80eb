import BytecodeFlow.ControlDependence
import BytecodeFlow.Proofs.CommonAncestors
import BytecodeFlow.Proofs.FlowShape
import BytecodeFlow.Proofs.PostDominance

/-!
# Control dependence

A node depends on `a` if it post-dominates the end of some edge that leaves `a` but does not
strictly post-dominate `a` itself (`DependsOn`). The construction walks up the tree from the end of
each edge and stops below the node at which the chains of both ends of the edge join; this is
exactly what the relation asks for, so the filter on edges before the walk only saves work
(`decidedBy_spec`). The nodes that depend on nothing but themselves are hung below the entry, which
adds no edge that is there already.
-/

namespace BytecodeFlow

/-! ## The list of dependences -/

namespace Dependence

/-- The order of the list: by source, then by target. -/
def Before (left right : Dependence) : Prop :=
  left.source < right.source ∨ (left.source = right.source ∧ left.target < right.target)

/-- Whether a list holds the pair of nodes `a` and `b`. -/
def HasPair (found : List Dependence) (a b : Nat) : Prop :=
  (a, b) ∈ found.map fun d => (d.source, d.target)

theorem hasPair_insert {dependence : Dependence} {found : List Dependence} {a b : Nat} :
    HasPair (insert dependence found) a b ↔
      (a = dependence.source ∧ b = dependence.target) ∨ HasPair found a b := by
  unfold HasPair
  induction found with
  | nil => simp [insert]
  | cons first rest ih =>
    unfold insert
    split
    · rename_i hSame
      simp only [List.map_cons, List.mem_cons, Prod.mk.injEq, hSame.1, hSame.2, ← or_assoc, or_self]
    · split
      · simp only [List.map_cons, List.mem_cons, Prod.mk.injEq]
      · simp only [List.map_cons, List.mem_cons, ih, or_left_comm]

theorem before_of_mem_insert {dependence first : Dependence} {found : List Dependence}
    (hNew : first.Before dependence) (hFound : ∀ d ∈ found, first.Before d) :
    ∀ d ∈ insert dependence found, first.Before d := by
  induction found with
  | nil => simpa [insert] using hNew
  | cons second rest ih =>
    have hRest := ih fun d hd => hFound d (List.mem_cons_of_mem _ hd)
    have hSecond := hFound second List.mem_cons_self
    unfold insert
    split
    · exact hFound
    · split
      · simpa using ⟨hNew, hSecond, fun d hd => hFound d (List.mem_cons_of_mem _ hd)⟩
      · simpa using ⟨hSecond, hRest⟩

theorem pairwise_insert {d : Dependence} {found : List Dependence}
    (h : found.Pairwise Before) : (insert d found).Pairwise Before := by
  induction found with
  | nil => simp [insert]
  | cons first rest ih =>
    obtain ⟨hFirst, hRest⟩ := List.pairwise_cons.mp h
    unfold insert
    split
    · exact h
    · rename_i hDiffers
      split
      · rename_i hLess
        refine List.pairwise_cons.mpr ⟨?_, h⟩
        intro other hOther
        rcases List.mem_cons.mp hOther with rfl | hOther
        · exact hLess
        · have hLater := hFirst other hOther
          unfold Before at hLater ⊢
          omega
      · rename_i hNotLess
        refine List.pairwise_cons.mpr ⟨before_of_mem_insert ?_ hFirst, ih hRest⟩
        unfold Before
        omega

/-- A list in this order holds no pair twice. -/
theorem nodup_pairs {found : List Dependence} (h : found.Pairwise Before) :
    (found.map fun d => (d.source, d.target)).Nodup := by
  rw [List.Nodup, List.pairwise_map]
  refine h.imp fun {left right} hBefore hEq => ?_
  obtain ⟨hSource, hTarget⟩ := Prod.mk.inj hEq
  unfold Before at hBefore
  omega

/-- Adding dependences of one source for a list of targets. -/
theorem foldl_insert_spec (a : Nat) (label : Option String) (nodes : List Nat)
    {found : List Dependence} (hFound : found.Pairwise Before) :
    let extended := nodes.foldl (fun found node => insert ⟨a, node, label⟩ found) found
    extended.Pairwise Before ∧
      ∀ x b, HasPair extended x b ↔ (x = a ∧ b ∈ nodes) ∨ HasPair found x b := by
  induction nodes generalizing found with
  | nil => simpa using hFound
  | cons node nodes ih =>
    obtain ⟨hSorted, hMem⟩ := ih (pairwise_insert (d := ⟨a, node, label⟩) hFound)
    refine ⟨hSorted, fun x b => ?_⟩
    rw [List.foldl_cons, hMem, hasPair_insert, List.mem_cons, ← or_assoc, ← and_or_left, or_comm]
    rw [or_comm (a := b = node), or_comm]

end Dependence

namespace ControlDependence

variable {graph : Digraph Instruction} {exit : Nat} {tree : PostDominatorTree}

/-- Node `b` depends on node `a`: it post-dominates the end of an edge that leaves `a`, but it does
not strictly post-dominate `a`. -/
def DependsOn (graph : Digraph Instruction) (tree : PostDominatorTree) (a b : Nat) : Prop :=
  ∃ s, graph.Adj a s ∧ tree.postDominates b s = true ∧
    ¬ (b ≠ a ∧ tree.postDominates b a = true)

/-! ## What an edge decides about -/

/-- The walk along an edge finds the nodes above its end that are not strictly above its start. -/
theorem decidedBy_spec (hTree : tree.parents = PostDominatorTree.parentsIn graph exit)
    (hExit : exit < graph.size) {edge : Edge} (hSource : edge.source < graph.size)
    (hTarget : edge.target < graph.size) :
    ∃ decided, decidedBy tree edge = .ok decided ∧
      ∀ b, b ∈ decided ↔ tree.postDominates b edge.target = true ∧
        ¬ (b ≠ edge.source ∧ tree.postDominates b edge.source = true) := by
  have hRanked := PostDominatorTree.ranked_parent? hTree hExit
  have hUp : ∀ {x y z}, x ∈ tree.chain y → y ∈ tree.chain z → x ∈ tree.chain z := by
    intro x y z hx hy
    exact hRanked.mem_ancestors_iff.mpr
      ((hRanked.mem_ancestors_iff.mp hy).trans (hRanked.mem_ancestors_iff.mp hx))
  simp only [PostDominatorTree.postDominates_iff_mem_chain hTree hSource,
    PostDominatorTree.postDominates_iff_mem_chain hTree hTarget, decidedBy]
  split
  · -- the end is strictly above the start, and so is everything above the end
    rename_i hSkip
    refine ⟨[], rfl, fun b => ?_⟩
    simp only [List.not_mem_nil, false_iff]
    rintro ⟨hb, hNotAbove⟩
    refine hNotAbove ⟨?_, hUp hb hSkip.2⟩
    rintro rfl
    exact hSkip.1 (hRanked.ancestors_antisymm hSkip.2 hb)
  · obtain ⟨meeting, sideLeft, sideRight, hMeet, hLeft, hRight, hSide⟩ :=
      hRanked.commonAncestor?_spec ⟨exit, PostDominatorTree.exit_mem_chain hTree hExit hSource,
        PostDominatorTree.exit_mem_chain hTree hExit hTarget⟩
    have hBelow : (tree.chain edge.target).takeWhile (· != meeting) = sideRight :=
      hRanked.takeWhile_ancestors hRight
    have hMeetCommon : commonAncestor? tree.chain edge.source edge.target = some meeting := hMeet
    have hMeeting : meeting ∈ tree.chain edge.source := by
      rw [PostDominatorTree.chain, hLeft]
      exact List.mem_append_right _ (hRanked.self_mem_ancestors meeting)
    simp only [hMeetCommon, hBelow]
    refine ⟨_, rfl, fun b => ?_⟩
    have hDecided : (b ∈ if meeting = edge.source then sideRight ++ [meeting] else sideRight) ↔
        b ∈ sideRight ∨ (meeting = edge.source ∧ b = meeting) := by
      split <;> simp_all
    rw [hDecided, PostDominatorTree.chain, hRight, List.mem_append]
    constructor
    · rintro (hb | ⟨rfl, rfl⟩)
      · exact ⟨Or.inl hb, fun hAbove => hSide b hb hAbove.2⟩
      · exact ⟨Or.inr (hRanked.self_mem_ancestors _), fun hAbove => hAbove.1 rfl⟩
    · rintro ⟨hb | hb, hNotAbove⟩
      · exact Or.inl hb
      · -- above the meeting everything is above the start, so `b` is the start itself
        have hStart : b = edge.source := by
          by_contra hNe
          exact hNotAbove ⟨hNe, hUp hb hMeeting⟩
        subst hStart
        have hSame := hRanked.ancestors_antisymm hMeeting hb
        exact Or.inr ⟨hSame.symm, hSame⟩

/-! ## The dependences of a graph -/

/-- Going through a list of edges adds, for each of them, what it decides about. -/
theorem foldlM_decided_spec (hTree : tree.parents = PostDominatorTree.parentsIn graph exit)
    (hExit : exit < graph.size) (label : Edge → Option String) {edges : List Edge}
    (hEdges : ∀ e ∈ edges, e.source < graph.size ∧ e.target < graph.size)
    {found : List Dependence} (hFound : found.Pairwise Dependence.Before) :
    ∃ extended, edges.foldlM (fun found edge => do
        let decided ← decidedBy tree edge
        return decided.foldl
          (fun found node => Dependence.insert ⟨edge.source, node, label edge⟩ found) found) found =
        .ok extended ∧
      extended.Pairwise Dependence.Before ∧
      ∀ a b, Dependence.HasPair extended a b ↔ Dependence.HasPair found a b ∨
        ∃ e ∈ edges, e.source = a ∧ tree.postDominates b e.target = true ∧
          ¬ (b ≠ a ∧ tree.postDominates b a = true) := by
  induction edges generalizing found with
  | nil => exact ⟨found, rfl, hFound, by simp⟩
  | cons edge edges ih =>
    obtain ⟨hSource, hTarget⟩ := hEdges edge List.mem_cons_self
    obtain ⟨decided, hOk, hDecided⟩ := decidedBy_spec hTree hExit hSource hTarget
    obtain ⟨hNext, hPairs⟩ := Dependence.foldl_insert_spec edge.source (label edge) decided
      hFound
    obtain ⟨extended, hFold, hSorted, hMem⟩ :=
      ih (fun e he => hEdges e (List.mem_cons_of_mem _ he)) hNext
    refine ⟨extended, ?_, hSorted, fun a b => ?_⟩
    · rw [List.foldlM_cons, hOk]
      exact hFold
    · rw [hMem, hPairs, hDecided, List.exists_mem_cons_iff, or_assoc, or_left_comm]
      refine or_congr Iff.rfl (or_congr ?_ Iff.rfl)
      constructor
      · rintro ⟨rfl, h⟩
        exact ⟨rfl, h⟩
      · rintro ⟨rfl, h⟩
        exact ⟨rfl, h⟩

theorem dependences_spec (hTree : tree.parents = PostDominatorTree.parentsIn graph exit)
    (hExit : exit < graph.size) :
    ∃ found, dependences graph tree = .ok found ∧ found.Pairwise Dependence.Before ∧
      ∀ a b, Dependence.HasPair found a b ↔ DependsOn graph tree a b := by
  have hEdges : ∀ e ∈ graph.edges.toList, e.source < graph.size ∧ e.target < graph.size :=
    fun e he => graph.edge_lt e (Array.mem_toList_iff.mp he)
  obtain ⟨found, hFold, hSorted, hMem⟩ := foldlM_decided_spec hTree hExit
    (fun edge => graph.label? edge.source edge.target) hEdges List.Pairwise.nil
  refine ⟨found, hFold, hSorted, fun a b => ?_⟩
  rw [hMem]
  constructor
  · rintro (hNone | ⟨e, he, rfl, h⟩)
    · cases hNone
    · exact ⟨e.target, ⟨e, Array.mem_toList_iff.mp he, rfl, rfl⟩, h⟩
  · rintro ⟨s, ⟨e, he, rfl, rfl⟩, h⟩
    exact Or.inr ⟨e, Array.mem_toList_iff.mpr he, rfl, h⟩

theorem isUnconditional_iff {found : List Dependence} {node : Nat} :
    isUnconditional found node = true ↔ ∀ source, Dependence.HasPair found source node →
      source = node := by
  simp only [isUnconditional, List.all_eq_true, Bool.or_eq_true, bne_iff_ne, beq_iff_eq,
    Dependence.HasPair, List.mem_map, Prod.mk.injEq]
  constructor
  · rintro h source ⟨d, hd, rfl, rfl⟩
    exact (h d hd).resolve_left (fun hNe => hNe rfl)
  · intro h d hd
    by_cases hTarget : d.target = node
    · exact Or.inr (h d.source ⟨d, hd, rfl, hTarget⟩)
    · exact Or.inl hTarget

theorem DependsOn.lt (hTree : tree.parents = PostDominatorTree.parentsIn graph exit)
    (hExit : exit < graph.size) {a b : Nat} (h : DependsOn graph tree a b) :
    a < graph.size ∧ b < graph.size := by
  obtain ⟨s, hAdj, hPost, -⟩ := h
  rw [PostDominatorTree.postDominates_iff_mem_chain hTree hAdj.target_lt] at hPost
  exact ⟨hAdj.source_lt, PostDominatorTree.lt_of_mem_chain hTree hExit hAdj.target_lt hPost⟩

theorem mem_unconditional {found : List Dependence} {entry b : Nat}
    (hPairs : ∀ a b, Dependence.HasPair found a b ↔ DependsOn graph tree a b) :
    b ∈ (graph.nodeIds.filter fun node => node != entry && isUnconditional found node) ↔
      b < graph.size ∧ b ≠ entry ∧ ∀ source, DependsOn graph tree source b → source = b := by
  simp only [Digraph.nodeIds, List.mem_filter, List.mem_range, Bool.and_eq_true, bne_iff_ne,
    isUnconditional_iff, hPairs]

/-- Dependences can be inserted, and after them edges from the entry to nodes that none of them
leads to from there. -/
theorem insert_ok {found : List Dependence} {free : List Nat} {entry : Nat}
    (hEntry : entry < graph.size)
    (hFound : ∀ d ∈ found, d.source < graph.size ∧ d.target < graph.size)
    (hFoundNodup : (found.map fun d => (d.source, d.target)).Nodup)
    (hFree : ∀ b ∈ free, b < graph.size) (hFreeNodup : free.Nodup)
    (hFresh : ∀ b ∈ free, (entry, b) ∉ found.map fun d => (d.source, d.target)) :
    ∃ decided draft, found.foldlM (fun draft d =>
        draft.addEdgeLabelled d.source d.target d.label) graph.nodeDraft = .ok decided ∧
      free.foldlM (fun draft b => draft.addEdgeLabelled entry b none) decided = .ok draft ∧
      draft.nodes = graph.nodes ∧
      draft.edges.toList = found.map (fun d => ⟨d.source, d.target, Edge.plainWeight⟩) ++
        free.map fun b => ⟨entry, b, Edge.plainWeight⟩ := by
  obtain ⟨decided, hDecided, hNodes, hEdges⟩ := Draft.foldlM_insert Dependence.source
    Dependence.target Dependence.label found graph.nodeDraft hFound hFoundNodup
    (by simp [Digraph.nodeDraft])
  have hPairs : decided.edges.toList =
      found.map fun d => ⟨d.source, d.target, Edge.plainWeight⟩ := by
    simpa [Digraph.nodeDraft] using hEdges
  have hSize : decided.nodes.size = graph.size := by
    rw [hNodes]
    rfl
  obtain ⟨draft, hDraft, hNodes', hEdges'⟩ := Draft.foldlM_insert (fun _ => entry) (fun b => b)
    (fun _ => none) free decided
    (fun b hb => by rw [hSize]; exact ⟨hEntry, hFree b hb⟩)
    (hFreeNodup.map fun b b' hEq => (Prod.mk.inj hEq).2)
    (fun b hb hMem => by
      rw [← Array.mem_toList_iff, hPairs, List.mem_map] at hMem
      obtain ⟨d, hd, hEq⟩ := hMem
      injection hEq with hSource hTarget
      exact hFresh b hb (List.mem_map.mpr ⟨d, hd, by rw [hSource, hTarget]⟩))
  exact ⟨decided, draft, hDecided, hDraft, hNodes'.trans hNodes, by rw [hEdges', hPairs]⟩

/-- The graph of the dependences: the pairs of the relation, and the entry before every node that
depends on no node but itself. -/
theorem ofGraph_ok (hTree : tree.parents = PostDominatorTree.parentsIn graph exit)
    (hExit : exit < graph.size) {entry : Nat} (hEntry : entry < graph.size) :
    ∃ dependence, ofGraph graph tree entry = .ok dependence ∧ dependence.entry = entry ∧
      dependence.graph.nodes = graph.nodes ∧
      (∀ a b, dependence.graph.Adj a b ↔ DependsOn graph tree a b ∨
        (a = entry ∧ b < graph.size ∧ b ≠ entry ∧
          ∀ source, DependsOn graph tree source b → source = b)) ∧
      (∀ e ∈ dependence.graph.edges, e.weight = 1) ∧
      (dependence.graph.edges.toList.map fun e => (e.source, e.target)).Nodup := by
  obtain ⟨found, hFound, hSorted, hPairs⟩ := dependences_spec hTree hExit
  have hFoundNodup := Dependence.nodup_pairs hSorted
  obtain ⟨free, hList⟩ : ∃ free, free = graph.nodeIds.filter fun node =>
      node != entry && isUnconditional found node := ⟨_, rfl⟩
  have hFree : ∀ b, b ∈ free ↔ b < graph.size ∧ b ≠ entry ∧
      ∀ source, DependsOn graph tree source b → source = b := by
    intro b
    rw [hList]
    exact mem_unconditional hPairs
  have hFreeNodup : free.Nodup := by
    rw [hList]
    exact List.Nodup.filter _ List.nodup_range
  -- a dependence on the entry makes its target conditional, so no edge to a free node is there
  have hFresh : ∀ b ∈ free, (entry, b) ∉ found.map fun d => (d.source, d.target) := by
    intro b hb hPair
    obtain ⟨-, hNe, hOnly⟩ := (hFree b).mp hb
    exact hNe (hOnly entry ((hPairs _ _).mp hPair)).symm
  obtain ⟨decided, draft, hDecided, hDraft, hNodes, hEdges⟩ := insert_ok hEntry
    (fun d hd => ((hPairs _ _).mp (List.mem_map.mpr ⟨d, hd, rfl⟩)).lt hTree hExit) hFoundNodup
    (fun b hb => ((hFree b).mp hb).1) hFreeNodup hFresh
  have hAll : (draft.edges.toList.map fun e => (e.source, e.target)) =
      (found.map fun d => (d.source, d.target)) ++ free.map fun b => (entry, b) := by
    rw [hEdges, List.map_append, List.map_map, List.map_map]
    rfl
  refine ⟨⟨draft.freeze, entry⟩, ?_, rfl, hNodes, ?_, ?_, ?_⟩
  · simp only [ofGraph, hFound, bind, Except.bind, hDecided, ← hList, hDraft]
    rfl
  · intro a b
    have hAdj : draft.freeze.Adj a b ↔ (a, b) ∈ draft.edges.toList.map fun e =>
        (e.source, e.target) := by
      simp [Digraph.Adj, Draft.freeze]
    rw [hAdj, hAll, List.mem_append, ← hPairs, ← hFree]
    refine or_congr Iff.rfl ?_
    simp [and_comm, eq_comm]
  · intro e he
    have he : e ∈ draft.edges.toList := Array.mem_toList_iff.mpr he
    rw [hEdges] at he
    rcases List.mem_append.mp he with he | he <;>
    · obtain ⟨_, -, rfl⟩ := List.mem_map.mp he
      rfl
  · show (draft.edges.toList.map fun e => (e.source, e.target)).Nodup
    rw [hAll, List.nodup_append]
    refine ⟨hFoundNodup, hFreeNodup.map fun b b' hEq => (Prod.mk.inj hEq).2, ?_⟩
    rintro ⟨a, b⟩ hMem _ hMem' rfl
    obtain ⟨b', hb, hEq⟩ := List.mem_map.mp hMem'
    obtain ⟨rfl, rfl⟩ := Prod.mk.inj hEq
    exact hFresh _ hb hMem

/-- A node that no edge enters depends on nothing. -/
theorem not_dependsOn_of_no_pred (hTree : tree.parents = PostDominatorTree.parentsIn graph exit)
    (hExit : exit < graph.size) {node : Nat} (hNe : node ≠ exit)
    (hNoPred : ∀ u, ¬ graph.Adj u node) (a : Nat) : ¬ DependsOn graph tree a node := by
  rintro ⟨s, hAdj, hPost, -⟩
  have hStart : node ≠ s := fun hEq => hNoPred a (hEq ▸ hAdj)
  by_cases hReach : graph.Reaches s exit
  · obtain ⟨nodes, hPath⟩ := id hReach
    have hMem := (PostDominatorTree.postDominates_iff_of_reaches hTree hExit hReach).mp hPost
      nodes hPath
    rcases hPath.eq_source_or_adj node hMem with hEq | ⟨u, hInto⟩
    · exact hStart hEq
    · exact hNoPred u hInto
  · rcases (PostDominatorTree.postDominates_iff_of_not_reaches hTree hExit hAdj.target_lt
      hReach).mp hPost with hEq | hEq
    · exact hStart hEq
    · exact hNe hEq

/-- **Control dependence.** The control dependences of the flow graph of a method can always be
computed. Over the graph with the additional edge from the entry to the exit, and its post-dominator
tree, their edges are the pairs of the relation, and those from the entry to the nodes that depend
on no node but themselves. Every edge has weight 1, no edge comes twice, and none enters the
entry. -/
theorem controlDependence_eq_relation {method : MethodId} {instructions : List Instruction}
    {handlers : List HandlerRange} {settings : Settings} {flow : FlowGraph}
    (hBuild : FlowGraph.build method instructions handlers settings = .ok flow) :
    ∃ graph tree dependence, flow.augmented = .ok graph ∧ flow.postDominators = .ok tree ∧
      flow.controlDependence = .ok dependence ∧
      (∀ a s, graph.Adj a s ↔ flow.graph.Adj a s ∨ (a = flow.entry ∧ s = flow.exit)) ∧
      dependence.entry = flow.entry ∧ dependence.graph.nodes = flow.graph.nodes ∧
      (∀ a b, dependence.graph.Adj a b ↔ DependsOn graph tree a b ∨
        (a = flow.entry ∧ b < flow.graph.size ∧ b ≠ flow.entry ∧
          ∀ source, DependsOn graph tree source b → source = b)) ∧
      (∀ e ∈ dependence.graph.edges, e.weight = 1) ∧
      (dependence.graph.edges.toList.map fun e => (e.source, e.target)).Nodup ∧
      ∀ a, ¬ dependence.graph.Adj a flow.entry := by
  have hShape := FlowGraph.build_wellShaped hBuild
  obtain ⟨graph, hGraph, hNodes, hAdj⟩ := hShape.augmented_ok
  have hSize : graph.size = flow.graph.size := congrArg Array.size hNodes
  have hMethodExit : (graph.node? flow.exit).any Instruction.isMethodExit = true := by
    have hNode : graph.node? flow.exit = flow.graph.node? flow.exit := by
      rw [Digraph.node?, Digraph.node?, hNodes]
    rw [hNode, hShape.exit_node]
    rfl
  obtain ⟨hExit, tree, hOk, hTree, -⟩ := PostDominatorTree.ofGraph_ok hMethodExit
  have hEntry : flow.entry < graph.size := Nat.lt_of_le_of_lt (Nat.zero_le _) hExit
  obtain ⟨dependence, hDependence, hRoot, hSame, hEdges, hWeight, hNodup⟩ :=
    ofGraph_ok hTree hExit hEntry
  have hPostDominators : flow.postDominators = .ok tree := by
    rw [FlowGraph.postDominators, hGraph]
    exact hOk
  refine ⟨graph, tree, dependence, hGraph, hPostDominators, ?_, hAdj, hRoot, hSame.trans hNodes, ?_,
    hWeight, hNodup, ?_⟩
  · rw [FlowGraph.controlDependence, hGraph, hPostDominators]
    exact hDependence
  · rw [← hSize]
    exact hEdges
  · intro a hInto
    have hExitPos := hShape.exit_pos
    have hEntryNe : flow.entry ≠ flow.exit := by
      show 0 ≠ flow.exit
      omega
    have hNoPred : ∀ u, ¬ graph.Adj u flow.entry := by
      intro u hu
      rcases (hAdj u flow.entry).mp hu with hu | ⟨-, hEq⟩
      · exact hShape.target_ne hu rfl
      · exact hEntryNe hEq
    rcases (hEdges a flow.entry).mp hInto with hDepends | ⟨-, -, hNe, -⟩
    · exact not_dependsOn_of_no_pred hTree hExit hEntryNe hNoPred a hDepends
    · exact hNe rfl

/-- A loop that is left at its second instruction. -/
def countdown : List Instruction :=
  let method : MethodId := ⟨"Loop", "run", "(I)V"⟩
  [⟨method, 0, "0", .load .int 0, none⟩, ⟨method, 1, "1", .branch .equal 4, none⟩,
    ⟨method, 2, "2", .increment 0 (-1), none⟩, ⟨method, 3, "3", .goto 0, none⟩,
    ⟨method, 4, "4", .leave none, none⟩]

theorem controlDependence_eq_relation_countdown :
    ∃ flow graph tree, FlowGraph.build ⟨"Loop", "run", "(I)V"⟩ countdown [] {} = .ok flow ∧
      flow.augmented = .ok graph ∧ flow.postDominators = .ok tree ∧
      DependsOn graph tree 2 2 ∧ DependsOn graph tree 2 3 ∧ ¬ DependsOn graph tree 2 5 := by
  have hRun : ((FlowGraph.build ⟨"Loop", "run", "(I)V"⟩ countdown [] {}).bind fun flow =>
      flow.controlDependence.map fun dependence =>
        dependence.graph.edges.toList.map fun e => (e.source, e.target)).toOption =
      some [(0, 1), (0, 2), (0, 5), (2, 1), (2, 2), (2, 3), (2, 4), (0, 6)] := by
    decide +kernel
  cases hBuild : FlowGraph.build ⟨"Loop", "run", "(I)V"⟩ countdown [] {} with
  | error _ => simp [hBuild, Except.bind, Except.toOption] at hRun
  | ok flow =>
    obtain ⟨graph, tree, dependence, hGraph, hTree, hOk, -, -, -, hEdges, -⟩ :=
      controlDependence_eq_relation hBuild
    simp only [hBuild, hOk, Except.bind, Except.map, Except.toOption, Option.some.injEq] at hRun
    have hAdj : ∀ a b, dependence.graph.Adj a b ↔
        (a, b) ∈ [(0, 1), (0, 2), (0, 5), (2, 1), (2, 2), (2, 3), (2, 4), (0, 6)] := by
      intro a b
      rw [← hRun]
      simp [Digraph.Adj]
    -- only the entry has edges that the relation does not give
    have hDepends : ∀ b, DependsOn graph tree 2 b ↔ dependence.graph.Adj 2 b := by
      intro b
      rw [hEdges, or_iff_left]
      rintro ⟨hTwo, -⟩
      cases hTwo
    refine ⟨flow, graph, tree, rfl, hGraph, hTree, ?_, ?_, ?_⟩ <;>
    · rw [hDepends, hAdj]
      decide

end ControlDependence

end BytecodeFlow
