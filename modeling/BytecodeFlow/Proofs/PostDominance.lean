import BytecodeFlow.PostDominators
import BytecodeFlow.Proofs.DominatorTrees
import BytecodeFlow.Proofs.EdgeInsertion

/-!
# Post-dominance

The post-dominator tree of a graph takes its parents from two places: the dominator tree of the
reversed graph, and the exit for the nodes that cannot reach it. The second kind of parent is a
root, so that the mixture is still a forest (`ranked_parent?`), and a node that cannot reach the
exit lies on no chain but its own (`postDominates_iff_of_not_reaches`). On the other nodes the tree
answers what every path to the exit passes through (`postDominates_iff_of_reaches`).
-/

namespace BytecodeFlow.PostDominatorTree

variable {graph : Digraph Instruction} {exit : Nat} {tree : PostDominatorTree}

/-! ## Parents -/

theorem size_parentsIn : (parentsIn graph exit).size = graph.size := by
  simp [parentsIn]

/-- The parent of a node in the tree of a graph with the given exit. -/
theorem parent?_eq (hTree : tree.parents = parentsIn graph exit) (node : Nat) :
    tree.parent? node =
      if node < graph.size ∧ node ≠ exit then
        some (((graph.reverse.dominatorTree exit).immediate? node).getD exit)
      else none := by
  rw [parent?, hTree, parentsIn]
  by_cases hNode : node < graph.size
  · simp only [Array.getElem?_ofFn, hNode, dite_true, Option.getD_some, true_and, ne_eq, ite_not]
  · simp only [Array.getElem?_ofFn, hNode, dite_false, Option.getD_none, false_and, if_false]

theorem parent?_exit (hTree : tree.parents = parentsIn graph exit) :
    tree.parent? exit = none := by
  simp [parent?_eq hTree]

theorem parent?_of_reaches (hTree : tree.parents = parentsIn graph exit) (hExit : exit < graph.size)
    {node above : Nat} (hReach : graph.Reaches node exit)
    (hParent : tree.parent? node = some above) :
    graph.reverse.IsImmediateDominator exit above node := by
  have hRoot : exit < graph.reverse.size := hExit
  have hReverse := Digraph.Reaches.iff_reverse.mpr hReach
  rw [parent?_eq hTree] at hParent
  split at hParent
  · rename_i hNode
    have hSome : ((graph.reverse.dominatorTree exit).immediate? node) ≠ none := by
      rw [ne_eq, Digraph.immediate?_eq_none_iff hRoot]
      simp [hNode.2, hReverse]
    obtain ⟨found, hFound⟩ := Option.ne_none_iff_exists'.mp hSome
    rw [hFound, Option.getD_some] at hParent
    cases hParent
    exact (Digraph.immediate?_eq_some_iff hRoot hReverse).mp hFound
  · cases hParent

theorem parent?_of_not_reaches (hTree : tree.parents = parentsIn graph exit)
    (hExit : exit < graph.size) {node : Nat} (hNode : node < graph.size)
    (hReach : ¬ graph.Reaches node exit) : tree.parent? node = some exit := by
  have hNe : node ≠ exit := by
    rintro rfl
    exact hReach (.refl hNode)
  have hNone : (graph.reverse.dominatorTree exit).immediate? node = none :=
    Digraph.immediate?_of_not_reaches (mt Digraph.Reaches.iff_reverse.mp hReach)
  rw [parent?_eq hTree, if_pos ⟨hNode, hNe⟩, hNone, Option.getD_none]

open Classical in
/-- Nodes that cannot reach the exit rank just above it, the others as in the dominator tree. -/
noncomputable def rankIn (graph : Digraph Instruction) (exit node : Nat) : Nat :=
  if graph.Reaches node exit then graph.reverse.dominatorRank exit node else 1

theorem rankIn_of_reaches {node : Nat} (hReach : graph.Reaches node exit) :
    rankIn graph exit node = graph.reverse.dominatorRank exit node :=
  if_pos hReach

theorem rankIn_exit (hExit : exit < graph.size) : rankIn graph exit exit = 0 := by
  classical
  have hRoot : exit < graph.reverse.size := hExit
  rw [rankIn_of_reaches (.refl hExit), Digraph.dominatorRank, if_pos (.refl hRoot),
    Finset.card_eq_zero, Finset.filter_eq_empty_iff]
  intro x _ hStrict
  exact hStrict.1 (hStrict.2.eq_root hRoot)

theorem ranked_parent? (hTree : tree.parents = parentsIn graph exit) (hExit : exit < graph.size) :
    Ranked tree.parent? (rankIn graph exit) (tree.parents.size + 1) := by
  rw [hTree, size_parentsIn]
  refine ⟨fun {node above} hParent => ?_, fun node => ?_⟩
  · by_cases hReach : graph.Reaches node exit
    · have hImmediate := parent?_of_reaches hTree hExit hReach hParent
      have hReverse := Digraph.Reaches.iff_reverse.mpr hReach
      have hAbove := Digraph.Reaches.iff_reverse.mp (hImmediate.1.2.reaches hReverse)
      rw [rankIn_of_reaches hReach, rankIn_of_reaches hAbove]
      exact Digraph.dominatorRank_lt hReverse hImmediate.1
    · -- the parent is the exit, which ranks below everything that cannot reach it
      have hNode : node < graph.size := by
        by_contra hNot
        rw [parent?_eq hTree, if_neg (by simp [hNot])] at hParent
        cases hParent
      rw [parent?_of_not_reaches hTree hExit hNode hReach] at hParent
      cases hParent
      rw [rankIn_exit hExit, rankIn, if_neg hReach]
      omega
  · unfold rankIn
    split
    · have hLt : graph.reverse.dominatorRank exit node < graph.size :=
        Digraph.dominatorRank_lt_size (show exit < graph.reverse.size from hExit) node
      omega
    · omega

theorem parent?_lt (hTree : tree.parents = parentsIn graph exit) (hExit : exit < graph.size)
    {node above : Nat} (hParent : tree.parent? node = some above) :
    node < graph.size ∧ node ≠ exit ∧ above < graph.size := by
  have hNode : node < graph.size ∧ node ≠ exit := by
    by_contra hNot
    rw [parent?_eq hTree, if_neg hNot] at hParent
    cases hParent
  refine ⟨hNode.1, hNode.2, ?_⟩
  by_cases hReach : graph.Reaches node exit
  · obtain ⟨_, hPath⟩ := (parent?_of_reaches hTree hExit hReach hParent).1.2.reaches
      (Digraph.Reaches.iff_reverse.mpr hReach)
    exact hPath.target_lt
  · rw [parent?_of_not_reaches hTree hExit hNode.1 hReach] at hParent
    cases hParent
    exact hExit

/-! ## Chains -/

theorem ancestorsOf_eq_chain (hTree : tree.parents = parentsIn graph exit) {node : Nat}
    (hNode : node < graph.size) : tree.ancestorsOf node = tree.chain node := by
  rw [ancestorsOf, hTree, size_parentsIn, if_pos hNode]

/-- The chain of every node ends at the exit. -/
theorem getLast?_chain (hTree : tree.parents = parentsIn graph exit) (hExit : exit < graph.size)
    {node : Nat} (hNode : node < graph.size) : (tree.chain node).getLast? = some exit := by
  refine (ranked_parent? hTree hExit).getLast?_ancestors (P := fun x => x < graph.size) ?_ ?_ hNode
  · intro x hx hParent
    rw [parent?_eq hTree] at hParent
    by_contra hNe
    rw [if_pos ⟨hx, hNe⟩] at hParent
    cases hParent
  · intro x y _ hParent
    exact (parent?_lt hTree hExit hParent).2.2

theorem exit_mem_chain (hTree : tree.parents = parentsIn graph exit) (hExit : exit < graph.size)
    {node : Nat} (hNode : node < graph.size) : exit ∈ tree.chain node :=
  List.mem_of_getLast? (getLast?_chain hTree hExit hNode)

theorem postDominates_iff_mem_chain (hTree : tree.parents = parentsIn graph exit)
    {above node : Nat} (hNode : node < graph.size) :
    tree.postDominates above node = true ↔ above ∈ tree.chain node := by
  rw [postDominates, List.contains_iff_mem, ancestorsOf_eq_chain hTree hNode]

theorem lt_of_mem_chain (hTree : tree.parents = parentsIn graph exit) (hExit : exit < graph.size)
    {above node : Nat} (hNode : node < graph.size) (hMem : above ∈ tree.chain node) :
    above < graph.size := by
  have hAncestor := (ranked_parent? hTree hExit).mem_ancestors_iff.mp hMem
  rcases hAncestor.cases_tail with rfl | ⟨_, -, hLast⟩
  · exact hNode
  · exact (parent?_lt hTree hExit hLast).2.2

/-- Above a node that reaches the exit are the nodes on all its paths to the exit. -/
theorem postDominates_iff_of_reaches (hTree : tree.parents = parentsIn graph exit)
    (hExit : exit < graph.size) {above node : Nat} (hReach : graph.Reaches node exit) :
    tree.postDominates above node = true ↔
      ∀ nodes, graph.Path node exit nodes → above ∈ nodes := by
  have hRoot : exit < graph.reverse.size := hExit
  have hReverse := Digraph.Reaches.iff_reverse.mpr hReach
  obtain ⟨_, hPath⟩ := id hReach
  rw [postDominates_iff_mem_chain hTree hPath.source_lt, chain,
    Digraph.mem_ancestors_iff_dominates (ranked_parent? hTree hExit) hRoot ?_ ?_ hReverse]
  · constructor
    · intro hDom nodes hPath
      exact List.mem_reverse.mp (hDom _ hPath.reverse)
    · intro hAll nodes hPath
      exact List.mem_reverse.mp (hAll _ hPath.of_reverse)
  · rintro x ⟨_, hx⟩ hParent
    rw [parent?_eq hTree] at hParent
    by_contra hNe
    rw [if_pos ⟨hx.target_lt, hNe⟩] at hParent
    cases hParent
  · intro x y hx hParent
    exact parent?_of_reaches hTree hExit (Digraph.Reaches.iff_reverse.mp hx) hParent

/-- Above a node that cannot reach the exit is the exit alone. -/
theorem postDominates_iff_of_not_reaches (hTree : tree.parents = parentsIn graph exit)
    (hExit : exit < graph.size) {above node : Nat} (hNode : node < graph.size)
    (hReach : ¬ graph.Reaches node exit) :
    tree.postDominates above node = true ↔ above = node ∨ above = exit := by
  have hRanked := ranked_parent? hTree hExit
  rw [postDominates_iff_mem_chain hTree hNode, chain,
    hRanked.ancestors_of_some (parent?_of_not_reaches hTree hExit hNode hReach),
    hRanked.ancestors_of_none (parent?_exit hTree), List.mem_cons, List.mem_singleton]

/-! ## The graph of the tree -/

theorem mem_parentEdges {parents : Array (Option Nat)} {node above : Nat} :
    (node, above) ∈ parentEdges parents ↔ parents[node]?.getD none = some above := by
  simp only [parentEdges, List.mem_filterMap, List.mem_range, Option.map_eq_some_iff,
    Prod.mk.injEq]
  constructor
  · rintro ⟨x, -, y, hy, rfl, rfl⟩
    exact hy
  · intro hParent
    refine ⟨node, ?_, above, hParent, rfl, rfl⟩
    by_contra hNot
    rw [Array.getElem?_eq_none (by omega), Option.getD_none] at hParent
    cases hParent

theorem nodup_parentEdges (parents : Array (Option Nat)) : (parentEdges parents).Nodup := by
  refine List.Nodup.filterMap ?_ List.nodup_range
  intro a b pair ha hb
  simp only [Option.mem_def, Option.map_eq_some_iff] at ha hb
  obtain ⟨_, -, rfl⟩ := ha
  obtain ⟨_, -, hEq⟩ := hb
  exact (Prod.mk.inj hEq).1.symm

/-- Of the parent edges, the one that leaves a node leads to its parent. -/
theorem filter_parentEdges (parents : Array (Option Nat)) (node : Nat) :
    ((parentEdges parents).map fun pair => (⟨pair.1, pair.2, Edge.plainWeight⟩ : Edge)).filter
        (·.source == node) =
      ((parents[node]?.getD none).map fun above => ⟨node, above, Edge.plainWeight⟩).toList := by
  have hMem : ∀ e : Edge, e ∈ ((parentEdges parents).map fun pair =>
      (⟨pair.1, pair.2, Edge.plainWeight⟩ : Edge)).filter (·.source == node) ↔
        ∃ above, parents[node]?.getD none = some above ∧ e = ⟨node, above, Edge.plainWeight⟩ := by
    intro e
    simp only [List.mem_filter, List.mem_map, Prod.exists, mem_parentEdges, beq_iff_eq]
    constructor
    · rintro ⟨⟨source, above, hParent, rfl⟩, rfl⟩
      exact ⟨above, hParent, rfl⟩
    · rintro ⟨above, hParent, rfl⟩
      exact ⟨⟨node, above, hParent, rfl⟩, rfl⟩
  cases hParent : parents[node]?.getD none with
  | none =>
    rw [Option.map_none, Option.toList_none, List.eq_nil_iff_forall_not_mem]
    intro e he
    obtain ⟨above, hAbove, -⟩ := (hMem e).mp he
    rw [hParent] at hAbove
    cases hAbove
  | some above =>
    have hNodup : ((parentEdges parents).map fun pair =>
        (⟨pair.1, pair.2, Edge.plainWeight⟩ : Edge)).Nodup := by
      refine List.Nodup.map ?_ (nodup_parentEdges parents)
      rintro ⟨a, b⟩ ⟨c, d⟩ hEq
      simpa using hEq
    rw [Option.map_some, Option.toList_some, ← List.perm_singleton,
      List.perm_ext_iff_of_nodup (hNodup.filter _) (List.nodup_singleton _)]
    intro e
    rw [hMem, hParent, List.mem_singleton]
    simp

/-- The tree of a graph with a method exit exists. Its graph has the nodes of the graph and one edge
for each parent. -/
theorem ofGraph_ok (hMethodExit : (graph.node? exit).any Instruction.isMethodExit = true) :
    exit < graph.size ∧ ∃ tree, ofGraph graph exit = .ok tree ∧
      tree.parents = parentsIn graph exit ∧ tree.root = exit ∧ tree.graph.nodes = graph.nodes ∧
      ∀ node, tree.graph.edgesFrom node =
        ((tree.parent? node).map fun above => ⟨node, above, Edge.plainWeight⟩).toList := by
  have hExit : exit < graph.size := by
    by_contra hNot
    rw [Digraph.node?, Array.getElem?_eq_none (by simpa [Digraph.size] using hNot)] at hMethodExit
    cases hMethodExit
  have hPair : ∀ pair ∈ parentEdges (parentsIn graph exit),
      pair.1 < graph.size ∧ pair.2 < graph.size := by
    rintro ⟨node, above⟩ hMem
    have hParent : (⟨graph, exit, parentsIn graph exit⟩ : PostDominatorTree).parent? node =
        some above := mem_parentEdges.mp hMem
    have hLt := parent?_lt rfl hExit hParent
    exact ⟨hLt.1, hLt.2.2⟩
  -- no node is the start of two parent edges, so all of them can be inserted
  obtain ⟨draft, hFold, hNodes, hEdges⟩ := Draft.foldlM_insert Prod.fst Prod.snd (fun _ => none)
    (parentEdges (parentsIn graph exit)) graph.nodeDraft hPair
    (by simpa using nodup_parentEdges _) (by simp [Digraph.nodeDraft])
  simp only [Draft.addEdgeLabelled_none] at hFold
  refine ⟨hExit, ⟨draft.freeze, exit, parentsIn graph exit⟩, ?_, rfl, rfl, hNodes, ?_⟩
  · simp only [ofGraph, hMethodExit]
    rw [hFold]
    rfl
  · intro node
    rw [Digraph.edgesFrom_freeze, hEdges]
    exact filter_parentEdges _ node

/-- **Post-dominator trees.** For every graph and every node of it that holds a method exit, the
tree exists and numbers the nodes as the graph does. The exit has no parent and every other node
exactly one, and every chain of parents ends at the exit. The tree answers what all paths to the
exit pass through, where there are such paths, and only the exit is above a node from which there
are none. -/
theorem postDominatorTree_correct (graph : Digraph Instruction) (exit : Nat)
    (hMethodExit : (graph.node? exit).any Instruction.isMethodExit = true) :
    ∃ tree, ofGraph graph exit = .ok tree ∧
      tree.graph.nodes = graph.nodes ∧ tree.root = exit ∧
      (tree.parent? exit = none ∧ tree.graph.edgesFrom exit = []) ∧
      (∀ node, node < graph.size → node ≠ exit → ∃ above, tree.parent? node = some above ∧
        tree.graph.edgesFrom node = [⟨node, above, Edge.plainWeight⟩]) ∧
      (∀ node, node < graph.size → (tree.ancestorsOf node).getLast? = some exit ∧
        ∀ above, above ∈ tree.ancestorsOf node ↔ IsAncestor tree.parent? node above) ∧
      (∀ above node, graph.Reaches node exit → (tree.postDominates above node = true ↔
        ∀ nodes, graph.Path node exit nodes → above ∈ nodes)) ∧
      (∀ above node, node < graph.size → ¬ graph.Reaches node exit →
        (tree.postDominates above node = true ↔ above = node ∨ above = exit)) := by
  obtain ⟨hExit, tree, hOk, hTree, hRoot, hNodes, hFrom⟩ := ofGraph_ok hMethodExit
  have hNone := parent?_exit hTree
  refine ⟨tree, hOk, hNodes, hRoot, ⟨hNone, ?_⟩, ?_, ?_, ?_, ?_⟩
  · rw [hFrom, hNone]
    rfl
  · intro node hNode hNe
    have hParent := parent?_eq hTree node
    rw [if_pos ⟨hNode, hNe⟩] at hParent
    refine ⟨_, hParent, ?_⟩
    rw [hFrom, hParent]
    rfl
  · intro node hNode
    rw [ancestorsOf_eq_chain hTree hNode]
    exact ⟨getLast?_chain hTree hExit hNode,
      fun above => (ranked_parent? hTree hExit).mem_ancestors_iff⟩
  · exact fun above node hReach => postDominates_iff_of_reaches hTree hExit hReach
  · exact fun above node hNode hReach =>
      postDominates_iff_of_not_reaches hTree hExit hNode hReach

/-- A method in which node 1 branches to the endless loop of nodes 2 and 3 or to node 4, which
leaves the method. Node 5 is dead code before the exit. -/
def endlessBranch : Digraph Instruction :=
  let method : MethodId := ⟨"Loop", "run", "()V"⟩
  Draft.freeze
    { nodes := #[.methodEntry method, ⟨method, 0, "0", .branch .equal 3, none⟩,
        ⟨method, 1, "1", .nop, none⟩, ⟨method, 2, "2", .goto 1, none⟩,
        ⟨method, 3, "3", .leave none, none⟩, ⟨method, 4, "4", .leave none, none⟩,
        .methodExit method]
      edges := #[⟨0, 1, 1⟩, ⟨1, 2, 1⟩, ⟨1, 4, 1⟩, ⟨2, 3, 1⟩, ⟨3, 2, 1⟩, ⟨4, 6, 1⟩, ⟨5, 6, 1⟩]
      edge_lt := by decide }

theorem postDominatorTree_correct_endlessBranch :
    (endlessBranch.node? 6).any Instruction.isMethodExit = true ∧
      ∃ tree, ofGraph endlessBranch 6 = .ok tree ∧ tree.parent? 6 = none ∧
        (tree.parent? 1 = some 4 ∧ ∀ nodes, endlessBranch.Path 0 6 nodes → 4 ∈ nodes) ∧
        ¬ endlessBranch.Reaches 2 6 ∧
        ∀ above, tree.postDominates above 2 = true ↔ above = 2 ∨ above = 6 := by
  have hMethodExit : (endlessBranch.node? 6).any Instruction.isMethodExit = true := by decide
  obtain ⟨tree, hOk, -, -, hRoot, -, -, hPaths, hEndless⟩ :=
    postDominatorTree_correct endlessBranch 6 hMethodExit
  obtain ⟨hExit, _, hSame, hTree, -⟩ := ofGraph_ok hMethodExit
  obtain rfl := Except.ok.inj (hOk.symm.trans hSame)
  have hParents : tree.parents = #[some 1, some 4, some 6, some 6, some 6, some 6, none] :=
    hTree.trans (Array.ext' (by decide +kernel))
  have hParent : tree.parent? = (#[some 1, some 4, some 6, some 6, some 6, some 6, none][·]?.getD
      none) := by
    funext node
    rw [parent?, hParents]
  have hReach : endlessBranch.Reaches 0 6 :=
    Digraph.mem_breadthFirst_iff.mp (by decide)
  have hStuck : ¬ endlessBranch.Reaches 2 6 :=
    fun h => absurd (Digraph.mem_breadthFirst_iff.mpr h) (by decide)
  refine ⟨hMethodExit, tree, hOk, hRoot.1, ⟨?_, (hPaths 4 0 hReach).mp ?_⟩, hStuck,
    fun above => hEndless above 2 (by decide) hStuck⟩
  · rw [hParent]
    rfl
  · simp only [postDominates, ancestorsOf, chain, hParent, hParents]
    decide

end BytecodeFlow.PostDominatorTree
