import BytecodeFlow.Proofs.ControlDependence
import BytecodeFlow.Proofs.Reachability

/-!
# Paths of control dependences

The control dependences of a method are rooted at its entry. That every node has a dependence is not
enough for this, since dependences run in cycles around the heads of loops. What is used instead is
that a node which does not post-dominate the start of a path to it depends on some other node of
that path (`exists_dependsOn_of_path`). The augmented graph leads from the entry straight to the
exit, so that no node but the two post-dominates the entry, and the first node of a path that was
not known to be below the entry depends on one that was (`Derived.reaches_of_reaches`).
-/

namespace BytecodeFlow

namespace PostDominatorTree

variable {graph : Digraph Instruction} {exit : Nat} {tree : PostDominatorTree}

theorem postDominates_self (hTree : tree.parents = parentsIn graph exit) (hExit : exit < graph.size)
    {node : Nat} (hNode : node < graph.size) : tree.postDominates node node = true :=
  (postDominates_iff_mem_chain hTree hNode).mpr
    ((ranked_parent? hTree hExit).self_mem_ancestors node)

theorem exit_postDominates (hTree : tree.parents = parentsIn graph exit) (hExit : exit < graph.size)
    {node : Nat} (hNode : node < graph.size) : tree.postDominates exit node = true :=
  (postDominates_iff_mem_chain hTree hNode).mpr (exit_mem_chain hTree hExit hNode)

/-- Where an edge leads to the exit, nothing lies in between. -/
theorem eq_or_eq_exit_of_adj (hTree : tree.parents = parentsIn graph exit)
    (hExit : exit < graph.size) {node above : Nat} (hAdj : graph.Adj node exit)
    (h : tree.postDominates above node = true) : above = node ∨ above = exit := by
  have hPath : graph.Path node exit [node, exit] := .cons hAdj (.single hExit)
  have hMem := (postDominates_iff_of_reaches hTree hExit ⟨_, hPath⟩).mp h _ hPath
  simpa using hMem

end PostDominatorTree

/-- The augmented graph and the post-dominator tree of a flow graph exist, with the same nodes. -/
theorem FlowGraph.WellShaped.postDominators_ok {flow : FlowGraph} (hShape : flow.WellShaped) :
    ∃ graph tree, flow.augmented = .ok graph ∧ flow.postDominators = .ok tree ∧
      tree.parents = PostDominatorTree.parentsIn graph flow.exit ∧ flow.exit < graph.size ∧
      graph.nodes = flow.graph.nodes ∧ tree.graph.nodes = flow.graph.nodes ∧
      ∀ s t, graph.Adj s t ↔ flow.graph.Adj s t ∨ (s = flow.entry ∧ t = flow.exit) := by
  obtain ⟨graph, hGraph, hNodes, hAdj⟩ := hShape.augmented_ok
  have hMethodExit : (graph.node? flow.exit).any Instruction.isMethodExit = true := by
    have hNode : graph.node? flow.exit = flow.graph.node? flow.exit := by
      rw [Digraph.node?, Digraph.node?, hNodes]
    rw [hNode, hShape.exit_node]
    rfl
  obtain ⟨hExit, tree, hTree, hParents, -, hSame, -⟩ := PostDominatorTree.ofGraph_ok hMethodExit
  refine ⟨graph, tree, hGraph, ?_, hParents, hExit, hNodes, hSame.trans hNodes, hAdj⟩
  rw [FlowGraph.postDominators, hGraph]
  exact hTree

namespace ControlDependence

/-- The graphs that dominance and dependence are read off, as a flow graph gives rise to them. -/
structure Derived (flow : FlowGraph) (graph : Digraph Instruction) (tree : PostDominatorTree)
    (dependence : ControlDependence) : Prop where
  augmented_eq : flow.augmented = .ok graph
  postDominators_eq : flow.postDominators = .ok tree
  controlDependence_eq : flow.controlDependence = .ok dependence
  adj_iff : ∀ s t, graph.Adj s t ↔ flow.graph.Adj s t ∨ (s = flow.entry ∧ t = flow.exit)
  exit_lt : flow.exit < graph.size
  parents_eq : tree.parents = PostDominatorTree.parentsIn graph flow.exit
  entry_eq : dependence.entry = flow.entry
  size_eq : dependence.graph.size = graph.size
  dependence_iff : ∀ a b, dependence.graph.Adj a b ↔ DependsOn graph tree a b ∨
    (a = flow.entry ∧ b < graph.size ∧ b ≠ flow.entry ∧
      ∀ source, DependsOn graph tree source b → source = b)

theorem Derived.ofGraph_eq {flow : FlowGraph} {graph : Digraph Instruction}
    {tree : PostDominatorTree} {dependence : ControlDependence}
    (h : Derived flow graph tree dependence) : ofGraph graph tree flow.entry = .ok dependence := by
  have hMade := h.controlDependence_eq
  rw [FlowGraph.controlDependence, h.augmented_eq, h.postDominators_eq] at hMade
  exact hMade

theorem exists_derived {flow : FlowGraph} (hShape : flow.WellShaped) :
    ∃ graph tree dependence, Derived flow graph tree dependence := by
  obtain ⟨graph, tree, hGraph, hTree, hParents, hExit, -, -, hAdj⟩ := hShape.postDominators_ok
  have hEntry : flow.entry < graph.size := Nat.lt_of_le_of_lt (Nat.zero_le _) hExit
  obtain ⟨dependence, hOk, hRoot, hSame, hEdges, -⟩ := ofGraph_ok hParents hExit hEntry
  refine ⟨graph, tree, dependence, hGraph, hTree, ?_, hAdj, hExit, hParents, hRoot,
    congrArg Array.size hSame, hEdges⟩
  rw [FlowGraph.controlDependence, hGraph, hTree]
  exact hOk

section Paths

variable {graph : Digraph Instruction} {exit : Nat} {tree : PostDominatorTree}

/-- Along a path to a node that does not post-dominate its start there is a last node that it does
not post-dominate, and the node depends on this one. -/
theorem exists_dependsOn_of_path (hTree : tree.parents = PostDominatorTree.parentsIn graph exit)
    (hExit : exit < graph.size) {start node : Nat} {nodes : List Nat}
    (hPath : graph.Path start node nodes) (hStart : tree.postDominates node start = false) :
    ∃ a ∈ nodes, a ≠ node ∧ DependsOn graph tree a node := by
  have hSelf := PostDominatorTree.postDominates_self hTree hExit hPath.target_lt
  obtain ⟨a, behind, hFree, hRest, hSub, hBehind⟩ :=
    hPath.split_last (P := fun x => tree.postDominates node x = false)
      ⟨start, hPath.source_mem, hStart⟩
  have hNe : a ≠ node := by
    rintro rfl
    rw [hSelf] at hFree
    cases hFree
  refine ⟨a, hSub a List.mem_cons_self, hNe, ?_⟩
  cases hRest with
  | single _ => exact absurd rfl hNe
  | @cons _ next _ _ hAdj hNext =>
    have hAbove : tree.postDominates node next = true := by
      simpa using hBehind next hNext.source_mem
    refine ⟨next, hAdj, hAbove, fun hStrict => ?_⟩
    rw [hFree] at hStrict
    cases hStrict.2

/-- The exit post-dominates everything and no edge leaves it, so nothing decides about it. -/
theorem not_dependsOn_exit (hTree : tree.parents = PostDominatorTree.parentsIn graph exit)
    (hExit : exit < graph.size) (hLast : ∀ t, ¬ graph.Adj exit t) (a : Nat) :
    ¬ DependsOn graph tree a exit := by
  rintro ⟨s, hAdj, -, hNotStrict⟩
  have hNe : exit ≠ a := by
    rintro rfl
    exact hLast s hAdj
  exact hNotStrict ⟨hNe, PostDominatorTree.exit_postDominates hTree hExit hAdj.source_lt⟩

end Paths

namespace Derived

variable {flow : FlowGraph} {graph : Digraph Instruction} {tree : PostDominatorTree}
  {dependence : ControlDependence}

theorem not_adj_exit (h : Derived flow graph tree dependence) (hShape : flow.WellShaped)
    (t : Nat) : ¬ graph.Adj flow.exit t := by
  intro hAdj
  have hPos := hShape.exit_pos
  rcases (h.adj_iff flow.exit t).mp hAdj with hAdj | ⟨hEntry, -⟩
  · exact Nat.lt_irrefl _ (hShape.source_lt hAdj)
  · have hZero : flow.exit = 0 := hEntry
    omega

/-- A node of a path from the entry hangs below some other node of that path, or right below the
entry. -/
theorem exists_adj_of_path (h : Derived flow graph tree dependence) (hShape : flow.WellShaped)
    {node : Nat} {nodes : List Nat} (hPath : graph.Path flow.entry node nodes)
    (hNe : node ≠ flow.entry) :
    ∃ a ∈ nodes, a ≠ node ∧ dependence.graph.Adj a node := by
  by_cases hLast : node = flow.exit
  · subst hLast
    refine ⟨flow.entry, hPath.source_mem, hNe.symm, ?_⟩
    refine (h.dependence_iff _ _).mpr (Or.inr ⟨rfl, h.exit_lt, hNe, fun source hDepends => ?_⟩)
    exact absurd hDepends
      (not_dependsOn_exit h.parents_eq h.exit_lt (h.not_adj_exit hShape) source)
  · have hAside : graph.Adj flow.entry flow.exit := (h.adj_iff _ _).mpr (Or.inr ⟨rfl, rfl⟩)
    have hStart : tree.postDominates node flow.entry = false := by
      rw [Bool.eq_false_iff]
      intro hAbove
      rcases PostDominatorTree.eq_or_eq_exit_of_adj h.parents_eq h.exit_lt hAside hAbove with
        hEq | hEq
      · exact hNe hEq
      · exact hLast hEq
    obtain ⟨a, hMem, hOther, hDepends⟩ :=
      exists_dependsOn_of_path h.parents_eq h.exit_lt hPath hStart
    exact ⟨a, hMem, hOther, (h.dependence_iff _ _).mpr (Or.inl hDepends)⟩

/-- The dependences lead from the entry to every node that the entry reaches. -/
theorem reaches_of_reaches (h : Derived flow graph tree dependence) (hShape : flow.WellShaped)
    {node : Nat} (hReach : graph.Reaches flow.entry node) :
    dependence.graph.Reaches flow.entry node := by
  obtain ⟨nodes, hPath⟩ := hReach
  by_contra hStray
  -- up to the first node of the path that is not below the entry all nodes are
  obtain ⟨first, before, hFirst, hPrefix, hBefore⟩ :=
    hPath.split_first (P := fun x => ¬ dependence.graph.Reaches flow.entry x)
      ⟨node, hPath.target_mem, hStray⟩
  have hNe : first ≠ flow.entry := by
    rintro rfl
    refine hFirst (.refl ?_)
    rw [h.size_eq]
    exact hPath.source_lt
  obtain ⟨a, hMem, hOther, hAdj⟩ := h.exists_adj_of_path hShape hPrefix hNe
  have hKnown : a ∈ before := by
    rcases List.mem_append.mp hMem with hMem | hMem
    · exact hMem
    · exact absurd (List.mem_singleton.mp hMem) hOther
  exact hFirst ((not_not.mp (hBefore a hKnown)).tail hAdj)

end Derived

/-- **Live code hangs off the method entry.** The control dependences of a method can be computed,
and they lead from the method entry to every node that control can reach from there, whether or not
control can get from it to the method exit. -/
theorem controlDependence_reaches_live {method : MethodId} {instructions : List Instruction}
    {handlers : List HandlerRange} {settings : Settings} {flow : FlowGraph}
    (hBuild : FlowGraph.build method instructions handlers settings = .ok flow) :
    ∃ dependence, flow.controlDependence = .ok dependence ∧ dependence.entry = flow.entry ∧
      ∀ node, flow.graph.Reaches flow.entry node →
        dependence.graph.Reaches flow.entry node := by
  have hShape := FlowGraph.build_wellShaped hBuild
  obtain ⟨graph, tree, dependence, h⟩ := exists_derived hShape
  refine ⟨dependence, h.controlDependence_eq, h.entry_eq, fun node hReach => ?_⟩
  refine h.reaches_of_reaches hShape ?_
  rw [Digraph.Reaches.iff_reflTransGen] at hReach ⊢
  refine ⟨Nat.lt_of_le_of_lt (Nat.zero_le _) h.exit_lt, ?_⟩
  exact Relation.ReflTransGen.mono (fun s t hAdj => (h.adj_iff s t).mpr (Or.inl hAdj)) _ _ hReach.2

/-- A branch into an endless loop of two instructions, past which the method returns. -/
def trap : List Instruction :=
  let method : MethodId := ⟨"Trap", "run", "(I)V"⟩
  [⟨method, 0, "0", .load .int 0, none⟩, ⟨method, 1, "1", .branch .equal 4, none⟩,
    ⟨method, 2, "2", .increment 0 1, none⟩, ⟨method, 3, "3", .goto 2, none⟩,
    ⟨method, 4, "4", .leave none, none⟩]

theorem controlDependence_reaches_live_trap :
    ∃ flow dependence, FlowGraph.build ⟨"Trap", "run", "(I)V"⟩ trap [] {} = .ok flow ∧
      flow.controlDependence = .ok dependence ∧ ¬ flow.graph.Reaches 4 flow.exit ∧
      dependence.graph.Reaches flow.entry 4 ∧ dependence.graph.Reaches flow.entry flow.exit := by
  have hRun : ((FlowGraph.build ⟨"Trap", "run", "(I)V"⟩ trap [] {}).map fun flow =>
      (flow.exit, flow.graph.breadthFirst 0, flow.graph.breadthFirst 4)).toOption =
      some (6, [0, 1, 2, 3, 5, 4, 6], [4, 3]) := by
    decide +kernel
  cases hBuild : FlowGraph.build ⟨"Trap", "run", "(I)V"⟩ trap [] {} with
  | error _ => simp [hBuild, Except.map, Except.toOption] at hRun
  | ok flow =>
    simp only [hBuild, Except.map, Except.toOption, Option.some.injEq, Prod.mk.injEq] at hRun
    obtain ⟨hExit, hLive, hLoop⟩ := hRun
    have hReach : ∀ node ∈ [0, 1, 2, 3, 5, 4, 6], flow.graph.Reaches flow.entry node := by
      intro node hMem
      rw [← hLive] at hMem
      exact Digraph.mem_breadthFirst_iff.mp hMem
    obtain ⟨dependence, hOk, -, hBelow⟩ := controlDependence_reaches_live hBuild
    refine ⟨flow, dependence, rfl, hOk, fun hEscape => ?_, hBelow 4 (hReach 4 (by decide)), ?_⟩
    · rw [← Digraph.mem_breadthFirst_iff, hLoop, hExit] at hEscape
      exact absurd hEscape (by decide)
    · rw [hExit]
      exact hBelow 6 (hReach 6 (by decide))

end ControlDependence

end BytecodeFlow
