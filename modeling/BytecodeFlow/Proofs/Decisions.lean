import BytecodeFlow.Proofs.DependencePaths

/-!
# Where control is decided

A node that others depend on is meant to decide about them: one of its edges leads to them, and
another one may bypass them. This is so for every node that can reach the exit
(`DependsOn.exists_bypass`), because what post-dominates everything behind such a node
post-dominates the node as well (`PostDominatorTree.postDominates_of_successors`).

A node that cannot reach the exit has no post-dominator but the exit. What comes right behind it
does not count as one, even if nothing else can come next. So the nodes of an endless loop depend on
their predecessors, whether there is anything to decide or not (`dependsOn_iff_adj`).
-/

namespace BytecodeFlow

namespace PostDominatorTree

variable {graph : Digraph Instruction} {exit : Nat} {tree : PostDominatorTree}

/-- What post-dominates the successors of a node on all its ways to the exit post-dominates the
node. -/
theorem postDominates_of_successors (hTree : tree.parents = parentsIn graph exit)
    (hExit : exit < graph.size) {node above : Nat} (hReach : graph.Reaches node exit)
    (hNe : node ≠ exit) (hAbove : ∀ next, graph.Adj node next → graph.Reaches next exit →
      tree.postDominates above next = true) : tree.postDominates above node = true := by
  rw [postDominates_iff_of_reaches hTree hExit hReach]
  intro nodes hPath
  cases hPath with
  | single _ => exact absurd rfl hNe
  | @cons _ next _ rest hAdj hRest =>
    have hNext := hAbove next hAdj ⟨rest, hRest⟩
    rw [postDominates_iff_of_reaches hTree hExit ⟨rest, hRest⟩] at hNext
    exact List.mem_cons_of_mem _ (hNext rest hRest)

/-- A way to the exit leaves every node before the exit for good. -/
theorem exists_successor_not_postDominated (hTree : tree.parents = parentsIn graph exit)
    (hExit : exit < graph.size) {node : Nat} (hReach : graph.Reaches node exit)
    (hNe : node ≠ exit) : ∃ next, graph.Adj node next ∧ graph.Reaches next exit ∧
      tree.postDominates node next = false := by
  obtain ⟨nodes, hPath⟩ := hReach
  obtain ⟨last, behind, hLast, hRest, -, hFree⟩ :=
    hPath.split_last (P := fun x => x = node) ⟨node, hPath.source_mem, rfl⟩
  subst hLast
  cases hRest with
  | single _ => exact absurd rfl hNe
  | @cons _ next _ _ hAdj hNext =>
    refine ⟨next, hAdj, ⟨behind, hNext⟩, ?_⟩
    rw [Bool.eq_false_iff]
    intro hAbove
    rw [postDominates_iff_of_reaches hTree hExit ⟨behind, hNext⟩] at hAbove
    exact hFree last (hAbove behind hNext) rfl

end PostDominatorTree

namespace ControlDependence

section Relation

variable {graph : Digraph Instruction} {exit : Nat} {tree : PostDominatorTree} {a b : Nat}

/-- A node that reaches the exit has an edge that may bypass what depends on it. -/
theorem DependsOn.exists_bypass (hTree : tree.parents = PostDominatorTree.parentsIn graph exit)
    (hExit : exit < graph.size) (h : DependsOn graph tree a b) (hReach : graph.Reaches a exit)
    (hNe : a ≠ exit) : ∃ next, graph.Adj a next ∧ graph.Reaches next exit ∧
      tree.postDominates b next = false := by
  obtain ⟨-, -, -, hNotStrict⟩ := h
  by_cases hSelf : b = a
  · subst hSelf
    exact PostDominatorTree.exists_successor_not_postDominated hTree hExit hReach hNe
  · by_contra hNone
    apply hNotStrict
    refine ⟨hSelf, PostDominatorTree.postDominates_of_successors hTree hExit hReach hNe ?_⟩
    intro next hAdj hNext
    by_contra hAbove
    exact hNone ⟨next, hAdj, hNext, Bool.eq_false_iff.mpr hAbove⟩

/-- On a node that cannot reach the exit exactly its successors depend. -/
theorem dependsOn_iff_adj (hTree : tree.parents = PostDominatorTree.parentsIn graph exit)
    (hExit : exit < graph.size) (hStuck : ¬ graph.Reaches a exit) :
    DependsOn graph tree a b ↔ graph.Adj a b := by
  have hNext : ∀ {next}, graph.Adj a next → ¬ graph.Reaches next exit := by
    rintro next hAdj ⟨nodes, hPath⟩
    exact hStuck ⟨_, .cons hAdj hPath⟩
  have hNe : exit ≠ a := by
    intro hEq
    exact hStuck (hEq ▸ .refl hExit)
  constructor
  · rintro ⟨next, hAdj, hAbove, hNotStrict⟩
    rw [PostDominatorTree.postDominates_iff_of_not_reaches hTree hExit hAdj.target_lt
      (hNext hAdj)] at hAbove
    rcases hAbove with rfl | rfl
    · exact hAdj
    · exact absurd ⟨hNe, PostDominatorTree.exit_postDominates hTree hExit hAdj.source_lt⟩ hNotStrict
  · intro hAdj
    refine ⟨b, hAdj, PostDominatorTree.postDominates_self hTree hExit hAdj.target_lt, ?_⟩
    rintro ⟨hOther, hAbove⟩
    rw [PostDominatorTree.postDominates_iff_of_not_reaches hTree hExit hAdj.source_lt
      hStuck] at hAbove
    rcases hAbove with hEq | rfl
    · exact hOther hEq
    · exact hNext hAdj (.refl hExit)

end Relation

/-- Except from the entry, the dependences are the pairs of the relation. -/
theorem Derived.adj_iff_dependsOn {flow : FlowGraph} {graph : Digraph Instruction}
    {tree : PostDominatorTree} {dependence : ControlDependence}
    (h : Derived flow graph tree dependence) {a b : Nat} (hEntry : a ≠ flow.entry) :
    dependence.graph.Adj a b ↔ DependsOn graph tree a b := by
  rw [h.dependence_iff, or_iff_left]
  rintro ⟨hEq, -⟩
  exact hEntry hEq

/-- **Where control can still leave the method, only decisions control.** A node other than the
entry that reaches the exit has two different successors as soon as some node depends on it. One of
them is post-dominated by that node, and a path from the other one to the exit bypasses it. On a
node that cannot reach the exit all its successors depend, and nothing else. -/
theorem controlDependence_source_decides {method : MethodId} {instructions : List Instruction}
    {handlers : List HandlerRange} {settings : Settings} {flow : FlowGraph}
    (hBuild : FlowGraph.build method instructions handlers settings = .ok flow) :
    ∃ graph tree dependence, flow.augmented = .ok graph ∧ flow.postDominators = .ok tree ∧
      flow.controlDependence = .ok dependence ∧
      ∀ a b, a ≠ flow.entry →
        (graph.Reaches a flow.exit → dependence.graph.Adj a b →
          ∃ s t nodes, s ≠ t ∧ graph.Adj a s ∧ graph.Adj a t ∧ tree.postDominates b s = true ∧
            graph.Path t flow.exit nodes ∧ b ∉ nodes) ∧
        (¬ graph.Reaches a flow.exit → (dependence.graph.Adj a b ↔ graph.Adj a b)) := by
  have hShape := FlowGraph.build_wellShaped hBuild
  obtain ⟨graph, tree, dependence, h⟩ := exists_derived hShape
  refine ⟨graph, tree, dependence, h.augmented_eq, h.postDominators_eq, h.controlDependence_eq,
    fun a b hEntry => ⟨fun hReach hAdj => ?_, fun hStuck => ?_⟩⟩
  · have hDepends := (h.adj_iff_dependsOn hEntry).mp hAdj
    obtain ⟨s, hToward, hAbove, -⟩ := id hDepends
    have hNe : a ≠ flow.exit := by
      rintro rfl
      exact h.not_adj_exit hShape s hToward
    obtain ⟨t, hAway, hLeaves, hNotAbove⟩ :=
      hDepends.exists_bypass h.parents_eq h.exit_lt hReach hNe
    have hBypass : ¬ ∀ nodes, graph.Path t flow.exit nodes → b ∈ nodes := by
      rw [← PostDominatorTree.postDominates_iff_of_reaches h.parents_eq h.exit_lt hLeaves,
        Bool.not_eq_true]
      exact hNotAbove
    push Not at hBypass
    obtain ⟨nodes, hPath, hFree⟩ := hBypass
    refine ⟨s, t, nodes, ?_, hToward, hAway, hAbove, hPath, hFree⟩
    rintro rfl
    rw [hNotAbove] at hAbove
    cases hAbove
  · rw [h.adj_iff_dependsOn hEntry]
    exact dependsOn_iff_adj h.parents_eq h.exit_lt hStuck

/-- The branch decides whether the endless loop is entered, and the loop itself decides nothing. -/
theorem controlDependence_source_decides_trap :
    ∃ flow graph tree dependence,
      FlowGraph.build ⟨"Trap", "run", "(I)V"⟩ trap [] {} = .ok flow ∧
      flow.augmented = .ok graph ∧ flow.postDominators = .ok tree ∧
      flow.controlDependence = .ok dependence ∧
      (graph.Reaches 2 flow.exit ∧ dependence.graph.Adj 2 3 ∧
        ∃ s t nodes, s ≠ t ∧ graph.Adj 2 s ∧ graph.Adj 2 t ∧ tree.postDominates 3 s = true ∧
          graph.Path t flow.exit nodes ∧ 3 ∉ nodes) ∧
      ¬ graph.Reaches 4 flow.exit ∧ dependence.graph.Adj 4 3 := by
  have hRun : ((FlowGraph.build ⟨"Trap", "run", "(I)V"⟩ trap [] {}).bind fun flow =>
      flow.augmented.bind fun graph => flow.controlDependence.map fun dependence =>
        (flow.exit, graph.breadthFirst 2, graph.breadthFirst 4, graph.successors 4,
          dependence.graph.successors 2)).toOption =
      some (6, [2, 3, 5, 4, 6], [4, 3], [3], [3]) := by
    decide +kernel
  cases hBuild : FlowGraph.build ⟨"Trap", "run", "(I)V"⟩ trap [] {} with
  | error _ => simp [hBuild, Except.bind, Except.toOption] at hRun
  | ok flow =>
    obtain ⟨graph, tree, dependence, hGraph, hTree, hOk, hDecides⟩ :=
      controlDependence_source_decides hBuild
    simp only [hBuild, hGraph, hOk, Except.bind, Except.map, Except.toOption, Option.some.injEq,
      Prod.mk.injEq] at hRun
    obtain ⟨hExit, hAhead, hLoop, hAfter, hBelow⟩ := hRun
    have hReach : graph.Reaches 2 flow.exit := by
      rw [← Digraph.mem_breadthFirst_iff, hAhead, hExit]
      decide
    have hAdj : dependence.graph.Adj 2 3 := by
      rw [← Digraph.mem_successors, hBelow]
      decide
    have hStuck : ¬ graph.Reaches 4 flow.exit := by
      rw [← Digraph.mem_breadthFirst_iff, hLoop, hExit]
      decide
    have hNext : graph.Adj 4 3 := by
      rw [← Digraph.mem_successors, hAfter]
      decide
    refine ⟨flow, graph, tree, dependence, rfl, hGraph, hTree, hOk, ⟨hReach, hAdj, ?_⟩, hStuck, ?_⟩
    · exact (hDecides 2 3 (Nat.succ_ne_zero 1)).1 hReach hAdj
    · exact ((hDecides 4 3 (Nat.succ_ne_zero 3)).2 hStuck).mpr hNext

/-- An endless loop of two instructions without any branch. -/
def spin : List Instruction :=
  let method : MethodId := ⟨"Spin", "run", "()V"⟩
  [⟨method, 0, "0", .nop, none⟩, ⟨method, 1, "1", .goto 0, none⟩]

/-- A source of control dependences other than the entry need not have two successors. -/
theorem controlDependence_source_single_spin :
    ∃ flow graph dependence, FlowGraph.build ⟨"Spin", "run", "()V"⟩ spin [] {} = .ok flow ∧
      flow.augmented = .ok graph ∧ flow.controlDependence = .ok dependence ∧
      1 ≠ flow.entry ∧ dependence.graph.Adj 1 2 ∧ ∀ s, graph.Adj 1 s → s = 2 := by
  have hRun : ((FlowGraph.build ⟨"Spin", "run", "()V"⟩ spin [] {}).bind fun flow =>
      flow.augmented.bind fun graph => flow.controlDependence.map fun dependence =>
        (dependence.graph.successors 1, graph.successors 1)).toOption = some ([2], [2]) := by
    decide +kernel
  cases hBuild : FlowGraph.build ⟨"Spin", "run", "()V"⟩ spin [] {} with
  | error _ => simp [hBuild, Except.bind, Except.toOption] at hRun
  | ok flow =>
    obtain ⟨graph, tree, dependence, h⟩ := exists_derived (FlowGraph.build_wellShaped hBuild)
    simp only [hBuild, h.augmented_eq, h.controlDependence_eq, Except.bind, Except.map,
      Except.toOption, Option.some.injEq, Prod.mk.injEq] at hRun
    obtain ⟨hBelow, hAfter⟩ := hRun
    refine ⟨flow, graph, dependence, rfl, h.augmented_eq, h.controlDependence_eq,
      Nat.succ_ne_zero 0, ?_, ?_⟩
    · rw [← Digraph.mem_successors, hBelow]
      decide
    · intro s hAdj
      rw [← Digraph.mem_successors, hAfter] at hAdj
      exact List.mem_singleton.mp hAdj

end ControlDependence

end BytecodeFlow
