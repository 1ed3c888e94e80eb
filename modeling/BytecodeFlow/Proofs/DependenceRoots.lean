import BytecodeFlow.Proofs.DependencePaths

/-!
# Dead code below the method entry

The entry is made the parent of every node that depends on no other node. This roots the live code,
and it roots dead code whose dependences end somewhere. It does not root all of it: dead branches
that depend on each other in a cycle are no roots of their own, and no live node leads to them,
because what depends on live code is live (`Derived.live_of_dependsOn`).

So a dead node hangs below the entry exactly if some dead node above it depends on nothing else, and
a dead node that does not is found below two dead nodes that depend on each other
(`Digraph.exists_cycle_of_pred`).
-/

namespace BytecodeFlow

/-- Where each of some nodes has another one of them before it, a cycle leads to each of them. -/
theorem Digraph.exists_cycle_of_pred {α : Type} {g : Digraph α} {P : Nat → Prop}
    (hPred : ∀ node, P node → ∃ before, before ≠ node ∧ g.Adj before node ∧ P before)
    {node : Nat} (hNode : P node) :
    ∃ a b, a ≠ b ∧ P a ∧ P b ∧ g.Reaches a b ∧ g.Reaches b a ∧ g.Reaches b node := by
  classical
  -- going back without ever being able to return loses a node each time
  induction hCount : ((Finset.range g.size).filter fun a => g.Reaches a node).card
    using Nat.strong_induction_on generalizing node with
  | _ count ih =>
    obtain ⟨before, hNe, hAdj, hBefore⟩ := hPred node hNode
    have hStep : g.Reaches before node := (Digraph.Reaches.refl hAdj.source_lt).tail hAdj
    have hSelf : g.Reaches node node := .refl hAdj.target_lt
    by_cases hBack : g.Reaches node before
    · exact ⟨before, node, hNe, hBefore, hNode, hStep, hBack, hSelf⟩
    · have hFewer : ((Finset.range g.size).filter fun a => g.Reaches a before).card < count := by
        rw [← hCount]
        refine Finset.card_lt_card (Finset.ssubset_iff_of_subset ?_ |>.mpr ⟨node, ?_, ?_⟩)
        · intro a hMem
          rw [Finset.mem_filter] at hMem ⊢
          exact ⟨hMem.1, hMem.2.trans hStep⟩
        · rw [Finset.mem_filter, Finset.mem_range]
          exact ⟨hAdj.target_lt, hSelf⟩
        · rw [Finset.mem_filter]
          exact fun hMem => hBack hMem.2
      obtain ⟨a, b, hOther, hA, hB, hForth, hReturn, hBelow⟩ := ih _ hFewer hBefore rfl
      exact ⟨a, b, hOther, hA, hB, hForth, hReturn, hBelow.trans hStep⟩

theorem FlowGraph.WellShaped.entry_live {flow : FlowGraph} (hShape : flow.WellShaped) :
    flow.graph.Reaches flow.entry flow.entry := by
  refine .refl ?_
  rw [hShape.size_eq]
  exact Nat.succ_pos _

namespace ControlDependence

/-- Control can get from a node to whatever depends on it, unless that is the exit. -/
theorem DependsOn.reaches {graph : Digraph Instruction} {exit : Nat} {tree : PostDominatorTree}
    (hTree : tree.parents = PostDominatorTree.parentsIn graph exit) (hExit : exit < graph.size)
    {a b : Nat} (h : DependsOn graph tree a b) (hNe : b ≠ exit) : graph.Reaches a b := by
  obtain ⟨next, hAdj, hAbove, -⟩ := h
  suffices hNext : graph.Reaches next b by
    obtain ⟨nodes, hPath⟩ := hNext
    exact ⟨_, .cons hAdj hPath⟩
  by_cases hReach : graph.Reaches next exit
  · obtain ⟨nodes, hPath⟩ := id hReach
    have hMem := (PostDominatorTree.postDominates_iff_of_reaches hTree hExit hReach).mp hAbove
      nodes hPath
    obtain ⟨left, right, hLeft, -⟩ := hPath.split hMem
    exact ⟨_, hLeft⟩
  · rw [PostDominatorTree.postDominates_iff_of_not_reaches hTree hExit hAdj.target_lt
      hReach] at hAbove
    rcases hAbove with rfl | hEq
    · exact .refl hAdj.target_lt
    · exact absurd hEq hNe

namespace Derived

variable {flow : FlowGraph} {graph : Digraph Instruction} {tree : PostDominatorTree}
  {dependence : ControlDependence} {a b node : Nat}

theorem nodes_eq (h : Derived flow graph tree dependence) (hShape : flow.WellShaped) :
    graph.nodes = flow.graph.nodes := by
  obtain ⟨same, hSame, hNodes, -⟩ := hShape.augmented_ok
  obtain rfl := Except.ok.inj (h.augmented_eq.symm.trans hSame)
  exact hNodes

/-- The edge that the augmented graph adds leads nowhere but to the exit. -/
theorem reaches_flow (h : Derived flow graph tree dependence) (hShape : flow.WellShaped)
    (hReach : graph.Reaches a b) (hNe : b ≠ flow.exit) : flow.graph.Reaches a b := by
  obtain ⟨nodes, hPath⟩ := hReach
  induction hPath with
  | single hNode =>
    refine .refl ?_
    rwa [Digraph.size, ← h.nodes_eq hShape]
  | @cons source next target nodes hAdj hRest ih =>
    obtain ⟨behind, hBehind⟩ := ih hNe
    rcases (h.adj_iff source next).mp hAdj with hFlow | ⟨-, rfl⟩
    · exact ⟨_, .cons hFlow hBehind⟩
    · cases hRest with
      | single _ => exact absurd rfl hNe
      | cons hLeave _ => exact absurd hLeave (h.not_adj_exit hShape _)

theorem reaches_of_flow (h : Derived flow graph tree dependence) (hShape : flow.WellShaped)
    (hReach : flow.graph.Reaches a b) : graph.Reaches a b := by
  rw [Digraph.Reaches.iff_reflTransGen] at hReach ⊢
  constructor
  · rw [Digraph.size, h.nodes_eq hShape]
    exact hReach.1
  · exact Relation.ReflTransGen.mono (fun s t hAdj => (h.adj_iff s t).mpr (Or.inl hAdj)) _ _
      hReach.2

/-- What depends on live code is live. -/
theorem live_of_dependsOn (h : Derived flow graph tree dependence) (hShape : flow.WellShaped)
    (hDepends : DependsOn graph tree a b) (hLive : flow.graph.Reaches flow.entry a) :
    flow.graph.Reaches flow.entry b := by
  have hNe : b ≠ flow.exit := by
    rintro rfl
    exact not_dependsOn_exit h.parents_eq h.exit_lt (h.not_adj_exit hShape) a hDepends
  have hReach := hDepends.reaches h.parents_eq h.exit_lt hNe
  exact hLive.trans (h.reaches_flow hShape hReach hNe)

/-- The dependences lead from the entry to a node that depends on no other one. -/
theorem adj_entry (h : Derived flow graph tree dependence) (hNode : node < graph.size)
    (hNe : node ≠ flow.entry) (hRoot : ∀ a, DependsOn graph tree a node → a = node) :
    dependence.graph.Adj flow.entry node :=
  (h.dependence_iff _ _).mpr (Or.inr ⟨rfl, hNode, hNe, hRoot⟩)

/-- Where the dependences lead from the entry to a dead node, they come to dead code at a node that
depends on no other one. -/
theorem exists_root (h : Derived flow graph tree dependence) (hShape : flow.WellShaped)
    (hDead : ¬ flow.graph.Reaches flow.entry node)
    (hBelow : dependence.graph.Reaches flow.entry node) :
    ∃ root, ¬ flow.graph.Reaches flow.entry root ∧ dependence.graph.Reaches root node ∧
      ∀ a, DependsOn graph tree a root → a = root := by
  obtain ⟨nodes, hPath⟩ := hBelow
  obtain ⟨last, behind, hLive, hRest, -, hBehind⟩ :=
    hPath.split_last (P := fun x => flow.graph.Reaches flow.entry x)
      ⟨flow.entry, hPath.source_mem, hShape.entry_live⟩
  cases hRest with
  | single _ => exact absurd hLive hDead
  | @cons _ root _ _ hAdj hNext =>
    have hRoot := hBehind root hNext.source_mem
    refine ⟨root, hRoot, ⟨behind, hNext⟩, ?_⟩
    rcases (h.dependence_iff last root).mp hAdj with hDepends | ⟨-, -, -, hAlone⟩
    · exact absurd (h.live_of_dependsOn hShape hDepends hLive) hRoot
    · exact hAlone

/-- A node that the dependences do not lead to from the entry depends on another such node. -/
theorem exists_stray_pred (h : Derived flow graph tree dependence) (hNode : node < graph.size)
    (hStray : ¬ dependence.graph.Reaches flow.entry node) :
    ∃ a, a ≠ node ∧ dependence.graph.Adj a node ∧
      (a < graph.size ∧ ¬ dependence.graph.Reaches flow.entry a) := by
  have hEntry : dependence.graph.Reaches flow.entry flow.entry := by
    refine .refl ?_
    rw [h.size_eq]
    exact Nat.lt_of_le_of_lt (Nat.zero_le _) h.exit_lt
  have hNe : node ≠ flow.entry := by
    rintro rfl
    exact hStray hEntry
  have hOthers : ¬ ∀ a, DependsOn graph tree a node → a = node := by
    intro hRoot
    exact hStray (hEntry.tail (h.adj_entry hNode hNe hRoot))
  push Not at hOthers
  obtain ⟨a, hDepends, hOther⟩ := hOthers
  have hAdj := (h.dependence_iff a node).mpr (Or.inl hDepends)
  refine ⟨a, hOther, hAdj, ?_, fun hBelow => hStray (hBelow.tail hAdj)⟩
  rw [← h.size_eq]
  exact hAdj.source_lt

end Derived

/-- **Dead code hangs off the method entry unless it depends on itself in a circle.** A node that
control cannot reach from the method entry is below the entry in the control dependences exactly if
it is below a dead node that depends on no other node. A node that is not below the entry is below
two different dead nodes that chains of dependences lead from to each other. -/
theorem controlDependence_reaches_dead_iff {method : MethodId} {instructions : List Instruction}
    {handlers : List HandlerRange} {settings : Settings} {flow : FlowGraph}
    (hBuild : FlowGraph.build method instructions handlers settings = .ok flow) :
    ∃ graph tree dependence, flow.augmented = .ok graph ∧ flow.postDominators = .ok tree ∧
      flow.controlDependence = .ok dependence ∧
      ∀ node < flow.graph.size,
        (¬ flow.graph.Reaches flow.entry node →
          (dependence.graph.Reaches flow.entry node ↔
            ∃ root, ¬ flow.graph.Reaches flow.entry root ∧ dependence.graph.Reaches root node ∧
              ∀ a, DependsOn graph tree a root → a = root)) ∧
        (¬ dependence.graph.Reaches flow.entry node →
          ∃ a b, a ≠ b ∧ ¬ flow.graph.Reaches flow.entry a ∧ ¬ flow.graph.Reaches flow.entry b ∧
            dependence.graph.Reaches a b ∧ dependence.graph.Reaches b a ∧
            dependence.graph.Reaches b node) := by
  have hShape := FlowGraph.build_wellShaped hBuild
  obtain ⟨graph, tree, dependence, h⟩ := exists_derived hShape
  refine ⟨graph, tree, dependence, h.augmented_eq, h.postDominators_eq, h.controlDependence_eq,
    fun node hNode => ⟨fun hDead => ⟨h.exists_root hShape hDead, ?_⟩, fun hStray => ?_⟩⟩
  · rintro ⟨root, hRoot, ⟨nodes, hPath⟩, hAlone⟩
    have hNe : root ≠ flow.entry := by
      rintro rfl
      exact hRoot hShape.entry_live
    have hAdj := h.adj_entry (h.size_eq ▸ hPath.source_lt) hNe hAlone
    exact ⟨_, .cons hAdj hPath⟩
  · have hDead : ∀ {x}, ¬ dependence.graph.Reaches flow.entry x →
        ¬ flow.graph.Reaches flow.entry x := by
      intro x hStray hLive
      exact hStray (h.reaches_of_reaches hShape (h.reaches_of_flow hShape hLive))
    rw [Digraph.size, ← h.nodes_eq hShape] at hNode
    obtain ⟨a, b, hNe, hA, hB, hForth, hBack, hBelow⟩ :=
      Digraph.exists_cycle_of_pred (fun x hx => h.exists_stray_pred hx.1 hx.2) ⟨hNode, hStray⟩
    exact ⟨a, b, hNe, hDead hA.2, hDead hB.2, hForth, hBack, hBelow⟩

/-- A handler that nothing raises an exception for, with two branches that jump over and around each
other. -/
def deadLoop : List Instruction :=
  let method : MethodId := ⟨"Guard", "quiet", "(I)V"⟩
  [⟨method, 0, "0", .nop, none⟩, ⟨method, 1, "1", .leave none, none⟩,
    ⟨method, 2, "2", .store .reference 1, none⟩, ⟨method, 3, "3", .load .int 0, none⟩,
    ⟨method, 4, "4", .branch .equal 7, none⟩, ⟨method, 5, "5", .load .int 0, none⟩,
    ⟨method, 6, "6", .branch .notEqual 3, none⟩, ⟨method, 7, "7", .leave none, none⟩]

theorem deadLoop_reached :
    ∃ flow dependence, FlowGraph.build ⟨"Guard", "quiet", "(I)V"⟩ deadLoop [⟨0, 1, 2, none⟩] {} =
        .ok flow ∧ flow.controlDependence = .ok dependence ∧ flow.graph.size = 10 ∧
      (∀ node, flow.graph.Reaches flow.entry node ↔ node ∈ [0, 1, 2, 9]) ∧
      ∀ node, dependence.graph.Reaches flow.entry node ↔ node ∈ [0, 1, 2, 3, 8, 9] := by
  have hRun : ((FlowGraph.build ⟨"Guard", "quiet", "(I)V"⟩ deadLoop [⟨0, 1, 2, none⟩] {}).bind
      fun flow => flow.controlDependence.map fun dependence =>
        (flow.graph.size, flow.graph.breadthFirst 0,
          dependence.graph.breadthFirst 0)).toOption =
      some (10, [0, 1, 2, 9], [0, 1, 2, 3, 8, 9]) := by
    decide +kernel
  cases hBuild : FlowGraph.build ⟨"Guard", "quiet", "(I)V"⟩ deadLoop [⟨0, 1, 2, none⟩] {} with
  | error _ => simp [hBuild, Except.bind, Except.toOption] at hRun
  | ok flow =>
    obtain ⟨graph, tree, dependence, h⟩ := exists_derived (FlowGraph.build_wellShaped hBuild)
    simp only [hBuild, h.controlDependence_eq, Except.bind, Except.map, Except.toOption,
      Option.some.injEq, Prod.mk.injEq] at hRun
    obtain ⟨hSize, hLive, hBelow⟩ := hRun
    refine ⟨flow, dependence, rfl, h.controlDependence_eq, hSize, fun node => ?_, fun node => ?_⟩
    · rw [← hLive]
      exact Digraph.mem_breadthFirst_iff.symm
    · rw [← hBelow]
      exact Digraph.mem_breadthFirst_iff.symm

/-- The handler's last instruction is below the entry. Its second branch is not, because the two
branches depend on each other. -/
theorem controlDependence_reaches_dead_iff_deadLoop :
    ∃ flow graph tree dependence, FlowGraph.build ⟨"Guard", "quiet", "(I)V"⟩ deadLoop
        [⟨0, 1, 2, none⟩] {} = .ok flow ∧ flow.augmented = .ok graph ∧
      flow.postDominators = .ok tree ∧ flow.controlDependence = .ok dependence ∧
      (¬ flow.graph.Reaches flow.entry 8 ∧
        ∃ root, ¬ flow.graph.Reaches flow.entry root ∧ dependence.graph.Reaches root 8 ∧
          ∀ a, DependsOn graph tree a root → a = root) ∧
      ¬ dependence.graph.Reaches flow.entry 7 ∧
      ∃ a b, a ≠ b ∧ ¬ flow.graph.Reaches flow.entry a ∧ ¬ flow.graph.Reaches flow.entry b ∧
        dependence.graph.Reaches a b ∧ dependence.graph.Reaches b a ∧
        dependence.graph.Reaches b 7 := by
  obtain ⟨flow, dependence, hBuild, hOk, hSize, hLive, hBelow⟩ := deadLoop_reached
  obtain ⟨graph, tree, same, hGraph, hTree, hSame, hRoots⟩ :=
    controlDependence_reaches_dead_iff hBuild
  obtain rfl := Except.ok.inj (hOk.symm.trans hSame)
  have hDead : ¬ flow.graph.Reaches flow.entry 8 := by
    rw [hLive]
    decide
  have hStray : ¬ dependence.graph.Reaches flow.entry 7 := by
    rw [hBelow]
    decide
  refine ⟨flow, graph, tree, dependence, hBuild, hGraph, hTree, hOk, ⟨hDead, ?_⟩, hStray, ?_⟩
  · refine ((hRoots 8 (by omega)).1 hDead).mp ?_
    rw [hBelow]
    decide
  · exact (hRoots 7 (by omega)).2 hStray

/-- Dead code need not be below the entry. -/
theorem not_controlDependence_reaches_deadLoop :
    ∃ flow dependence, FlowGraph.build ⟨"Guard", "quiet", "(I)V"⟩ deadLoop
        [⟨0, 1, 2, none⟩] {} = .ok flow ∧ flow.controlDependence = .ok dependence ∧
      5 < flow.graph.size ∧ ¬ flow.graph.Reaches flow.entry 5 ∧
      ¬ dependence.graph.Reaches flow.entry 5 := by
  obtain ⟨flow, dependence, hBuild, hOk, hSize, hLive, hBelow⟩ := deadLoop_reached
  refine ⟨flow, dependence, hBuild, hOk, by omega, ?_, ?_⟩
  · rw [hLive]
    decide
  · rw [hBelow]
    decide

end ControlDependence

end BytecodeFlow
