import BytecodeFlow.Proofs.FlowShape
import BytecodeFlow.Proofs.LayoutOrder
import BytecodeFlow.Proofs.OperandTypes
import BytecodeFlow.Proofs.Reachability

/-!
# What stack frames have to satisfy

The nodes of a flow graph that have a layout are those that the method entry reaches, the exit
excepted (`FlowGraph.IsLive`). The problem that is solved for a flow graph has exactly these nodes,
and on every edge that leaves one of them the effect of its instruction (`ofFlow_describes`). All
that the search relies on is put together in `FrameProblem.WellFormed`.
-/

namespace BytecodeFlow

/-! ## The problem of a flow graph -/

namespace FlowGraph

/-- The nodes that have a layout: the method entry reaches them, and they are not the exit. -/
def IsLive (flow : FlowGraph) (node : Nat) : Prop :=
  flow.graph.Reaches flow.entry node ∧ node ≠ flow.exit

theorem WellShaped.isLive_entry {flow : FlowGraph} (hShape : flow.WellShaped) :
    flow.IsLive flow.entry := by
  have hSize := hShape.size_eq
  have hPos := hShape.exit_pos
  have hEntry : flow.entry = 0 := rfl
  exact ⟨.refl (by omega), by omega⟩

theorem effectBetween_voidFree {flow : FlowGraph} {locals : VariableTable} {source target : Nat}
    {effect : StackEffect} (h : flow.effectBetween locals source target = .ok effect) :
    effect.VoidFree := by
  unfold effectBetween at h
  split at h
  · exact Instruction.effect_voidFree h
  · cases h
    simp [StackEffect.VoidFree]

/-- The method entry does nothing to the stack. -/
theorem effectBetween_entry {flow : FlowGraph} (hShape : flow.WellShaped) {locals : VariableTable}
    {target : Nat} {effect : StackEffect}
    (h : flow.effectBetween locals flow.entry target = .ok effect) :
    effect = .uniform [] .void := by
  unfold effectBetween at h
  rw [hShape.entry_node] at h
  cases h
  rfl

end FlowGraph

namespace FrameProblem

/-- The problem has the live nodes of a flow graph, and the effects of the edges that leave them. -/
structure Describes (problem : FrameProblem) (flow : FlowGraph) (locals : VariableTable) :
    Prop where
  graph_eq : problem.graph = flow.graph
  entry_eq : problem.entry = flow.entry
  isLive_iff : ∀ node, problem.isLive node = true ↔ flow.IsLive node
  mem_effectsOf : ∀ {node : Nat} {edge : EffectEdge}, flow.IsLive node →
    (edge ∈ problem.effectsOf node ↔ flow.graph.Adj node edge.target ∧
      flow.effectBetween locals node edge.target = .ok edge.effect)
  exists_effect : ∀ {node target : Nat}, flow.IsLive node → flow.graph.Adj node target →
    ∃ effect, flow.effectBetween locals node target = .ok effect

variable {problem : FrameProblem} {flow : FlowGraph} {locals : VariableTable}

theorem isLive_ofFn {live : Array Bool} {node : Nat}
    (hLive : live = Array.ofFn fun node : Fin flow.graph.size =>
      node.val != flow.exit && (flow.graph.reachable [flow.entry])[node.val]?.getD false) :
    live[node]?.getD false = true ↔ flow.IsLive node := by
  have hReach : (flow.graph.reachable [flow.entry])[node]?.getD false = true ↔
      flow.graph.Reaches flow.entry node := by
    simp only [Digraph.reachable_iff, List.mem_singleton, exists_eq_left]
  rw [hLive]
  by_cases hNode : node < flow.graph.size
  · simp [hNode, FlowGraph.IsLive, hReach, and_comm]
  · simp only [Array.getElem?_ofFn, hNode, dite_false, Option.getD_none, Bool.false_eq_true,
      false_iff]
    rintro ⟨⟨nodes, hPath⟩, -⟩
    exact hNode hPath.target_lt

theorem ofFlow_describes (h : ofFlow flow locals = .ok problem) :
    problem.Describes flow locals := by
  obtain ⟨effects, hEffects, h⟩ := bind_eq_ok.mp h
  cases h
  obtain ⟨hLength, hEach⟩ := mapM_range_eq_ok hEffects
  -- the entry of the table for a live node
  have hTable : ∀ node, flow.IsLive node → ∃ edges, effects.toArray[node]?.getD [] = edges ∧
      (flow.graph.successors node).mapM (fun target =>
        (EffectEdge.mk target) <$> flow.effectBetween locals node target) = .ok edges := by
    intro node hNode
    obtain ⟨nodes, hPath⟩ := hNode.1
    obtain ⟨edges, hEdges, hOk⟩ := hEach node hPath.target_lt
    rw [if_pos ((isLive_ofFn rfl).mpr hNode)] at hOk
    exact ⟨edges, by simp [hEdges], hOk⟩
  refine ⟨rfl, rfl, fun node => isLive_ofFn rfl, ?_, ?_⟩
  · intro node edge hNode
    obtain ⟨edges, hLookup, hOk⟩ := hTable node hNode
    show edge ∈ effects.toArray[node]?.getD [] ↔ _
    rw [hLookup, mem_mapM hOk]
    constructor
    · rintro ⟨target, hTarget, hEdge⟩
      obtain ⟨effect, hEffect, rfl⟩ := map_eq_ok.mp hEdge
      exact ⟨Digraph.mem_successors.mp hTarget, hEffect⟩
    · rintro ⟨hAdj, hEffect⟩
      exact ⟨edge.target, Digraph.mem_successors.mpr hAdj, map_eq_ok.mpr ⟨_, hEffect, rfl⟩⟩
  · intro node target hNode hAdj
    obtain ⟨edges, -, hOk⟩ := hTable node hNode
    obtain ⟨edge, hEdge⟩ := mapM_ok_of_mem hOk (Digraph.mem_successors.mpr hAdj)
    obtain ⟨effect, hEffect, -⟩ := map_eq_ok.mp hEdge
    exact ⟨effect, hEffect⟩

/-- If every edge that leaves a live node has an effect, then the flow graph has a problem. -/
theorem ofFlow_succeeds (h : ∀ node target, flow.IsLive node → flow.graph.Adj node target →
    ∃ effect, flow.effectBetween locals node target = .ok effect) :
    ∃ problem, ofFlow flow locals = .ok problem := by
  obtain ⟨effects, hEffects⟩ : ∃ effects, flow.graph.nodeIds.mapM (fun node =>
      if (Array.ofFn fun node : Fin flow.graph.size => node.val != flow.exit &&
        (flow.graph.reachable [flow.entry])[node.val]?.getD false)[node]?.getD false then
        (flow.graph.successors node).mapM fun target =>
          (EffectEdge.mk target) <$> flow.effectBetween locals node target
      else pure []) = .ok effects := by
    refine mapM_succeeds fun node _ => ?_
    split
    · rename_i hLive
      refine mapM_succeeds fun target hTarget => ?_
      obtain ⟨effect, hEffect⟩ :=
        h node target ((isLive_ofFn rfl).mp hLive) (Digraph.mem_successors.mp hTarget)
      exact ⟨_, map_eq_ok.mpr ⟨effect, hEffect, rfl⟩⟩
    · exact ⟨[], rfl⟩
  exact ⟨_, bind_eq_ok.mpr ⟨effects, hEffects, rfl⟩⟩

/-! ## What the search relies on -/

/-- The shape of a problem that can be solved by going along edges from the entry. -/
structure WellFormed (problem : FrameProblem) : Prop where
  entry_live : problem.isLive problem.entry = true
  reaches : ∀ {node : Nat}, problem.isLive node = true →
    problem.graph.Reaches problem.entry node
  live_of_adj : ∀ {node target : Nat}, problem.graph.Reaches problem.entry node →
    problem.graph.Adj node target → problem.isLive node = true
  adj : ∀ {node : Nat} {edge : EffectEdge}, problem.isLive node = true →
    edge ∈ problem.effectsOf node → problem.graph.Adj node edge.target
  effect?_eq : ∀ {node : Nat} {edge : EffectEdge}, problem.isLive node = true →
    edge ∈ problem.effectsOf node → problem.effect? node edge.target = some edge.effect
  exists_edge : ∀ {node target : Nat}, problem.isLive node = true →
    problem.graph.Adj node target → ∃ effect, ⟨target, effect⟩ ∈ problem.effectsOf node
  voidFree : ∀ {node : Nat} {edge : EffectEdge}, problem.isLive node = true →
    edge ∈ problem.effectsOf node → edge.effect.VoidFree
  entry_first : ∀ {node : Nat}, ¬ problem.graph.Adj node problem.entry
  entry_needs : ∀ {edge : EffectEdge}, edge ∈ problem.effectsOf problem.entry →
    FrameLayout.minimalBefore edge.effect = FrameLayout.atLeast []

theorem Describes.wellFormed (h : problem.Describes flow locals) (hShape : flow.WellShaped) :
    problem.WellFormed := by
  have hEntryLive := hShape.isLive_entry
  have hEdge : ∀ {node : Nat} {edge : EffectEdge}, problem.isLive node = true →
      (edge ∈ problem.effectsOf node ↔ flow.graph.Adj node edge.target ∧
        flow.effectBetween locals node edge.target = .ok edge.effect) :=
    fun hLive => h.mem_effectsOf ((h.isLive_iff _).mp hLive)
  refine ⟨?_, ?_, ?_, ?_, ?_, ?_, ?_, ?_, ?_⟩
  · rw [h.isLive_iff, h.entry_eq]
    exact hEntryLive
  · intro node hLive
    rw [h.graph_eq, h.entry_eq]
    exact ((h.isLive_iff node).mp hLive).1
  · intro node target hReach hAdj
    rw [h.graph_eq, h.entry_eq] at hReach
    rw [h.graph_eq] at hAdj
    have hLt := hShape.source_lt hAdj
    exact (h.isLive_iff node).mpr ⟨hReach, by omega⟩
  · intro node edge hLive hMem
    rw [h.graph_eq]
    exact ((hEdge hLive).mp hMem).1
  · intro node edge hLive hMem
    obtain ⟨first, hFirst⟩ : ∃ first,
        (problem.effectsOf node).find? (·.target == edge.target) = some first := by
      rw [← Option.isSome_iff_exists, List.find?_isSome]
      exact ⟨edge, hMem, by simp⟩
    have hTarget : first.target = edge.target := by
      simpa using List.find?_some hFirst
    have hFirstEffect := ((hEdge hLive).mp (List.mem_of_find?_eq_some hFirst)).2
    have hSame := hFirstEffect.symm.trans (hTarget ▸ ((hEdge hLive).mp hMem).2)
    rw [effect?, hFirst, Option.map_some, Except.ok.inj hSame]
  · intro node target hLive hAdj
    rw [h.graph_eq] at hAdj
    obtain ⟨effect, hEffect⟩ := h.exists_effect ((h.isLive_iff node).mp hLive) hAdj
    exact ⟨effect, (hEdge hLive).mpr ⟨hAdj, hEffect⟩⟩
  · intro node edge hLive hMem
    exact FlowGraph.effectBetween_voidFree ((hEdge hLive).mp hMem).2
  · intro node hAdj
    rw [h.graph_eq, h.entry_eq] at hAdj
    exact hShape.target_ne hAdj rfl
  · intro edge hMem
    rw [h.entry_eq] at hMem
    have hEffect := ((h.mem_effectsOf hEntryLive).mp hMem).2
    rw [FlowGraph.effectBetween_entry hShape hEffect]
    rfl

end FrameProblem

end BytecodeFlow
