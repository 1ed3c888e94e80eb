import BytecodeFlow.Proofs.LeastFrames
import BytecodeFlow.Proofs.NodeLookup
import BytecodeFlow.Proofs.Routes
import BytecodeFlow.Proofs.Simulation

/-!
# Stack frames describe every execution

The stack that a path from the method entry leaves before an instruction fits the frame of that
instruction, whatever path it is. One step keeps this (`FrameSolution.fits_step`): the effect of the
edge can be executed on the frame, so it can be executed on the stack, and what the frame hands to
the next instruction is below the frame there. So it holds along every path
(`FrameSolution.simulate_fits`), and the shortest path, from which the type on top of the stack is
read, is one of them.
-/

namespace BytecodeFlow

/-- The top of a stack agrees with the top of a frame that it fits. -/
theorem TypeStack.Fits.head {stack frame : TypeStack} (h : Fits stack frame)
    (hKnown : Known stack) :
    (stack.head?.getD .void = .void ↔ frame.head?.getD .void = .void) ∧
      (stack.head?.getD .void ≠ .void →
        (stack.head?.getD .void).Below (frame.head?.getD .void)) := by
  cases h with
  | nil => exact ⟨Iff.rfl, fun h => absurd rfl h⟩
  | @cons s f _ _ hType _ =>
    have hFirst : s ≠ .void := (hKnown s List.mem_cons_self).2
    refine ⟨⟨fun hVoid => absurd hVoid hFirst, fun hVoid => ?_⟩, fun _ => hType⟩
    change f = .void at hVoid
    exact absurd (hVoid ▸ hType).eq_void hFirst

namespace FlowGraph

variable {method : MethodId} {instructions : List Instruction} {handlers : List HandlerRange}
  {settings : Settings} {flow : FlowGraph} {locals : VariableTable} {family : Nat → FrameLayout}

/-! ## One step and a whole path -/

theorem FrameSolution.fits_step (h : flow.FrameSolution locals family) {node target : Nat}
    (hNode : flow.IsLive node) (hAdj : flow.graph.Adj node target) {stack : TypeStack}
    (hKnown : TypeStack.Known stack) (hFits : TypeStack.Fits stack (family node).values) :
    ∃ effect left, flow.effectBetween locals node target = .ok effect ∧
      TypeStack.apply stack effect = .ok left ∧ TypeStack.Known left ∧
      (flow.IsLive target → TypeStack.Fits left (family target).values) := by
  obtain ⟨effect, output, hEffect, -, hOutput, hNext⟩ := h.edge hNode hAdj
  have hExact := FrameLayout.apply_isExact (h.exact hNode) hOutput
  obtain ⟨_, hBase, hValues, -⟩ := FrameLayout.apply_eq_ok hOutput
  rw [FrameLayout.extend_of_exact (h.exact hNode)] at hBase
  cases hBase
  obtain ⟨left, hLeft, hFitsOutput⟩ :=
    TypeStack.apply_fits (effectBetween_consumed hEffect) hKnown hFits hValues
  have hLeftKnown := known_of_apply hEffect hKnown hLeft
  refine ⟨effect, left, hEffect, hLeft, hLeftKnown, fun hTarget => ?_⟩
  have hBelow := FrameLayout.le_iff_below.mp (hNext hTarget).1
  exact hFitsOutput.of_below hLeftKnown hBelow.values (hBelow.exact hExact).2 (h.voidFree hTarget)

/-- The exit has no frame, but the paths to it can be simulated like all others. -/
theorem FrameSolution.simulate_fits (h : flow.FrameSolution locals family)
    (hShape : flow.WellShaped) {node : Nat} {nodes : List Nat}
    (hPath : flow.graph.Path flow.entry node nodes) :
    ∃ stack, flow.simulate locals (nodes.zip nodes.tail) = .ok stack ∧ TypeStack.Known stack ∧
      (node ≠ flow.exit → TypeStack.Fits stack (family node).values) := by
  induction hPath using Digraph.Path.snoc_induction with
  | single _ =>
    refine ⟨[], rfl, by simp [TypeStack.Known], fun _ => ?_⟩
    rw [h.entry]
    exact .nil
  | @snoc middle target nodes hPath hAdj ih =>
    have hMiddle : middle ≠ flow.exit := Nat.ne_of_lt (hShape.source_lt hAdj)
    obtain ⟨stack, hStack, hKnown, hFits⟩ := ih
    obtain ⟨effect, left, hEffect, hLeft, hLeftKnown, hLeftFits⟩ :=
      h.fits_step ⟨⟨nodes, hPath⟩, hMiddle⟩ hAdj hKnown (hFits hMiddle)
    refine ⟨left, ?_, hLeftKnown, fun hTarget => hLeftFits ⟨⟨_, hPath.snoc hAdj⟩, hTarget⟩⟩
    rw [hPath.zip_tail_snoc]
    exact simulate_snoc.mpr ⟨stack, effect, hStack, hEffect, hLeft⟩

/-! ## Instructions and their nodes -/

end FlowGraph

end BytecodeFlow
