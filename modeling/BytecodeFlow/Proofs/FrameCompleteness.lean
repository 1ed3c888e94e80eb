import BytecodeFlow.Proofs.FrameSoundness
import BytecodeFlow.Proofs.RaisedStacks

/-!
# Methods whose paths agree have stack frames

A method type-checks if every path from its entry can be simulated, and if the stacks that two paths
leave before an instruction have values that merge. Then the flow equations have a solution: at each
instruction the stack that any path leaves there, with its references raised to the class of all
objects (`frameSolution_raise`). It does not matter which path is taken, since stacks that merge are
raised to the same stack. So the stack frames can be computed, although that is done by going back
and forth along the edges and not path by path. The converse holds as well, since all the stacks
before an instruction fit its frame (`exists_stackFrames_iff_typeChecks`).

Jumps to subroutines are left out. The address that they push may be consumed as a reference to a
class, but it merges with none.
-/

namespace BytecodeFlow.FlowGraph

variable {flow : FlowGraph} {locals : VariableTable}

/-- Some path from the method entry leaves the stack before a node. -/
def Leaves (flow : FlowGraph) (locals : VariableTable) (node : Nat) (stack : TypeStack) : Prop :=
  ∃ nodes, flow.graph.Path flow.entry node nodes ∧
    flow.simulate locals (nodes.zip nodes.tail) = .ok stack

/-- Every path from the method entry can be simulated, and the stacks that two paths leave before an
instruction have the same number of values, with types that merge. -/
structure TypeChecks (flow : FlowGraph) (locals : VariableTable) : Prop where
  runs : ∀ node nodes, flow.graph.Path flow.entry node nodes →
    ∃ stack, flow.simulate locals (nodes.zip nodes.tail) = .ok stack
  agree : ∀ node a b, flow.IsLive node → flow.Leaves locals node a → flow.Leaves locals node b →
    a.length = b.length ∧ ∀ (k : Nat) (s t : StackType), a[k]? = some s → b[k]? = some t →
      (s.merge t).isSome = true

namespace Leaves

variable {node target : Nat} {stack : TypeStack}

theorem entry (hShape : flow.WellShaped) : flow.Leaves locals flow.entry [] := by
  obtain ⟨nodes, hPath⟩ := hShape.isLive_entry.1
  exact ⟨[flow.entry], .single hPath.source_lt, rfl⟩

theorem ordinary
    (hCalls : ∀ node, flow.graph.Reaches flow.entry node → ¬ flow.CallsSubroutine node)
    (h : flow.Leaves locals node stack) : TypeStack.Ordinary stack := by
  obtain ⟨nodes, hPath, hStack⟩ := h
  induction hPath using Digraph.Path.snoc_induction generalizing stack with
  | single _ =>
    cases hStack
    exact fun t ht => by cases ht
  | @snoc middle target nodes hPath hAdj ih =>
    rw [hPath.zip_tail_snoc] at hStack
    obtain ⟨before, effect, hBefore, hEffect, hApply⟩ := simulate_snoc.mp hStack
    intro t ht
    rcases TypeStack.mem_or_mem_produced hApply ht with ht | ht
    · exact ih hBefore t ht
    · rcases effectBetween_produced hEffect with hOrdinary | ⟨hCall, -⟩
      · exact hOrdinary t ht
      · exact absurd hCall (hCalls middle ⟨nodes, hPath⟩)

/-- A path that ends at a node goes on along every edge behind it. -/
theorem step (hChecks : flow.TypeChecks locals) (h : flow.Leaves locals node stack)
    (hAdj : flow.graph.Adj node target) :
    ∃ effect left, flow.effectBetween locals node target = .ok effect ∧
      TypeStack.apply stack effect = .ok left ∧ flow.Leaves locals target left := by
  obtain ⟨nodes, hPath, hStack⟩ := h
  obtain ⟨left, hLeft⟩ := hChecks.runs target _ (hPath.snoc hAdj)
  have hLast := hLeft
  rw [hPath.zip_tail_snoc] at hLast
  obtain ⟨_, effect, hSame, hEffect, hApply⟩ := simulate_snoc.mp hLast
  obtain rfl := Except.ok.inj (hStack.symm.trans hSame)
  exact ⟨effect, left, hEffect, hApply, _, hPath.snoc hAdj, hLeft⟩

end Leaves

theorem exists_stackFrames (hShape : flow.WellShaped) {family : Nat → FrameLayout}
    (h : flow.FrameSolution locals family) : ∃ frames, flow.stackFrames locals = .ok frames := by
  obtain ⟨frames, hFrames, -⟩ := exists_stackFrames_le hShape h
  exact ⟨frames, hFrames⟩

/-- Whole stacks solve the flow equations if they solve all edges between live nodes, and if the
effects of the edges to the exit can be executed. -/
theorem frameSolution_of_stacks {stackAt : Nat → TypeStack} (hEntry : stackAt flow.entry = [])
    (hVoid : ∀ {node : Nat}, flow.IsLive node → TypeStack.VoidFree (stackAt node))
    (hEdge : ∀ {node target : Nat}, flow.IsLive node → flow.graph.Adj node target →
      ∃ effect left, flow.effectBetween locals node target = .ok effect ∧
        TypeStack.Below (TypeStack.needed effect) (stackAt node) ∧
        TypeStack.apply (stackAt node) effect = .ok left ∧ (flow.IsLive target →
          FrameLayout.Solved effect (.exactly (stackAt node)) (.exactly (stackAt target)))) :
    flow.FrameSolution locals fun node => .exactly (stackAt node) := by
  refine ⟨congrArg FrameLayout.exactly hEntry, fun _ => rfl, hVoid, fun {node target} hLive hAdj => ?_⟩
  obtain ⟨effect, left, hEffect, hNeeded, hApply, hTarget⟩ := hEdge hLive hAdj
  have hOutput := FrameLayout.apply_of_extend
    (FrameLayout.extend_of_exact (a := .exactly (stackAt node)) rfl _) hApply
  refine ⟨effect, _, hEffect, FrameLayout.le_iff_below.mpr ⟨hNeeded, fun hExact => ?_⟩, hOutput,
    fun hLiveTarget => ?_⟩
  · rw [FrameLayout.isExact_minimalBefore] at hExact
    cases hExact
  · have hSolved := hTarget hLiveTarget
    obtain ⟨output, hOutput', hForward⟩ := hSolved.forward
    obtain ⟨before, hBefore, hBackward⟩ := hSolved.backward
    obtain rfl := Except.ok.inj (hOutput.symm.trans hOutput')
    exact ⟨FrameLayout.le_iff_below.mpr hForward, before, hBefore,
      FrameLayout.le_iff_below.mpr hBackward⟩

/-- Stacks that any paths leave solve the flow equations, once they are raised. -/
theorem frameSolution_raise (hShape : flow.WellShaped)
    (hCalls : ∀ node, flow.graph.Reaches flow.entry node → ¬ flow.CallsSubroutine node)
    (hChecks : flow.TypeChecks locals) {stackAt : Nat → TypeStack}
    (hStackAt : ∀ node, flow.IsLive node → flow.Leaves locals node (stackAt node)) :
    flow.FrameSolution locals fun node => .exactly (TypeStack.raise (stackAt node)) := by
  have hRaise : ∀ node stack, flow.IsLive node → flow.Leaves locals node stack →
      TypeStack.raise stack = TypeStack.raise (stackAt node) := by
    intro node stack hLive hStack
    have hChosen := hStackAt node hLive
    obtain ⟨hLength, hMerge⟩ := hChecks.agree node stack (stackAt node) hLive hStack hChosen
    exact TypeStack.raise_eq_of_merge (hStack.ordinary hCalls) (hChosen.ordinary hCalls) hLength
      hMerge
  refine frameSolution_of_stacks ?_ (fun hLive => ?_) fun {node target} hLive hAdj => ?_
  · rw [← hRaise flow.entry [] hShape.isLive_entry (.entry hShape), TypeStack.raise_nil]
  · exact ((hStackAt _ hLive).ordinary hCalls).raise.voidFree
  · have hStack := hStackAt node hLive
    obtain ⟨effect, left, hEffect, hApply, hLeft⟩ := hStack.step hChecks hAdj
    have hConsumed := effectBetween_consumed hEffect
    have hOrdinary := hStack.ordinary hCalls
    obtain ⟨after, hAfter, -⟩ := TypeStack.apply_raise hConsumed hOrdinary hApply
    refine ⟨effect, after, hEffect, TypeStack.needed_below_raise hConsumed hOrdinary hApply, hAfter,
      fun hTarget => ?_⟩
    rw [← hRaise target left hTarget hLeft]
    exact FrameLayout.solved_raise hConsumed hOrdinary (hLeft.ordinary hCalls) hApply

/-- Two stacks that fit one frame have values that merge. -/
theorem merge_of_fits {a b frame : TypeStack} (ha : TypeStack.Fits a frame)
    (hb : TypeStack.Fits b frame) : a.length = b.length ∧
      ∀ (k : Nat) (s t : StackType), a[k]? = some s → b[k]? = some t →
        (s.merge t).isSome = true := by
  have hLength := ha.length_eq.trans hb.length_eq.symm
  refine ⟨hLength, fun k s t hs ht => ?_⟩
  obtain ⟨hk, rfl⟩ := List.getElem?_eq_some_iff.mp hs
  obtain ⟨hk', rfl⟩ := List.getElem?_eq_some_iff.mp ht
  have hFrame : k < frame.length := ha.length_eq ▸ hk
  obtain ⟨value, hMerge, -⟩ :=
    StackType.Below.exists_merge (ha.get hk hFrame) (hb.get hk' hFrame)
  exact Option.isSome_iff_exists.mpr ⟨value, hMerge⟩

/-- **Exactly the methods that type-check have stack frames,** as long as no jump to a subroutine is
reachable. -/
theorem exists_stackFrames_iff_typeChecks {method : MethodId} {instructions : List Instruction}
    {handlers : List HandlerRange} {settings : Settings}
    (hBuild : build method instructions handlers settings = .ok flow)
    (hCalls : ∀ node, flow.graph.Reaches flow.entry node → ¬ flow.CallsSubroutine node) :
    (∃ frames, flow.stackFrames locals = .ok frames) ↔ flow.TypeChecks locals := by
  have hShape := build_wellShaped hBuild
  constructor
  · rintro ⟨frames, hFrames⟩
    obtain ⟨-, family, hSolution, -⟩ := exists_frameSolution hShape hFrames
    have hFits : ∀ {node : Nat} {stack : TypeStack}, flow.IsLive node →
        flow.Leaves locals node stack → TypeStack.Fits stack (family node).values := by
      rintro node stack hLive ⟨nodes, hPath, hStack⟩
      obtain ⟨_, hSame, -, hFits⟩ := hSolution.simulate_fits hShape hPath
      obtain rfl := Except.ok.inj (hStack.symm.trans hSame)
      exact hFits hLive.2
    refine ⟨fun node nodes hPath => ?_, fun node a b hLive ha hb => ?_⟩
    · obtain ⟨stack, hStack, -⟩ := hSolution.simulate_fits hShape hPath
      exact ⟨stack, hStack⟩
    · exact merge_of_fits (hFits hLive ha) (hFits hLive hb)
  · intro hChecks
    have hSome : ∀ node, ∃ stack, flow.IsLive node → flow.Leaves locals node stack := by
      intro node
      by_cases hLive : flow.IsLive node
      · obtain ⟨nodes, hPath⟩ := hLive.1
        obtain ⟨stack, hStack⟩ := hChecks.runs node nodes hPath
        exact ⟨stack, fun _ => ⟨nodes, hPath, hStack⟩⟩
      · exact ⟨[], fun h => absurd h hLive⟩
    choose stackAt hStackAt using hSome
    exact exists_stackFrames hShape (frameSolution_raise hShape hCalls hChecks hStackAt)

/-- An endless loop that copies a wide value below a reference. -/
def shuttle : List Instruction :=
  let method : MethodId := ⟨"Shuttle", "run", "()V"⟩
  [⟨method, 0, "0", .constant .null, none⟩, ⟨method, 1, "1", .constant (.long 1), none⟩,
    ⟨method, 2, "2", .shuffle .dup2X1, none⟩, ⟨method, 3, "3", .shuffle .pop2, none⟩,
    ⟨method, 4, "4", .shuffle .pop, none⟩, ⟨method, 5, "5", .shuffle .pop2, none⟩,
    ⟨method, 6, "6", .constant (.string "next"), none⟩, ⟨method, 7, "7", .goto 1, none⟩]

/-- The frames are computed, so however often the loop is taken, its stacks agree. -/
theorem exists_stackFrames_iff_typeChecks_shuttle :
    ∃ flow, build ⟨"Shuttle", "run", "()V"⟩ shuttle [] {} = .ok flow ∧
      (∀ node, flow.graph.Reaches flow.entry node → ¬ flow.CallsSubroutine node) ∧
      (∃ frames, flow.stackFrames [] = .ok frames) ∧ flow.TypeChecks [] := by
  have hRun : ((build ⟨"Shuttle", "run", "()V"⟩ shuttle [] {}).bind fun flow =>
      flow.stackFrames []).isOk = true := by
    decide +kernel
  cases hBuild : build ⟨"Shuttle", "run", "()V"⟩ shuttle [] {} with
  | error _ => simp [hBuild, Except.bind, Except.isOk, Except.toBool] at hRun
  | ok flow =>
    cases hFrames : flow.stackFrames [] with
    | error _ => simp [hBuild, hFrames, Except.bind, Except.isOk, Except.toBool] at hRun
    | ok frames =>
      have hCalls : ∀ node, flow.graph.Reaches flow.entry node → ¬ flow.CallsSubroutine node := by
        rintro node - ⟨instruction, target, hNode, hJump⟩
        obtain ⟨-, -, -, -, hConnected⟩ := build_eq_ok hBuild
        rw [hConnected.node?_eq] at hNode
        have hMem := List.mem_of_getElem? hNode
        simp only [shuttle, List.cons_append, List.nil_append, List.mem_cons, List.not_mem_nil,
          or_false] at hMem
        rcases hMem with rfl | rfl | rfl | rfl | rfl | rfl | rfl | rfl | rfl | rfl <;> cases hJump
      exact ⟨flow, rfl, hCalls, ⟨frames, hFrames⟩,
        (exists_stackFrames_iff_typeChecks hBuild hCalls).mp ⟨frames, hFrames⟩⟩

end BytecodeFlow.FlowGraph
