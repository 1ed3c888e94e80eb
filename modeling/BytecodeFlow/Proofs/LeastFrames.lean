import BytecodeFlow.StackFrames.Basic
import BytecodeFlow.Proofs.FrameBound
import BytecodeFlow.Proofs.FrameTermination

/-!
# Stack frames are the least solution of the flow equations

A layout is at most another one if joining it to the other changes nothing. A family of layouts
solves the flow equations of a method if the stack is empty at the entry, if every layout covers
what its instruction needs, and if along every edge the end holds what the start leaves and the
start holds what the end asks for (`FrameSolution`).

If the stack frames of a method can be computed, then they solve these equations
(`exists_frameSolution`). If the equations have any solution, then the stack frames can be
computed, and they are at most that solution (`exists_stackFrames_le`). Both are put together in
`stackFrames_isLeast`.
-/

namespace BytecodeFlow

/-- Joining the lower layout to the upper one changes nothing. -/
instance : LE FrameLayout :=
  ⟨fun lower upper => lower.merge upper = .ok upper⟩

theorem FrameLayout.le_iff_below {lower upper : FrameLayout} :
    lower ≤ upper ↔ lower.Below upper :=
  merge_eq_right_iff

namespace FlowGraph

/-- A family of layouts, one for each live node, that satisfies the flow equations. -/
structure FrameSolution (flow : FlowGraph) (locals : VariableTable) (family : Nat → FrameLayout) :
    Prop where
  entry : family flow.entry = FrameLayout.exactly []
  exact : ∀ {node : Nat}, flow.IsLive node → (family node).isExact = true
  voidFree : ∀ {node : Nat}, flow.IsLive node → StackType.void ∉ (family node).values
  edge : ∀ {node target : Nat}, flow.IsLive node → flow.graph.Adj node target →
    ∃ effect output, flow.effectBetween locals node target = .ok effect ∧
      FrameLayout.minimalBefore effect ≤ family node ∧
      (family node).apply effect = .ok output ∧
      (flow.IsLive target → output ≤ family target ∧
        ∃ before, (family target).revert effect = .ok before ∧ before ≤ family node)

variable {flow : FlowGraph} {locals : VariableTable} {family : Nat → FrameLayout}
  {problem : FrameProblem} {search : FrameSearch}

/-! ## The computed frames solve the equations -/

theorem stackFrames_eq_ok {frames : StackFrames} : flow.stackFrames locals = .ok frames ↔
    ∃ problem search outputs, FrameProblem.ofFlow flow locals = .ok problem ∧
      problem.solve = .ok search ∧
      flow.graph.nodeIds.mapM (problem.outputsOf search.inputs) = .ok outputs ∧
      (⟨flow.graph, search.inputs, outputs.toArray, search.visits⟩ : StackFrames) = frames := by
  unfold stackFrames
  simp only [bind_eq_ok, exists_and_left]
  refine exists_congr fun problem => and_congr_right fun _ => exists_congr fun search =>
    and_congr_right fun _ => exists_congr fun outputs => and_congr_right fun _ => ?_
  exact ⟨Except.ok.inj, congrArg Except.ok⟩

/-- The layouts that a live node hands on: one for each edge, by the effect of the edge. -/
theorem outputsOf_spec (hProblem : problem.WellFormed) {inputs : Array (Option FrameLayout)}
    {node : Nat} {layout : FrameLayout} {outputs : List (Nat × FrameLayout)}
    (hLive : problem.isLive node = true)
    (hLayout : FrameProblem.layoutAt inputs node = some layout)
    (h : problem.outputsOf inputs node = .ok outputs) {edge : EffectEdge}
    (hEdge : edge ∈ problem.effectsOf node) :
    ∃ output, layout.apply edge.effect = .ok output ∧
      outputs.find? (·.1 == edge.target) = some (edge.target, output) := by
  have hLookup : inputs[node]?.getD none = some layout := hLayout
  unfold FrameProblem.outputsOf at h
  simp only [hLookup] at h
  obtain ⟨pair, hPair⟩ := mapM_ok_of_mem h hEdge
  obtain ⟨output, hOutput, rfl⟩ := map_eq_ok.mp hPair
  refine ⟨output, hOutput, ?_⟩
  obtain ⟨first, hFirst⟩ : ∃ first, outputs.find? (·.1 == edge.target) = some first := by
    rw [← Option.isSome_iff_exists, List.find?_isSome]
    exact ⟨_, (mem_mapM h).mpr ⟨edge, hEdge, hPair⟩, by simp⟩
  -- parallel edges have one effect, so the first output for the target is this one
  have hTarget : first.1 = edge.target := by simpa using List.find?_some hFirst
  obtain ⟨other, hOther, hOk⟩ := (mem_mapM h).mp (List.mem_of_find?_eq_some hFirst)
  obtain ⟨output', hOutput', rfl⟩ := map_eq_ok.mp hOk
  have hSame : other.effect = edge.effect := by
    have hOtherEffect := hProblem.effect?_eq hLive hOther
    rw [show other.target = edge.target from hTarget,
      hProblem.effect?_eq hLive hEdge] at hOtherEffect
    exact (Option.some.inj hOtherEffect).symm
  rw [hSame, hOutput] at hOutput'
  cases hOutput'
  rw [hFirst, show other.target = edge.target from hTarget]

theorem outputs_spec (hDescribes : problem.Describes flow locals) (hProblem : problem.WellFormed)
    {inputs : Array (Option FrameLayout)} {outputs : List (List (Nat × FrameLayout))}
    (h : flow.graph.nodeIds.mapM (problem.outputsOf inputs) = .ok outputs) {node : Nat}
    {layout : FrameLayout} (hLive : flow.IsLive node)
    (hLayout : FrameProblem.layoutAt inputs node = some layout) {edge : EffectEdge}
    (hEdge : edge ∈ problem.effectsOf node) :
    ∃ output, layout.apply edge.effect = .ok output ∧
      (outputs.toArray[node]?.getD []).find? (·.1 == edge.target) = some (edge.target, output) := by
  obtain ⟨nodes, hPath⟩ := hLive.1
  obtain ⟨-, hEach⟩ := mapM_range_eq_ok h
  obtain ⟨handed, hLookup, hOk⟩ := hEach node hPath.target_lt
  rw [List.getElem?_toArray, hLookup, Option.getD_some]
  exact outputsOf_spec hProblem ((hDescribes.isLive_iff node).mpr hLive) hLayout hOk hEdge

theorem exists_family (hDescribes : problem.Describes flow locals)
    {inputs : Array (Option FrameLayout)} (hRegular : problem.Regular inputs) :
    ∃ family : Nat → FrameLayout, ∀ node, flow.IsLive node →
      FrameProblem.layoutAt inputs node = some (family node) := by
  refine ⟨fun node => (FrameProblem.layoutAt inputs node).getD (.exactly []), fun node hLive => ?_⟩
  obtain ⟨layout, hLayout⟩ := hRegular.exists_layout ((hDescribes.isLive_iff node).mpr hLive)
  simp only [hLayout, Option.getD_some]

/-- The layouts at the end of the search solve the flow equations, if all effects can be applied
to them. -/
theorem frameSolution_of_solve (hDescribes : problem.Describes flow locals)
    (hProblem : problem.WellFormed) (hSolve : problem.solve = .ok search)
    (hFamily : ∀ node, flow.IsLive node →
      FrameProblem.layoutAt search.inputs node = some (family node))
    (hApply : ∀ {node : Nat} {edge : EffectEdge}, flow.IsLive node →
      edge ∈ problem.effectsOf node → ∃ output, (family node).apply edge.effect = .ok output) :
    flow.FrameSolution locals family := by
  obtain ⟨hInvariant, hAgenda, hExact⟩ := FrameProblem.solve_spec hProblem hSolve
  have hRegular := hInvariant.regular
  have hFamilyExact : ∀ {node : Nat}, flow.IsLive node → (family node).isExact = true := by
    intro node hLive
    obtain ⟨layout, hLayout, hLayoutExact⟩ := hExact node ((hDescribes.isLive_iff node).mpr hLive)
    rw [hFamily node hLive] at hLayout
    cases hLayout
    exact hLayoutExact
  have hStable : ∀ {node : Nat}, flow.IsLive node →
      problem.Stable search.inputs node (family node) :=
    fun hLive => hInvariant.stable (hFamily _ hLive) (by simp [hAgenda])
  refine ⟨?_, hFamilyExact, fun hLive => hRegular.voidFree (hFamily _ hLive), ?_⟩
  · have hEntry : flow.IsLive flow.entry := by
      rw [← hDescribes.isLive_iff, ← hDescribes.entry_eq]
      exact hProblem.entry_live
    have hLayout := hFamily _ hEntry
    rw [← hDescribes.entry_eq, hRegular.entry] at hLayout
    rw [← hDescribes.entry_eq]
    exact (Option.some.inj hLayout).symm
  · intro node target hLive hAdj
    obtain ⟨effect, hEffect⟩ := hDescribes.exists_effect hLive hAdj
    have hEdge : ⟨target, effect⟩ ∈ problem.effectsOf node :=
      (hDescribes.mem_effectsOf hLive).mpr ⟨hAdj, hEffect⟩
    obtain ⟨output, hOutput⟩ := hApply hLive hEdge
    have hLayout := hFamily node hLive
    refine ⟨effect, output, hEffect, ?_, hOutput, fun hTarget => ?_⟩
    · rw [FrameLayout.le_iff_below]
      exact FrameLayout.minimalBefore_below_of_apply (hFamilyExact hLive)
        (hRegular.needed hLayout hEdge) hOutput
    · obtain ⟨_, hOutput', hBelow⟩ := (hStable hTarget).before
        ((hDescribes.isLive_iff node).mpr hLive) hEdge hLayout (hFamilyExact hLive)
      rw [hOutput] at hOutput'
      cases hOutput'
      obtain ⟨before, hBefore, hBefore'⟩ :=
        (hStable hLive).after hEdge (hFamily target hTarget) (hFamilyExact hTarget)
      exact ⟨FrameLayout.le_iff_below.mpr hBelow, before, hBefore,
        FrameLayout.le_iff_below.mpr hBefore'⟩

/-- Exactly the live nodes have a frame. -/
theorem isSome_inputAt_iff (hShape : flow.WellShaped) {frames : StackFrames}
    (h : flow.stackFrames locals = .ok frames) (node : Nat) :
    (frames.inputAt node).isSome = true ↔ flow.IsLive node := by
  obtain ⟨problem, search, outputs, hProblem, hSolve, -, rfl⟩ := stackFrames_eq_ok.mp h
  have hDescribes := FrameProblem.ofFlow_describes hProblem
  have hRegular := (FrameProblem.solve_spec (hDescribes.wellFormed hShape) hSolve).1.regular
  exact (hRegular.isSome_iff node).trans (hDescribes.isLive_iff node)

/-- What a live node hands to a successor is its frame after the effect of the edge. -/
theorem exists_output (hShape : flow.WellShaped) {frames : StackFrames}
    (h : flow.stackFrames locals = .ok frames) {node target : Nat} {layout : FrameLayout}
    (hLayout : frames.inputAt node = some layout) (hLive : flow.IsLive node)
    (hAdj : flow.graph.Adj node target) :
    ∃ effect output, flow.effectBetween locals node target = .ok effect ∧
      layout.apply effect = .ok output ∧
      (frames.outputsAt node).find? (·.1 == target) = some (target, output) := by
  obtain ⟨problem, search, outputs, hProblem, -, hOutputs, rfl⟩ := stackFrames_eq_ok.mp h
  have hDescribes := FrameProblem.ofFlow_describes hProblem
  obtain ⟨effect, hEffect⟩ := hDescribes.exists_effect hLive hAdj
  have hEdge : ⟨target, effect⟩ ∈ problem.effectsOf node :=
    (hDescribes.mem_effectsOf hLive).mpr ⟨hAdj, hEffect⟩
  obtain ⟨output, hOutput, hFind⟩ :=
    outputs_spec hDescribes (hDescribes.wellFormed hShape) hOutputs hLive hLayout hEdge
  exact ⟨effect, output, hEffect, hOutput, hFind⟩

/-- The frames of the live nodes solve the flow equations. -/
theorem exists_frameSolution (hShape : flow.WellShaped) {frames : StackFrames}
    (h : flow.stackFrames locals = .ok frames) :
    frames.graph = flow.graph ∧ ∃ family, flow.FrameSolution locals family ∧
      ∀ node, flow.IsLive node → frames.inputAt node = some (family node) := by
  obtain ⟨problem, search, outputs, hProblem, hSolve, hOutputs, rfl⟩ := stackFrames_eq_ok.mp h
  have hDescribes := FrameProblem.ofFlow_describes hProblem
  have hWellFormed := hDescribes.wellFormed hShape
  obtain ⟨family, hFamily⟩ := exists_family hDescribes
    (FrameProblem.solve_spec hWellFormed hSolve).1.regular
  refine ⟨rfl, family, frameSolution_of_solve hDescribes hWellFormed hSolve hFamily ?_, hFamily⟩
  intro node edge hLive hEdge
  obtain ⟨output, hOutput, -⟩ :=
    outputs_spec hDescribes hWellFormed hOutputs hLive (hFamily node hLive) hEdge
  exact ⟨output, hOutput⟩

/-! ## They are computed below every solution -/

/-- A solution of the flow equations solves the problem that the search works on. -/
theorem FrameSolution.solution (h : flow.FrameSolution locals family)
    (hDescribes : problem.Describes flow locals) : problem.Solution family := by
  -- the flow equation of an edge of the problem
  have hEquation : ∀ {node : Nat} {edge : EffectEdge}, problem.isLive node = true →
      edge ∈ problem.effectsOf node → ∃ output,
        FrameLayout.minimalBefore edge.effect ≤ family node ∧
        (family node).apply edge.effect = .ok output ∧
        (flow.IsLive edge.target → output ≤ family edge.target ∧
          ∃ before, (family edge.target).revert edge.effect = .ok before ∧
            before ≤ family node) := by
    intro node edge hLive hEdge
    have hNode := (hDescribes.isLive_iff node).mp hLive
    obtain ⟨hAdj, hEffect⟩ := (hDescribes.mem_effectsOf hNode).mp hEdge
    obtain ⟨effect, output, hEffect', hRest⟩ := h.edge hNode hAdj
    obtain rfl := Except.ok.inj (hEffect.symm.trans hEffect')
    exact ⟨output, hRest⟩
  have hExact : ∀ {node : Nat}, problem.isLive node = true → (family node).isExact = true :=
    fun hLive => h.exact ((hDescribes.isLive_iff _).mp hLive)
  have hVoidFree : ∀ {node : Nat}, problem.isLive node = true → (family node).VoidFree :=
    fun hLive => h.voidFree ((hDescribes.isLive_iff _).mp hLive)
  refine ⟨?_, hExact, hVoidFree, ?_, ?_, ?_⟩
  · rw [hDescribes.entry_eq]
    exact h.entry
  · intro node edge hLive hEdge
    obtain ⟨output, hNeeded, -⟩ := hEquation hLive hEdge
    exact FrameLayout.le_iff_below.mp hNeeded
  · intro node edge hLive hEdge
    obtain ⟨output, -, hOutput, -⟩ := hEquation hLive hEdge
    exact ⟨output, hOutput⟩
  · intro node edge hLive hEdge hTarget
    obtain ⟨output, hNeeded, hOutput, hEnd⟩ := hEquation hLive hEdge
    obtain ⟨hLeft, before, hBefore, hAsked⟩ := hEnd ((hDescribes.isLive_iff _).mp hTarget)
    exact ⟨hExact hLive, hExact hTarget, hVoidFree hLive, hVoidFree hTarget,
      FrameLayout.le_iff_below.mp hNeeded,
      ⟨output, hOutput, FrameLayout.le_iff_below.mp hLeft⟩,
      ⟨before, hBefore, FrameLayout.le_iff_below.mp hAsked⟩⟩

/-- Below a solution, all effects can be applied to the layouts at the end of the search. -/
theorem outputs_succeed {inputs : Array (Option FrameLayout)} (hProblem : problem.WellFormed)
    (hSolution : problem.Solution family) (hRegular : problem.Regular inputs)
    (hBounded : problem.Bounded family inputs) :
    ∃ outputs, flow.graph.nodeIds.mapM (problem.outputsOf inputs) = .ok outputs := by
  refine mapM_succeeds fun node _ => ?_
  unfold FrameProblem.outputsOf
  cases hLayout : inputs[node]?.getD none with
  | none => exact ⟨[], rfl⟩
  | some layout =>
    refine mapM_succeeds fun edge hEdge => ?_
    have hLive := hRegular.isLive hLayout
    obtain ⟨after, hAfter⟩ := hSolution.applies hLive hEdge
    obtain ⟨output, -, hOutput, -⟩ := FrameLayout.apply_mono (hProblem.voidFree hLive hEdge)
      (hSolution.exact hLive) (hSolution.voidFree hLive) (hSolution.needed hLive hEdge) hAfter
      (hRegular.voidFree hLayout) (hBounded.below hLayout)
      fun _ => hBounded.needed_below hSolution hRegular hLayout hEdge
    exact ⟨_, map_eq_ok.mpr ⟨output, hOutput, rfl⟩⟩

/-- Where the flow equations have a solution, the stack frames can be computed, and they are at most
that solution. -/
theorem exists_stackFrames_le (hShape : flow.WellShaped) {family : Nat → FrameLayout}
    (h : flow.FrameSolution locals family) :
    ∃ frames, flow.stackFrames locals = .ok frames ∧ ∀ node, flow.IsLive node →
      ∃ layout, frames.inputAt node = some layout ∧ layout ≤ family node := by
  obtain ⟨problem, hProblem⟩ := FrameProblem.ofFlow_succeeds fun node target hLive hAdj => by
    obtain ⟨effect, output, hEffect, -⟩ := h.edge hLive hAdj
    exact ⟨effect, hEffect⟩
  have hDescribes := FrameProblem.ofFlow_describes hProblem
  have hWellFormed := hDescribes.wellFormed hShape
  have hSolution := h.solution hDescribes
  obtain ⟨search, hSolve, hBounded⟩ := hSolution.solve_bounded hWellFormed
  have hRegular := (FrameProblem.solve_spec hWellFormed hSolve).1.regular
  obtain ⟨outputs, hOutputs⟩ := outputs_succeed hWellFormed hSolution hRegular hBounded
  refine ⟨_, stackFrames_eq_ok.mpr ⟨problem, search, outputs, hProblem, hSolve, hOutputs, rfl⟩,
    fun node hLive => ?_⟩
  obtain ⟨layout, hLayout⟩ := hRegular.exists_layout ((hDescribes.isLive_iff node).mpr hLive)
  exact ⟨layout, hLayout, FrameLayout.le_iff_below.mpr (hBounded.below hLayout)⟩

/-- **The stack frames of a method are the least solution of its flow equations.** If they can be
computed, then the layouts before the live nodes solve the equations, and what a node hands to a
successor is its layout after the effect of the edge. If the equations have a solution, then the
stack frames can be computed, and they are at most that solution. -/
theorem stackFrames_isLeast {method : MethodId} {instructions : List Instruction}
    {handlers : List HandlerRange} {settings : Settings} {flow : FlowGraph}
    (hBuild : build method instructions handlers settings = .ok flow) (locals : VariableTable) :
    (∀ frames, flow.stackFrames locals = .ok frames →
      (∀ node, (frames.inputAt node).isSome = true ↔ flow.IsLive node) ∧
      ∃ family, flow.FrameSolution locals family ∧
        (∀ node, flow.IsLive node → frames.inputAt node = some (family node)) ∧
        ∀ node target, flow.IsLive node → flow.graph.Adj node target →
          ∃ effect output, flow.effectBetween locals node target = .ok effect ∧
            (family node).apply effect = .ok output ∧
            (frames.outputsAt node).find? (·.1 == target) = some (target, output)) ∧
    ∀ family, flow.FrameSolution locals family →
      ∃ frames, flow.stackFrames locals = .ok frames ∧
        ∀ node, flow.IsLive node →
          ∃ layout, frames.inputAt node = some layout ∧ layout ≤ family node := by
  have hShape := build_wellShaped hBuild
  refine ⟨fun frames hFrames => ⟨isSome_inputAt_iff hShape hFrames, ?_⟩,
    fun family hFamily => exists_stackFrames_le hShape hFamily⟩
  obtain ⟨-, family, hFamily, hInputs⟩ := exists_frameSolution hShape hFrames
  exact ⟨family, hFamily, hInputs, fun node target hLive hAdj =>
    exists_output hShape hFrames (hInputs node hLive) hLive hAdj⟩

/-- Two branches that push references to different classes before they meet. -/
def choice : List Instruction :=
  let method : MethodId := ⟨"Choice", "pick", "(Z)Ljava/lang/Object;"⟩
  [⟨method, 0, "0", .load .int 0, none⟩, ⟨method, 1, "1", .branch .equal 4, none⟩,
    ⟨method, 2, "2", .constant (.string "yes"), none⟩, ⟨method, 3, "3", .goto 5, none⟩,
    ⟨method, 4, "4", .constant (.classLiteral "No"), none⟩,
    ⟨method, 5, "5", .leave (some .reference), none⟩]

/-- Where the branches meet, and before the jump that leads there, the least solution holds a
reference to their common class. -/
theorem stackFrames_isLeast_choice :
    ∃ flow family, build ⟨"Choice", "pick", "(Z)Ljava/lang/Object;"⟩ choice [] {} = .ok flow ∧
      flow.FrameSolution [] family ∧
      family 4 = .exactly [.reference (some objectClass)] ∧
      ∀ other, flow.FrameSolution [] other → family 4 ≤ other 4 := by
  have hRun : ((build ⟨"Choice", "pick", "(Z)Ljava/lang/Object;"⟩ choice [] {}).bind fun flow =>
      (flow.stackFrames []).map fun frames => frames.inputAt 4).toOption =
      some (some (.exactly [.reference (some objectClass)])) := by
    decide +kernel
  cases hBuild : build ⟨"Choice", "pick", "(Z)Ljava/lang/Object;"⟩ choice [] {} with
  | error _ => simp [hBuild, Except.bind, Except.toOption] at hRun
  | ok flow =>
    cases hFrames : flow.stackFrames [] with
    | error _ => simp [hBuild, hFrames, Except.bind, Except.map, Except.toOption] at hRun
    | ok frames =>
      simp only [hBuild, hFrames, Except.bind, Except.map, Except.toOption,
        Option.some.injEq] at hRun
      obtain ⟨hSolves, hLeast⟩ := stackFrames_isLeast hBuild []
      obtain ⟨hLive, family, hFamily, hInputs, -⟩ := hSolves frames hFrames
      have hFour : flow.IsLive 4 := (hLive 4).mp (by rw [hRun]; rfl)
      refine ⟨flow, family, rfl, hFamily, ?_, fun other hOther => ?_⟩
      · exact Option.some.inj ((hInputs 4 hFour).symm.trans hRun)
      · obtain ⟨_, hFrames', hBelow⟩ := hLeast other hOther
        obtain rfl := Except.ok.inj (hFrames.symm.trans hFrames')
        obtain ⟨layout, hLayout, hLe⟩ := hBelow 4 hFour
        rw [hInputs 4 hFour] at hLayout
        cases hLayout
        exact hLe

end FlowGraph

end BytecodeFlow
