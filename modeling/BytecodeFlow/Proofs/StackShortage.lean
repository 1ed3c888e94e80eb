import BytecodeFlow.Proofs.FrameCompleteness
import BytecodeFlow.Proofs.StackFaults

/-!
# Methods that run out of words

A simulated path may fail because an instruction needs more words than the stack holds. The search
for stack frames never says so. The layout before an instruction starts as what the instruction
needs, and the first exact layout that meets it is that of a lower stack, which is a mismatch of
heights.

This holds of the whole search, if running short is all that may happen along paths and all paths to
an instruction leave the same stack (`OnlyRunsShort`). Every exact layout is then as high as the
stack that some path leaves (`HeightsReached`). So whatever a predecessor is executed on holds the
words that it needs, and whatever a successor is undone on holds the words that the path has left
there (`refine_yields`). The visits keep this up (`visit_yields`), in the first round because each
node comes after one with an exact layout.
-/

namespace BytecodeFlow

namespace FlowGraph

variable {flow : FlowGraph} {locals : VariableTable} {node target : Nat} {stack : TypeStack}

theorem effectBetween_faults (source target : Nat) :
    FaultsAre Error.IsMalformed (flow.effectBetween locals source target) := by
  unfold effectBetween
  split
  · exact (Operation.effect_faults _ _).map fun _ _ => trivial
  · exact .ok trivial

/-- Every path from the method entry can be simulated, unless it runs out of words, and all paths
that reach an instruction leave the same stack before it. -/
structure OnlyRunsShort (flow : FlowGraph) (locals : VariableTable) : Prop where
  runs : ∀ node nodes, flow.graph.Path flow.entry node nodes →
    (∃ stack, flow.simulate locals (nodes.zip nodes.tail) = .ok stack) ∨
      ∃ needed available, flow.simulate locals (nodes.zip nodes.tail) =
        .error (.stackUnderflow needed available)
  agree : ∀ node a b, flow.IsLive node → flow.Leaves locals node a → flow.Leaves locals node b →
    a = b

/-- A path goes on along every edge for which it has left enough words. -/
theorem OnlyRunsShort.step (h : flow.OnlyRunsShort locals) (hLeaves : flow.Leaves locals node stack)
    (hAdj : flow.graph.Adj node target) {effect : StackEffect}
    (hEffect : flow.effectBetween locals node target = .ok effect)
    (hHeight : TypeStack.words (TypeStack.needed effect) ≤ TypeStack.words stack) :
    ∃ left, TypeStack.apply stack effect = .ok left ∧ flow.Leaves locals target left := by
  obtain ⟨nodes, hPath, hStack⟩ := hLeaves
  have hStep : flow.simulate locals ((nodes ++ [target]).zip (nodes ++ [target]).tail) =
      (TypeStack.apply stack effect).mapError StackFault.error := by
    rw [hPath.zip_tail_snoc, simulate_append, hStack, hEffect]
    rfl
  cases hApply : TypeStack.apply stack effect with
  | ok left =>
    refine ⟨left, rfl, nodes ++ [target], hPath.snoc hAdj, ?_⟩
    rw [hStep, hApply]
    rfl
  | error fault =>
    have hMismatch : fault.error.IsMismatch :=
      (TypeStack.apply_faults (effectBetween_voidFree hEffect) hHeight).of_eq_error hApply
    rw [hApply] at hStep
    rcases h.runs target _ (hPath.snoc hAdj) with ⟨left, hLeft⟩ | ⟨needed, available, hShort⟩
    · cases hStep.symm.trans hLeft
    · have hError := Except.error.inj (hStep.symm.trans hShort)
      exact absurd hError (hMismatch.ne_underflow needed available)

end FlowGraph

namespace FrameProblem

variable {problem : FrameProblem} {flow : FlowGraph} {locals : VariableTable}
  {inputs : Array (Option FrameLayout)} {search : FrameSearch} {node : Nat} {agenda : List Nat}
  {layout : FrameLayout}

/-- Every exact layout is as high as the stack that some path leaves. -/
def HeightsReached (flow : FlowGraph) (locals : VariableTable)
    (inputs : Array (Option FrameLayout)) : Prop :=
  ∀ node layout, layoutAt inputs node = some layout → layout.isExact = true →
    ∃ stack, flow.Leaves locals node stack ∧ TypeStack.words stack = layout.words

/-- The layout of the node, or of one that leads to it, is exact. -/
def Anchored (problem : FrameProblem) (inputs : Array (Option FrameLayout)) (node : Nat) : Prop :=
  ExactAt inputs node ∨ ∃ source, problem.isLive source = true ∧
    problem.graph.Adj source node ∧ ExactAt inputs source

/-! ## Visits -/

theorem Describes.leaves_step (h : problem.Describes flow locals)
    (hShort : flow.OnlyRunsShort locals) (hLive : problem.isLive node = true) {edge : EffectEdge}
    (hEdge : edge ∈ problem.effectsOf node) {stack : TypeStack}
    (hLeaves : flow.Leaves locals node stack)
    (hNeeded : TypeStack.words (TypeStack.needed edge.effect) ≤ TypeStack.words stack) :
    ∃ left, TypeStack.apply stack edge.effect = .ok left ∧
      flow.Leaves locals edge.target left := by
  obtain ⟨hAdj, hEffect⟩ := (h.mem_effectsOf ((h.isLive_iff node).mp hLive)).mp hEdge
  exact hShort.step hLeaves hAdj hEffect hNeeded

/-- What a predecessor leaves is never short of words. -/
theorem Regular.demandsBefore_faults (h : problem.Regular inputs) (hProblem : problem.WellFormed) :
    ∀ demand ∈ problem.demandsBefore inputs node, FaultsAre Error.IsMismatch demand := by
  intro demand hDemand
  obtain ⟨source, effect, before, hLive, hEdge, hBefore, rfl⟩ :=
    (mem_demandsBefore hProblem).mp hDemand
  exact FrameLayout.apply_faults (hProblem.voidFree hLive hEdge)
    fun _ => (h.needed hBefore hEdge).values.words_le

/-- Joined with what its predecessors leave, the layout of an anchored node is as high as the stack
that some path leaves there. -/
theorem Regular.exists_leaves (h : problem.Regular inputs) (hProblem : problem.WellFormed)
    (hDescribes : problem.Describes flow locals) (hShort : flow.OnlyRunsShort locals)
    (hHeights : HeightsReached flow locals inputs) (hLayout : layoutAt inputs node = some layout)
    (hAnchored : problem.Anchored inputs node) {middle : FrameLayout}
    (hBeneath : layout.Beneath middle)
    (hDemands : ∀ demand ∈ problem.demandsBefore inputs node, ∃ b, demand = .ok b ∧
      b.Beneath middle) :
    middle.isExact = true ∧
      ∃ stack, flow.Leaves locals node stack ∧ TypeStack.words stack = middle.words := by
  rcases hAnchored with ⟨_, hExactLayout, hExact⟩ | ⟨source, hLive, hAdj, before, hBefore, hExact⟩
  · obtain rfl := Option.some.inj (hLayout.symm.trans hExactLayout)
    obtain ⟨stack, hLeaves, hWords⟩ := hHeights node layout hLayout hExact
    obtain ⟨hMiddle, hMiddleWords⟩ := hBeneath.exact hExact
    exact ⟨hMiddle, stack, hLeaves, hWords.trans hMiddleWords⟩
  · -- the path to the predecessor goes on to the node, and leaves as many words as the layout has
    obtain ⟨effect, hEdge⟩ := hProblem.exists_edge hLive hAdj
    have hVoid := hProblem.voidFree hLive hEdge
    obtain ⟨after, hApply, hAfter⟩ := hDemands _
      ((mem_demandsBefore hProblem).mpr ⟨source, effect, before, hLive, hEdge, hBefore, rfl⟩)
    obtain ⟨_, hBase, hValues, -⟩ := FrameLayout.apply_eq_ok hApply
    rw [FrameLayout.extend_of_exact hExact] at hBase
    cases hBase
    obtain ⟨stack, hLeaves, hWords⟩ := hHeights source before hBefore hExact
    have hNeeded : TypeStack.words (TypeStack.needed effect) ≤ TypeStack.words stack :=
      hWords ▸ (h.needed hBefore hEdge).values.words_le
    obtain ⟨left, hLeft, hLeavesLeft⟩ :=
      hDescribes.leaves_step hShort hLive hEdge hLeaves hNeeded
    have hSame := TypeStack.words_apply_congr hVoid hWords hLeft hValues
    obtain ⟨hMiddle, hMiddleWords⟩ := hAfter.exact (FrameLayout.apply_isExact hExact hApply)
    exact ⟨hMiddle, left, hLeavesLeft, hSame.trans hMiddleWords⟩

/-- What a successor asks of a node is never short of words, if the node has as many as some path
leaves there. -/
theorem Regular.demandsAfter_faults (h : problem.Regular inputs) (hProblem : problem.WellFormed)
    (hDescribes : problem.Describes flow locals) (hShort : flow.OnlyRunsShort locals)
    (hHeights : HeightsReached flow locals inputs) (hLayout : layoutAt inputs node = some layout)
    {middle : FrameLayout} (hBeneath : layout.Beneath middle) {stack : TypeStack}
    (hLeaves : flow.Leaves locals node stack) (hWords : TypeStack.words stack = middle.words) :
    ∀ demand ∈ problem.demandsAfter inputs node, FaultsAre Error.IsMismatch demand := by
  intro demand hDemand
  obtain ⟨edge, hEdge, after, hAfter, rfl⟩ := mem_demandsAfter.mp hDemand
  refine FrameLayout.revert_faults fun hExact => ?_
  have hLive := h.isLive hLayout
  have hTarget := (hDescribes.isLive_iff edge.target).mp (h.isLive hAfter)
  have hNeeded : TypeStack.words (TypeStack.needed edge.effect) ≤ TypeStack.words stack :=
    hWords ▸ ((h.needed hLayout hEdge).trans hBeneath).values.words_le
  obtain ⟨left, hLeft, hLeavesLeft⟩ := hDescribes.leaves_step hShort hLive hEdge hLeaves hNeeded
  -- the path to the successor leaves the only stack there
  obtain ⟨other, hLeavesOther, hOther⟩ := hHeights edge.target after hAfter hExact
  obtain rfl := hShort.agree edge.target left other hTarget hLeavesLeft hLeavesOther
  rw [← hOther]
  exact TypeStack.words_left_le (hProblem.voidFree hLive hEdge) hNeeded hLeft

/-- A visit to an anchored node fails with a mismatch only, and finds the height that some path
leaves. -/
theorem Regular.refine_yields (h : problem.Regular inputs) (hProblem : problem.WellFormed)
    (hDescribes : problem.Describes flow locals) (hShort : flow.OnlyRunsShort locals)
    (hHeights : HeightsReached flow locals inputs) (hLayout : layoutAt inputs node = some layout)
    (hAnchored : problem.Anchored inputs node) :
    Yields (fun refined => ∃ stack, flow.Leaves locals node stack ∧
      TypeStack.words stack = FrameLayout.words refined) Error.IsMismatch
      (problem.refine inputs node layout) := by
  have hVoid := h.voidFree_demands hProblem (h.isLive hLayout)
  rw [demands_eq, List.forall_mem_append] at hVoid
  rw [refine_eq_foldlM, demands_eq, List.foldlM_append]
  refine (FrameLayout.foldlM_merge_faults (h.demandsBefore_faults hProblem)).bind
    fun middle hMiddle _ => ?_
  obtain ⟨hBeneath, hMiddleVoid, hBefore⟩ :=
    FrameLayout.foldlM_merge_beneath (h.voidFree hLayout) hVoid.1 hMiddle
  obtain ⟨hExact, stack, hLeaves, hWords⟩ :=
    h.exists_leaves hProblem hDescribes hShort hHeights hLayout hAnchored hBeneath hBefore
  have hAfter := h.demandsAfter_faults hProblem hDescribes hShort hHeights hLayout hBeneath hLeaves
    hWords
  refine (FrameLayout.foldlM_merge_faults hAfter).strengthen fun refined hRefined => ?_
  obtain ⟨hAbove, -⟩ := FrameLayout.foldlM_merge_beneath hMiddleVoid hVoid.2 hRefined
  exact ⟨stack, hLeaves, hWords.trans (hAbove.exact hExact).2⟩

theorem Invariant.visit_yields (h : problem.Invariant search) (hProblem : problem.WellFormed)
    (hDescribes : problem.Describes flow locals) (hShort : flow.OnlyRunsShort locals)
    (hHeights : HeightsReached flow locals search.inputs)
    (hAgenda : search.agenda = node :: agenda) (hAnchored : problem.Anchored search.inputs node) :
    Yields (fun next => HeightsReached flow locals next.inputs) Error.IsMismatch
      (problem.visit search node agenda) := by
  have hLive : problem.isLive node = true := h.agenda_live node (by simp [hAgenda])
  obtain ⟨layout, hLayout⟩ := h.regular.exists_layout hLive
  have hRefine := h.regular.refine_yields hProblem hDescribes hShort hHeights hLayout hAnchored
  refine Yields.strengthen ?_ fun next hVisit => ?_
  · have hLookup : search.inputs[node]?.getD none = some layout := hLayout
    unfold FrameProblem.visit
    simp only [hLookup]
    refine hRefine.bind fun refined _ _ => ?_
    split <;> exact .pure _
  · obtain ⟨_, refined, hVisited⟩ := h.visited hProblem hAgenda hVisit
    obtain rfl := Option.some.inj (hLayout.symm.trans hVisited.layout_eq)
    intro k other hOther hExact
    rw [hVisited.layoutAt_eq] at hOther
    split at hOther
    · rename_i hk
      cases hOther
      rw [hk]
      exact hRefine.of_eq_ok hVisited.refine_eq
    · exact hHeights k other hOther hExact

/-! ## The search -/

/-- In the first round each node is anchored by one before it. -/
theorem sweep_yields (hProblem : problem.WellFormed) (hDescribes : problem.Describes flow locals)
    (hShort : flow.OnlyRunsShort locals) (visited todo extra : List Nat)
    (hSplit : problem.sweep = visited ++ todo) (h : problem.Invariant search)
    (hHeights : HeightsReached flow locals search.inputs)
    (hAgenda : search.agenda = todo ++ extra)
    (hVisited : ∀ k ∈ visited, ExactAt search.inputs k) :
    Yields (fun next => HeightsReached flow locals next.inputs) Error.IsMismatch
      (problem.run todo.length search) := by
  induction todo generalizing search visited extra with
  | nil => exact .ok hHeights
  | cons node todo ih =>
    have hAnchored : problem.Anchored search.inputs node := by
      rcases sweep_pred hProblem hSplit with rfl | ⟨source, hSource, hLive, hAdj⟩
      · exact Or.inl ⟨_, h.regular.entry, rfl⟩
      · exact Or.inr ⟨source, hLive, hAdj, hVisited source hSource⟩
    rw [List.length_cons, run_succ_of_cons hAgenda]
    refine (h.visit_yields hProblem hDescribes hShort hHeights hAgenda hAnchored).bind
      fun next hVisit hNext => ?_
    obtain ⟨⟨more, hMore⟩, hExact⟩ := sweep_visit hProblem hSplit h hAgenda hVisited hVisit
    exact ih (visited ++ [node]) more (by simp [hSplit]) (h.visit hProblem hAgenda hVisit) hNext
      hMore hExact

/-- Afterwards all layouts are exact. -/
theorem Invariant.run_faults (h : problem.Invariant search) (hProblem : problem.WellFormed)
    (hDescribes : problem.Describes flow locals) (hShort : flow.OnlyRunsShort locals)
    (hHeights : HeightsReached flow locals search.inputs)
    (hExact : ∀ k, problem.isLive k = true → ExactAt search.inputs k) (fuel : Nat) :
    FaultsAre Error.IsMismatch (problem.run fuel search) := by
  induction fuel generalizing search with
  | zero => exact .ok trivial
  | succ fuel ih =>
    cases hAgenda : search.agenda with
    | nil =>
      rw [run_of_nil hAgenda]
      exact .ok trivial
    | cons node agenda =>
      have hLive : problem.isLive node = true := h.agenda_live node (by simp [hAgenda])
      rw [run_succ_of_cons hAgenda]
      refine (h.visit_yields hProblem hDescribes hShort hHeights hAgenda
        (Or.inl (hExact node hLive))).bind fun next hVisit hNext => ?_
      obtain ⟨hKept, -⟩ := h.exactAt_visit hProblem hAgenda hVisit
      exact ih (h.visit hProblem hAgenda hVisit) hNext fun k hk => hKept k (hExact k hk)

theorem start_faults : FaultsAre Error.IsMismatch problem.start := by
  have hMinimal : ∀ node, FaultsAre Error.IsMismatch (problem.minimalInput node) := by
    intro node
    rw [minimalInput_eq_foldlM]
    refine FrameLayout.foldlM_merge_faults fun demand hDemand => ?_
    obtain ⟨edge, -, rfl⟩ := List.mem_map.mp hDemand
    exact .ok trivial
  have hInputs : FaultsAre Error.IsMismatch problem.initialInputs := by
    refine Yields.bind (.mapM fun node _ => ?_) fun inputs _ _ => .pure _
    split
    · exact (hMinimal node).map fun _ _ => trivial
    · exact .pure _
  exact hInputs.bind fun inputs _ _ => .pure _

/-- At the start only the entry has an exact layout. -/
theorem heightsReached_start (hProblem : problem.WellFormed)
    (hDescribes : problem.Describes flow locals) (hShape : flow.WellShaped)
    (h : problem.start = .ok search) : HeightsReached flow locals search.inputs := by
  obtain ⟨inputs, hInputs, h⟩ := bind_eq_ok.mp h
  cases h
  obtain ⟨-, hEntry, hDead, hLive⟩ := initialInputs_eq_ok hProblem hInputs
  intro node layout hLayout hExact
  change layoutAt inputs node = some layout at hLayout
  by_cases hNode : node = problem.entry
  · rw [hNode, hEntry] at hLayout
    cases hLayout
    rw [hNode, hDescribes.entry_eq]
    exact ⟨[], FlowGraph.Leaves.entry hShape, rfl⟩
  · cases hState : problem.isLive node with
    | false =>
      rw [hDead node hState] at hLayout
      cases hLayout
    | true =>
      obtain ⟨minimal, hMinimal, hLookup⟩ := hLive node hNode hState
      obtain rfl := Option.some.inj (hLookup.symm.trans hLayout)
      rw [(minimalInput_spec hProblem hState hMinimal).2.1] at hExact
      cases hExact

theorem solve_faults (hProblem : problem.WellFormed) (hDescribes : problem.Describes flow locals)
    (hShape : flow.WellShaped) (hShort : flow.OnlyRunsShort locals) :
    FaultsAre Error.IsMismatch problem.solve := by
  refine start_faults.bind fun first hStart _ => ?_
  have hFirst := invariant_start hProblem hStart
  have hAgenda : first.agenda = problem.sweep ++ [] := by
    rw [(agenda_start hStart).1, List.append_nil]
  have hSweep := sweep_yields hProblem hDescribes hShort [] problem.sweep [] rfl hFirst
    (heightsReached_start hProblem hDescribes hShape hStart) hAgenda (by simp)
  refine hSweep.bind fun swept hSwept hHeights => ?_
  have hExact := exact_sweep hProblem [] problem.sweep [] rfl hFirst hAgenda (by simp) hSwept
  exact (hFirst.run hProblem hSwept).run_faults hProblem hDescribes hShort hHeights hExact _

theorem Regular.outputsOf_faults (h : problem.Regular inputs) (hProblem : problem.WellFormed)
    (node : Nat) : FaultsAre Error.IsMismatch (problem.outputsOf inputs node) := by
  unfold outputsOf
  split
  · rename_i layout hLookup
    have hLayout : layoutAt inputs node = some layout := hLookup
    refine .mapM fun edge hEdge => ?_
    have hApply := FrameLayout.apply_faults (hProblem.voidFree (h.isLive hLayout) hEdge)
      fun _ => (h.needed hLayout hEdge).values.words_le
    exact hApply.map fun _ _ => trivial
  · exact .ok trivial

/-- A flow graph has a problem, unless the effect of an edge is not known. -/
theorem ofFlow_faults :
    FaultsAre (fun error => ∃ node target, flow.IsLive node ∧ flow.graph.Adj node target ∧
      flow.effectBetween locals node target = .error error) (ofFlow flow locals) := by
  refine Yields.bind (.mapM fun node _ => ?_) fun effects _ _ => .pure _
  split
  · rename_i hLive
    refine .mapM fun target hTarget => Yields.map (R := fun _ => True) ?_ fun _ _ => trivial
    exact (Yields.self _).weaken fun error hError =>
      ⟨node, target, (isLive_ofFn rfl).mp hLive, Digraph.mem_successors.mp hTarget, hError⟩
  · exact .pure _

end FrameProblem

namespace FlowGraph

variable {method : MethodId} {instructions : List Instruction} {handlers : List HandlerRange}
  {settings : Settings} {flow : FlowGraph} {locals : VariableTable}

/-- Once the effects of all edges are known, the stack frames fail with a mismatch only. -/
theorem OnlyRunsShort.stackFrames_faults (h : flow.OnlyRunsShort locals)
    (hShape : flow.WellShaped) {problem : FrameProblem}
    (hProblem : FrameProblem.ofFlow flow locals = .ok problem) :
    FaultsAre Error.IsMismatch (flow.stackFrames locals) := by
  have hDescribes := FrameProblem.ofFlow_describes hProblem
  have hWellFormed := hDescribes.wellFormed hShape
  unfold stackFrames
  rw [hProblem]
  refine (FrameProblem.solve_faults hWellFormed hDescribes hShape h).bind fun search hSearch _ => ?_
  have hRegular := (FrameProblem.solve_spec hWellFormed hSearch).1.regular
  refine Yields.bind (.mapM fun node _ => ?_) fun outputs _ _ => .pure _
  exact hRegular.outputsOf_faults hWellFormed node

/-- The results at the ends of the edges follow from those at their starts. -/
def Follows (flow : FlowGraph) (locals : VariableTable) (results : Nat → Except Error TypeStack) :
    Prop :=
  results flow.entry = .ok [] ∧ ∀ edge ∈ flow.graph.edges, results edge.target = (do
    let stack ← results edge.source
    let effect ← flow.effectBetween locals edge.source edge.target
    (TypeStack.apply stack effect).mapError StackFault.error)

instance (results : Nat → Except Error TypeStack) : Decidable (flow.Follows locals results) :=
  inferInstanceAs (Decidable (_ ∧ _))

/-- Then they are what the paths leave. -/
theorem Follows.simulate_eq {results : Nat → Except Error TypeStack}
    (h : flow.Follows locals results) {node : Nat} {nodes : List Nat}
    (hPath : flow.graph.Path flow.entry node nodes) :
    flow.simulate locals (nodes.zip nodes.tail) = results node := by
  induction hPath using Digraph.Path.snoc_induction with
  | single _ => exact h.1.symm
  | snoc hPath hAdj ih =>
    obtain ⟨edge, hEdge, rfl, rfl⟩ := hAdj
    rw [hPath.zip_tail_snoc, simulate_append, ih, h.2 edge hEdge]

theorem Follows.onlyRunsShort {results : Nat → Except Error TypeStack}
    (h : flow.Follows locals results)
    (hResults : ∀ node, FaultsAre (fun error => ∃ needed available,
      error = .stackUnderflow needed available) (results node)) :
    flow.OnlyRunsShort locals := by
  constructor
  · intro node nodes hPath
    rw [h.simulate_eq hPath]
    cases hResult : results node with
    | ok stack => exact Or.inl ⟨stack, rfl⟩
    | error error =>
      obtain ⟨needed, available, rfl⟩ := (hResults node).of_eq_error hResult
      exact Or.inr ⟨needed, available, rfl⟩
  · rintro node a b - ⟨_, hPath, hA⟩ ⟨_, hPath', hB⟩
    rw [h.simulate_eq hPath] at hA
    rw [h.simulate_eq hPath', hA] at hB
    exact Except.ok.inj hB

/-- **A shortage is reported as a mismatch.** Suppose that simulated paths fail only by running out
of words, that one of them does, and that all paths to an instruction leave the same stack before
it. Then the stack frames cannot be computed, and the error is never that the stack runs short: it
is a mismatch, or where the effect of a reachable instruction is not known, the fault of its
descriptor. -/
theorem shortage_is_mismatch (hBuild : build method instructions handlers settings = .ok flow)
    (hShort : flow.OnlyRunsShort locals)
    (hFails : ∃ node nodes, flow.graph.Path flow.entry node nodes ∧
      ∀ stack, flow.simulate locals (nodes.zip nodes.tail) ≠ .ok stack) :
    ((∀ node target, flow.IsLive node → flow.graph.Adj node target →
        ∃ effect, flow.effectBetween locals node target = .ok effect) ∧
      ∃ expected found, flow.stackFrames locals = .error (.stackMismatch expected found)) ∨
    ∃ node target descriptor cause, flow.IsLive node ∧ flow.graph.Adj node target ∧
      flow.effectBetween locals node target = .error (.malformedDescriptor descriptor cause) ∧
      flow.stackFrames locals = .error (.malformedDescriptor descriptor cause) := by
  have hShape := build_wellShaped hBuild
  cases hProblem : FrameProblem.ofFlow flow locals with
  | error error =>
    obtain ⟨node, target, hLive, hAdj, hEffect⟩ := FrameProblem.ofFlow_faults.of_eq_error hProblem
    obtain ⟨descriptor, cause, rfl⟩ := (effectBetween_faults node target).of_eq_error hEffect
    refine Or.inr ⟨node, target, descriptor, cause, hLive, hAdj, hEffect, ?_⟩
    rw [stackFrames, hProblem]
    rfl
  | ok problem =>
    refine Or.inl ⟨fun node target => (FrameProblem.ofFlow_describes hProblem).exists_effect, ?_⟩
    cases hFrames : flow.stackFrames locals with
    | error error =>
      have hFaults := hShort.stackFrames_faults hShape hProblem
      obtain ⟨expected, found, rfl⟩ := hFaults.of_eq_error hFrames
      exact ⟨expected, found, rfl⟩
    | ok frames =>
      -- frames would let every path be simulated
      obtain ⟨-, family, hFamily, -⟩ := exists_frameSolution hShape hFrames
      obtain ⟨node, nodes, hPath, hStuck⟩ := hFails
      obtain ⟨stack, hStack, -⟩ := hFamily.simulate_fits hShape hPath
      exact absurd hStack (hStuck stack)

/-- A loop over an empty stack, which is left towards an instruction that copies two words. -/
def spill : List Instruction :=
  let method : MethodId := ⟨"Spill", "run", "(Z)V"⟩
  [⟨method, 0, "0", .load .int 0, none⟩, ⟨method, 1, "1", .branch .equal 5, none⟩,
    ⟨method, 2, "2", .constant (.long 1), none⟩, ⟨method, 3, "3", .shuffle .pop2, none⟩,
    ⟨method, 4, "4", .goto 0, none⟩, ⟨method, 5, "5", .shuffle .dup2, none⟩,
    ⟨method, 6, "6", .leave none, none⟩]

/-- The stacks before the instructions of the loop, and what happens behind it. -/
def spillResults : Nat → Except Error TypeStack
  | 2 => .ok [.int]
  | 4 => .ok [.long]
  | 7 | 8 => .error (.stackUnderflow 2 0)
  | _ => .ok []

/-- The branch that leads to the copy holds one word, where the copy would need two more. -/
theorem shortage_is_mismatch_spill :
    ∃ flow, build ⟨"Spill", "run", "(Z)V"⟩ spill [] {} = .ok flow ∧ flow.OnlyRunsShort [] ∧
      (∃ node nodes, flow.graph.Path flow.entry node nodes ∧
        ∀ stack, flow.simulate [] (nodes.zip nodes.tail) ≠ .ok stack) ∧
      ∃ expected found, flow.stackFrames [] = .error (.stackMismatch expected found) := by
  have hRun : (build ⟨"Spill", "run", "(Z)V"⟩ spill [] {}).map (fun flow =>
      decide (flow.Follows [] spillResults ∧ flow.graph.hasPath flow.entry 7 = true ∧
        ∀ edge ∈ flow.graph.edges,
          (flow.effectBetween [] edge.source edge.target).isOk = true)) = .ok true := by
    decide +kernel
  obtain ⟨flow, hBuild, hChecks⟩ := map_eq_ok.mp hRun
  obtain ⟨hFollows, hPath, hEffects⟩ := of_decide_eq_true hChecks
  obtain ⟨nodes, hPath⟩ := Digraph.hasPath_iff.mp hPath
  have hShort := hFollows.onlyRunsShort fun node => by
    unfold spillResults
    split
    case h_3 => exact .error ⟨2, 0, rfl⟩
    case h_4 => exact .error ⟨2, 0, rfl⟩
    all_goals exact .ok trivial
  have hFails : ∃ node nodes, flow.graph.Path flow.entry node nodes ∧
      ∀ stack, flow.simulate [] (nodes.zip nodes.tail) ≠ .ok stack := by
    refine ⟨7, nodes, hPath, fun stack hStack => ?_⟩
    cases (hFollows.simulate_eq hPath).symm.trans hStack
  refine ⟨flow, hBuild, hShort, hFails, ?_⟩
  rcases shortage_is_mismatch hBuild hShort hFails with ⟨-, hMismatch⟩ |
      ⟨node, target, descriptor, cause, -, ⟨edge, hEdge, rfl, rfl⟩, hEffect, -⟩
  · exact hMismatch
  · have hOk := hEffects edge hEdge
    rw [hEffect] at hOk
    cases hOk

/-- A method that drops a word of the empty stack. -/
def emptyDrop : List Instruction :=
  let method : MethodId := ⟨"com/example/Foo", "drop", "()V"⟩
  [⟨method, 0, "0", .shuffle .pop, none⟩, ⟨method, 1, "1", .leave none, none⟩]

def emptyDropResults (node : Nat) : Except Error TypeStack :=
  if node < 2 then .ok [] else .error (.stackUnderflow 1 0)

/-- So a shortage is not reported as one. -/
theorem not_shortage_is_underflow :
    ¬ ∀ (method : MethodId) (instructions : List Instruction) (handlers : List HandlerRange)
      (settings : Settings) (flow : FlowGraph) (locals : VariableTable),
      build method instructions handlers settings = .ok flow → flow.OnlyRunsShort locals →
      (∃ node nodes, flow.graph.Path flow.entry node nodes ∧
        ∀ stack, flow.simulate locals (nodes.zip nodes.tail) ≠ .ok stack) →
      ∃ needed available, flow.stackFrames locals = .error (.stackUnderflow needed available) := by
  intro h
  have hRun : (build ⟨"com/example/Foo", "drop", "()V"⟩ emptyDrop [] {}).map (fun flow =>
      (decide (flow.Follows [] emptyDropResults), flow.graph.hasPath flow.entry 2,
        (flow.stackFrames []).map fun frames => frames.visits)) =
      .ok (true, true, .error (.stackMismatch "[]" "[.., any]")) := by
    decide +kernel
  obtain ⟨flow, hBuild, hChecks⟩ := map_eq_ok.mp hRun
  simp only [Prod.mk.injEq, decide_eq_true_eq] at hChecks
  obtain ⟨hFollows, hPath, hFrames⟩ := hChecks
  obtain ⟨nodes, hPath⟩ := Digraph.hasPath_iff.mp hPath
  have hShort := hFollows.onlyRunsShort fun node => by
    unfold emptyDropResults
    split
    · exact .ok trivial
    · exact .error ⟨1, 0, rfl⟩
  obtain ⟨needed, available, hShortage⟩ := h _ _ _ _ flow [] hBuild hShort
    ⟨2, nodes, hPath, fun stack hStack => by cases (hFollows.simulate_eq hPath).symm.trans hStack⟩
  rw [hShortage] at hFrames
  cases hFrames

end FlowGraph

end BytecodeFlow
