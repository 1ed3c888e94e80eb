import BytecodeFlow.Proofs.FrameSearch

/-!
# The search stays below every solution

A solution is a family of exact layouts that meets all demands along the edges of the problem. Below
a solution the search cannot fail: what a layout below it demands is below it again, and demands
with a common upper bound have a join below that bound. So every visit succeeds and stays below the
solution (`Bounded.visit`), and with it the whole search (`Solution.solve_bounded`).

An exact layout is not extended before an effect is reverted on it. What makes the reversal succeed
is that the layout has received what all its predecessors leave, which `Bounded.left` records.
-/

namespace BytecodeFlow.FrameProblem

/-- A family of layouts that solves the edges between live nodes, and that the edges to the exit can
be applied to. -/
structure Solution (problem : FrameProblem) (family : Nat → FrameLayout) : Prop where
  entry : family problem.entry = FrameLayout.exactly []
  exact : ∀ {node : Nat}, problem.isLive node = true → (family node).isExact = true
  voidFree : ∀ {node : Nat}, problem.isLive node = true → (family node).VoidFree
  needed : ∀ {node : Nat} {edge : EffectEdge}, problem.isLive node = true →
    edge ∈ problem.effectsOf node → (FrameLayout.minimalBefore edge.effect).Below (family node)
  applies : ∀ {node : Nat} {edge : EffectEdge}, problem.isLive node = true →
    edge ∈ problem.effectsOf node → ∃ after, (family node).apply edge.effect = .ok after
  solved : ∀ {node : Nat} {edge : EffectEdge}, problem.isLive node = true →
    edge ∈ problem.effectsOf node → problem.isLive edge.target = true →
    FrameLayout.Solved edge.effect (family node) (family edge.target)

/-- The layouts are below a family, and the exact ones have received what the edges to them
leave. -/
structure Bounded (problem : FrameProblem) (family : Nat → FrameLayout)
    (inputs : Array (Option FrameLayout)) : Prop where
  below : ∀ {node : Nat} {layout : FrameLayout}, layoutAt inputs node = some layout →
    layout.Below (family node)
  left : ∀ {source node : Nat} {layout : FrameLayout} {effect : StackEffect},
    layoutAt inputs node = some layout → layout.isExact = true →
    problem.isLive source = true → ⟨node, effect⟩ ∈ problem.effectsOf source →
    (FrameLayout.minimalAfter effect).Below layout

variable {problem : FrameProblem} {family : Nat → FrameLayout}
  {inputs : Array (Option FrameLayout)} {node : Nat} {layout : FrameLayout}

/-! ## Visits -/

/-- A layout below a solution is above what its instruction needs. -/
theorem Bounded.needed_below (h : problem.Bounded family inputs)
    (hSolution : problem.Solution family) (hRegular : problem.Regular inputs)
    (hLayout : layoutAt inputs node = some layout) {edge : EffectEdge}
    (hEdge : edge ∈ problem.effectsOf node) :
    (FrameLayout.minimalBefore edge.effect).Below layout :=
  (hRegular.needed hLayout hEdge).below_of_below
    (hSolution.needed (hRegular.isLive hLayout) hEdge) (h.below hLayout)

theorem Bounded.demand_below (h : problem.Bounded family inputs) (hProblem : problem.WellFormed)
    (hSolution : problem.Solution family) (hRegular : problem.Regular inputs)
    (hLive : problem.isLive node = true) {demand : Except Error FrameLayout}
    (hDemand : demand ∈ problem.demands inputs node) :
    ∃ b, demand = .ok b ∧ b.Below (family node) := by
  rcases (mem_demands hProblem).mp hDemand with
    ⟨source, effect, before, hSource, hEdge, hBefore, rfl⟩ | ⟨edge, hEdge, after, hAfter, rfl⟩
  · exact (hSolution.solved hSource hEdge hLive).apply_below (hProblem.voidFree hSource hEdge)
      (hRegular.voidFree hBefore) (h.below hBefore)
      fun _ => h.needed_below hSolution hRegular hBefore hEdge
  · have hTarget := hRegular.isLive hAfter
    exact (hSolution.solved hLive hEdge hTarget).revert_below (hProblem.voidFree hLive hEdge)
      (hRegular.voidFree hAfter) (h.below hAfter)
      fun hExact => h.left hAfter hExact hLive hEdge

/-- A visit below a solution succeeds, and the new layout is below the solution. -/
theorem Bounded.refine_below (h : problem.Bounded family inputs) (hProblem : problem.WellFormed)
    (hSolution : problem.Solution family) (hRegular : problem.Regular inputs)
    (hLayout : layoutAt inputs node = some layout) :
    ∃ refined, problem.refine inputs node layout = .ok refined ∧ refined.Below (family node) ∧
      ∀ {source : Nat} {effect : StackEffect}, problem.isLive source = true →
        ⟨node, effect⟩ ∈ problem.effectsOf source →
        (FrameLayout.minimalAfter effect).Below refined := by
  have hLive := hRegular.isLive hLayout
  obtain ⟨refined, hFold, hBelow⟩ := FrameLayout.foldlM_merge_below (h.below hLayout)
    fun demand hDemand => h.demand_below hProblem hSolution hRegular hLive hDemand
  rw [← refine_eq_foldlM] at hFold
  refine ⟨refined, hFold, hBelow, fun {source effect} hSource hEdge => ?_⟩
  obtain ⟨before, hBefore⟩ := hRegular.exists_layout hSource
  obtain ⟨-, -, hDemands⟩ := hRegular.refine_beneath hProblem hLayout hFold
  obtain ⟨b, hApply, hBeneath⟩ := hDemands _
    ((mem_demands hProblem).mpr (Or.inl ⟨source, effect, before, hSource, hEdge, hBefore, rfl⟩))
  have hEffect := hProblem.voidFree hSource hEdge
  have hLeft := FrameLayout.minimalAfter_below_of_apply hEffect (hRegular.voidFree hBefore) hApply
  exact (hLeft.beneath.trans hBeneath).below_of_below
    ((hSolution.solved hSource hEdge hLive).minimalAfter_below hEffect) hBelow

variable {search : FrameSearch} {agenda : List Nat}

theorem Bounded.visit (h : problem.Bounded family search.inputs) (hProblem : problem.WellFormed)
    (hSolution : problem.Solution family) (hSearch : problem.Invariant search)
    (hAgenda : search.agenda = node :: agenda) :
    ∃ next, problem.visit search node agenda = .ok next ∧ problem.Bounded family next.inputs := by
  have hRegular := hSearch.regular
  have hLive : problem.isLive node = true := hSearch.agenda_live node (by simp [hAgenda])
  obtain ⟨layout, hLayout⟩ := hRegular.exists_layout hLive
  obtain ⟨refined, hRefine, hBelow, hLeft⟩ := h.refine_below hProblem hSolution hRegular hLayout
  obtain ⟨next, hVisit⟩ : ∃ next, problem.visit search node agenda = .ok next :=
    visit_succeeds hLayout hRefine
  obtain ⟨_, _, hVisited⟩ := hSearch.visited hProblem hAgenda hVisit
  obtain rfl := Option.some.inj (hLayout.symm.trans hVisited.layout_eq)
  obtain rfl := Except.ok.inj (hRefine.symm.trans hVisited.refine_eq)
  refine ⟨next, hVisit, fun hk => ?_, fun hk hExact hSource hEdge => ?_⟩
  · rw [hVisited.layoutAt_eq] at hk
    split at hk
    · rename_i hNode
      cases hk
      rw [hNode]
      exact hBelow
    · exact h.below hk
  · rw [hVisited.layoutAt_eq] at hk
    split at hk
    · rename_i hNode
      cases hk
      subst hNode
      exact hLeft hSource hEdge
    · exact h.left hk hExact hSource hEdge

theorem Bounded.run (h : problem.Bounded family search.inputs) (hProblem : problem.WellFormed)
    (hSolution : problem.Solution family) (hSearch : problem.Invariant search) (fuel : Nat) :
    ∃ next, problem.run fuel search = .ok next ∧ problem.Bounded family next.inputs := by
  induction fuel generalizing search with
  | zero => exact ⟨search, rfl, h⟩
  | succ fuel ih =>
    cases hAgenda : search.agenda with
    | nil => exact ⟨search, run_of_nil hAgenda _, h⟩
    | cons node agenda =>
      obtain ⟨middle, hVisit, hMiddle⟩ := h.visit hProblem hSolution hSearch hAgenda
      obtain ⟨next, hRun, hNext⟩ := ih hMiddle (hSearch.visit hProblem hAgenda hVisit)
      rw [run_succ_of_cons hAgenda]
      exact ⟨next, bind_eq_ok.mpr ⟨middle, hVisit, hRun⟩, hNext⟩

/-! ## The whole search -/

theorem Solution.minimalInput_below (h : problem.Solution family)
    (hLive : problem.isLive node = true) :
    ∃ layout, problem.minimalInput node = .ok layout ∧ layout.Below (family node) := by
  rw [minimalInput_eq_foldlM]
  refine FrameLayout.foldlM_merge_below ⟨.nil _, fun hExact => by cases hExact⟩ ?_
  intro demand hDemand
  obtain ⟨edge, hEdge, rfl⟩ := List.mem_map.mp hDemand
  exact ⟨_, rfl, h.needed hLive hEdge⟩

theorem Solution.start_bounded (h : problem.Solution family) (hProblem : problem.WellFormed) :
    ∃ search, problem.start = .ok search ∧ problem.Bounded family search.inputs := by
  obtain ⟨table, hTable⟩ : ∃ table, problem.graph.nodeIds.mapM (fun node =>
      if problem.isLive node then some <$> problem.minimalInput node else pure none) =
      .ok table := by
    refine mapM_succeeds fun node _ => ?_
    split
    · rename_i hLive
      obtain ⟨layout, hMinimal, -⟩ := h.minimalInput_below hLive
      exact ⟨_, map_eq_ok.mpr ⟨layout, hMinimal, rfl⟩⟩
    · exact ⟨none, rfl⟩
  have hInputs : problem.initialInputs = .ok (table.toArray.setIfInBounds problem.entry
      (some (FrameLayout.exactly []))) := bind_eq_ok.mpr ⟨table, hTable, rfl⟩
  have hRegular := regular_initialInputs hProblem hInputs
  obtain ⟨-, hEntry, -, hMinimal⟩ := initialInputs_eq_ok hProblem hInputs
  refine ⟨_, bind_eq_ok.mpr ⟨_, hInputs, rfl⟩, fun {node layout} hLayout => ?_,
    fun {source node layout effect} hLayout hExact hSource hEdge => ?_⟩
  · by_cases hNode : node = problem.entry
    · subst hNode
      obtain rfl := Option.some.inj (hEntry.symm.trans hLayout)
      rw [h.entry]
      exact .refl _
    · obtain ⟨minimal, hOk, hLookup⟩ := hMinimal node hNode (hRegular.isLive hLayout)
      obtain rfl := Option.some.inj (hLookup.symm.trans hLayout)
      obtain ⟨_, hOk', hBelow⟩ := h.minimalInput_below (hRegular.isLive hLayout)
      obtain rfl := Except.ok.inj (hOk.symm.trans hOk')
      exact hBelow
  · -- only the entry is exact, and no edge leads there
    have hAdj := hProblem.adj hSource hEdge
    have hNode : node ≠ problem.entry := by
      rintro rfl
      exact hProblem.entry_first hAdj
    have hLive := hRegular.isLive hLayout
    obtain ⟨minimal, hOk, hLookup⟩ := hMinimal node hNode hLive
    obtain rfl := Option.some.inj (hLookup.symm.trans hLayout)
    rw [(minimalInput_spec hProblem hLive hOk).2.1] at hExact
    cases hExact

/-- If there is a solution, then the search succeeds and ends below it. -/
theorem Solution.solve_bounded (h : problem.Solution family) (hProblem : problem.WellFormed) :
    ∃ search, problem.solve = .ok search ∧ problem.Bounded family search.inputs := by
  obtain ⟨first, hStart, hFirst⟩ := h.start_bounded hProblem
  have hFirstInvariant := invariant_start hProblem hStart
  obtain ⟨swept, hSweep, hSwept⟩ := hFirst.run hProblem h hFirstInvariant problem.sweep.length
  obtain ⟨search, hRun, hSearch⟩ :=
    hSwept.run hProblem h (hFirstInvariant.run hProblem hSweep) swept.visitBound
  exact ⟨search, bind_eq_ok.mpr ⟨first, hStart, bind_eq_ok.mpr ⟨swept, hSweep, hRun⟩⟩, hSearch⟩

end BytecodeFlow.FrameProblem
