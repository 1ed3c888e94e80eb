import BytecodeFlow.Proofs.FrameProblem

/-!
# Steps of the search for stack frames

A visit to a node joins to its layout what the neighbours of the node demand of it (`demands`), and
`Visited` says all that it does to the search. The search keeps three things up, whatever node it
visits (`Invariant.visit`): the layouts stay above what the instructions need, the agenda holds live
nodes and none of them twice, and every live node that is not on the agenda is stable, that is, it
meets the demands of its neighbours with exact layouts. A changed node meets the demands that were
joined to it, unless it is a neighbour of itself, and then it is on the agenda again.
-/

namespace BytecodeFlow.FrameProblem

variable {problem : FrameProblem} {inputs : Array (Option FrameLayout)} {node : Nat}
  {layout refined : FrameLayout}

/-- The layout of a node. -/
def layoutAt (inputs : Array (Option FrameLayout)) (node : Nat) : Option FrameLayout :=
  inputs[node]?.getD none

theorem layoutAt_setIfInBounds (h : node < inputs.size) (k : Nat) :
    layoutAt (inputs.setIfInBounds node (some refined)) k =
      if k = node then some refined else layoutAt inputs k := by
  unfold layoutAt
  rw [Array.getElem?_setIfInBounds]
  by_cases hk : k = node
  · simp [hk, h]
  · simp [hk, Ne.symm hk]

/-! ## Demands -/

/-- What a predecessor leaves for a node. -/
def demandBefore (problem : FrameProblem) (inputs : Array (Option FrameLayout))
    (node source : Nat) : Option (Except Error FrameLayout) :=
  match layoutAt inputs source, problem.effect? source node with
  | some before, some effect => some (before.apply effect)
  | _, _ => none

/-- What the end of an edge asks of its start. -/
def demandAfter (inputs : Array (Option FrameLayout)) (edge : EffectEdge) :
    Option (Except Error FrameLayout) :=
  (layoutAt inputs edge.target).map fun after => after.revert edge.effect

/-- All that the neighbours of a node demand of it. -/
def demands (problem : FrameProblem) (inputs : Array (Option FrameLayout)) (node : Nat) :
    List (Except Error FrameLayout) :=
  ((problem.graph.predecessors node).filter problem.isLive).filterMap
      (problem.demandBefore inputs node) ++
    (problem.effectsOf node).filterMap (demandAfter inputs)

/-- What the live predecessors of a node leave for it. -/
def demandsBefore (problem : FrameProblem) (inputs : Array (Option FrameLayout)) (node : Nat) :
    List (Except Error FrameLayout) :=
  ((problem.graph.predecessors node).filter problem.isLive).filterMap
    (problem.demandBefore inputs node)

/-- What the ends of its edges ask of a node. -/
def demandsAfter (problem : FrameProblem) (inputs : Array (Option FrameLayout)) (node : Nat) :
    List (Except Error FrameLayout) :=
  (problem.effectsOf node).filterMap (demandAfter inputs)

theorem demands_eq : problem.demands inputs node =
    problem.demandsBefore inputs node ++ problem.demandsAfter inputs node :=
  rfl

/-- A pass that joins what each item demands, where it demands something. -/
theorem foldlM_join {α : Type} (demand : α → Option (Except Error FrameLayout))
    {join : FrameLayout → α → Except Error FrameLayout}
    (hSome : ∀ layout item d, demand item = some d → join layout item = do layout.merge (← d))
    (hNone : ∀ layout item, demand item = none → join layout item = .ok layout)
    (items : List α) (layout : FrameLayout) :
    items.foldlM join layout =
      (items.filterMap demand).foldlM (fun layout demand => do layout.merge (← demand)) layout := by
  induction items generalizing layout with
  | nil => rfl
  | cons item items ih =>
    rw [List.foldlM_cons]
    cases hDemand : demand item with
    | none =>
      rw [hNone layout item hDemand, List.filterMap_cons_none hDemand]
      exact ih layout
    | some d =>
      rw [hSome layout item d hDemand, List.filterMap_cons_some hDemand, List.foldlM_cons]
      exact bind_congr fun next => ih next

/-- A visit joins the demands to the layout, one after the other. -/
theorem refine_eq_foldlM : problem.refine inputs node layout =
    (problem.demands inputs node).foldlM (fun layout demand => do layout.merge (← demand))
      layout := by
  unfold refine demands
  rw [List.foldlM_append, foldlM_join (problem.demandBefore inputs node)]
  · refine bind_congr fun next => foldlM_join _ ?_ ?_ _ next
    · intro layout edge demand hDemand
      unfold demandAfter layoutAt at hDemand
      unfold joinAfter
      cases hAfter : inputs[edge.target]?.getD none <;> simp_all
    · intro layout edge hDemand
      unfold demandAfter layoutAt at hDemand
      unfold joinAfter
      cases hAfter : inputs[edge.target]?.getD none <;> simp_all
  · intro layout source demand hDemand
    unfold demandBefore layoutAt at hDemand
    unfold joinBefore
    cases hBefore : inputs[source]?.getD none <;>
      cases hEffect : problem.effect? source node <;> simp_all
  · intro layout source hDemand
    unfold demandBefore layoutAt at hDemand
    unfold joinBefore
    cases hBefore : inputs[source]?.getD none <;>
      cases hEffect : problem.effect? source node <;> simp_all

theorem mem_demandsBefore (hProblem : problem.WellFormed) {demand : Except Error FrameLayout} :
    demand ∈ problem.demandsBefore inputs node ↔
      ∃ source effect before, problem.isLive source = true ∧
        ⟨node, effect⟩ ∈ problem.effectsOf source ∧ layoutAt inputs source = some before ∧
        demand = before.apply effect := by
  rw [demandsBefore, List.mem_filterMap]
  constructor
  · rintro ⟨source, hSource, hDemand⟩
    obtain ⟨hPred, hLive⟩ := List.mem_filter.mp hSource
    obtain ⟨effect, hEdge⟩ := hProblem.exists_edge hLive (Digraph.mem_predecessors.mp hPred)
    have hEffect := hProblem.effect?_eq hLive hEdge
    unfold demandBefore at hDemand
    cases hBefore : layoutAt inputs source with
    | none => simp [hBefore] at hDemand
    | some before =>
      rw [hBefore, hEffect] at hDemand
      exact ⟨source, effect, before, hLive, hEdge, hBefore, (Option.some.inj hDemand).symm⟩
  · rintro ⟨source, effect, before, hLive, hEdge, hBefore, rfl⟩
    have hPred := Digraph.mem_predecessors.mpr (hProblem.adj hLive hEdge)
    have hEffect := hProblem.effect?_eq hLive hEdge
    refine ⟨source, List.mem_filter.mpr ⟨hPred, hLive⟩, ?_⟩
    unfold demandBefore
    rw [hBefore, hEffect]

theorem mem_demandsAfter {demand : Except Error FrameLayout} :
    demand ∈ problem.demandsAfter inputs node ↔
      ∃ edge ∈ problem.effectsOf node, ∃ after, layoutAt inputs edge.target = some after ∧
        demand = after.revert edge.effect := by
  simp only [demandsAfter, List.mem_filterMap, demandAfter, Option.map_eq_some_iff]
  exact exists_congr fun edge => and_congr_right fun _ => exists_congr fun after =>
    and_congr_right fun _ => eq_comm

/-- The demands come from live predecessors and from the ends of edges. -/
theorem mem_demands (hProblem : problem.WellFormed) {demand : Except Error FrameLayout} :
    demand ∈ problem.demands inputs node ↔
      (∃ source effect before, problem.isLive source = true ∧
        ⟨node, effect⟩ ∈ problem.effectsOf source ∧ layoutAt inputs source = some before ∧
        demand = before.apply effect) ∨
      ∃ edge ∈ problem.effectsOf node, ∃ after, layoutAt inputs edge.target = some after ∧
        demand = after.revert edge.effect := by
  rw [demands_eq, List.mem_append, mem_demandsBefore hProblem, mem_demandsAfter]

/-! ## Tables of layouts -/

theorem WellFormed.lt_size (hProblem : problem.WellFormed) (hLive : problem.isLive node = true) :
    node < problem.graph.size := by
  obtain ⟨nodes, hPath⟩ := hProblem.reaches hLive
  exact hPath.target_lt

/-- A table with a layout for every live node, above what its instruction needs. -/
structure Regular (problem : FrameProblem) (inputs : Array (Option FrameLayout)) : Prop where
  size_eq : inputs.size = problem.graph.size
  isSome_iff : ∀ node, (layoutAt inputs node).isSome = true ↔ problem.isLive node = true
  voidFree : ∀ {node : Nat} {layout : FrameLayout}, layoutAt inputs node = some layout →
    layout.VoidFree
  entry : layoutAt inputs problem.entry = some (FrameLayout.exactly [])
  needed : ∀ {node : Nat} {layout : FrameLayout} {edge : EffectEdge},
    layoutAt inputs node = some layout → edge ∈ problem.effectsOf node →
    (FrameLayout.minimalBefore edge.effect).Beneath layout

theorem Regular.exists_layout (h : problem.Regular inputs) (hLive : problem.isLive node = true) :
    ∃ layout, layoutAt inputs node = some layout :=
  Option.isSome_iff_exists.mp ((h.isSome_iff node).mpr hLive)

theorem Regular.isLive (h : problem.Regular inputs) (hLayout : layoutAt inputs node = some layout) :
    problem.isLive node = true :=
  (h.isSome_iff node).mp (by rw [hLayout]; rfl)

theorem Regular.voidFree_demands (h : problem.Regular inputs) (hProblem : problem.WellFormed)
    (hLive : problem.isLive node = true) :
    ∀ demand ∈ problem.demands inputs node, ∀ b, demand = .ok b → b.VoidFree := by
  intro demand hDemand b hOk
  rcases (mem_demands hProblem).mp hDemand with
      ⟨source, effect, before, hSource, hEdge, hBefore, rfl⟩ | ⟨edge, hEdge, after, hAfter, rfl⟩
  · exact FrameLayout.apply_voidFree (hProblem.voidFree hSource hEdge) (h.voidFree hBefore) hOk
  · exact FrameLayout.revert_voidFree (hProblem.voidFree hLive hEdge) (h.voidFree hAfter) hOk

/-- A refined layout is above the old one and above all demands. -/
theorem Regular.refine_beneath (h : problem.Regular inputs) (hProblem : problem.WellFormed)
    (hLayout : layoutAt inputs node = some layout)
    (hRefine : problem.refine inputs node layout = .ok refined) :
    layout.Beneath refined ∧ refined.VoidFree ∧
      ∀ demand ∈ problem.demands inputs node, ∃ b, demand = .ok b ∧ b.Beneath refined := by
  rw [refine_eq_foldlM] at hRefine
  exact FrameLayout.foldlM_merge_beneath (h.voidFree hLayout)
    (h.voidFree_demands hProblem (h.isLive hLayout)) hRefine

/-! ## Visits -/

variable {search next : FrameSearch} {agenda : List Nat}

/-- A visit to `node` turns its layout into `refined` and leaves all others alone. With a change the
neighbours of the node come back on the agenda. -/
structure Visited (problem : FrameProblem) (search : FrameSearch) (node : Nat) (agenda : List Nat)
    (layout refined : FrameLayout) (next : FrameSearch) : Prop where
  layout_eq : layoutAt search.inputs node = some layout
  refine_eq : problem.refine search.inputs node layout = .ok refined
  size_eq : next.inputs.size = search.inputs.size
  layoutAt_eq : ∀ k, layoutAt next.inputs k =
    if k = node then some refined else layoutAt search.inputs k
  agenda_eq : next.agenda = if refined = layout then agenda
    else agenda ++ Traversal.unseen agenda (problem.neighbours node)

theorem visit_eq_ok (hNode : node < search.inputs.size)
    (hLayout : layoutAt search.inputs node = some layout)
    (h : problem.visit search node agenda = .ok next) :
    ∃ refined, problem.Visited search node agenda layout refined next := by
  have hLookup : search.inputs[node]?.getD none = some layout := hLayout
  unfold visit at h
  simp only [hLookup] at h
  obtain ⟨refined, hRefine, hNext⟩ := bind_eq_ok.mp h
  by_cases hSame : refined = layout
  · rw [if_pos hSame] at hNext
    cases hNext
    refine ⟨refined, hLayout, hRefine, rfl, fun k => ?_, by rw [if_pos hSame]⟩
    split
    · rename_i hk
      rw [hk, hSame]
      exact hLayout
    · rfl
  · rw [if_neg hSame] at hNext
    cases hNext
    exact ⟨refined, hLayout, hRefine, by simp, layoutAt_setIfInBounds hNode, by rw [if_neg hSame]⟩

theorem visit_succeeds (hLayout : layoutAt search.inputs node = some layout)
    (hRefine : problem.refine search.inputs node layout = .ok refined) :
    ∃ next, problem.visit search node agenda = .ok next := by
  have hLookup : search.inputs[node]?.getD none = some layout := hLayout
  unfold visit
  simp only [hLookup, hRefine, bind, Except.bind]
  split <;> exact ⟨_, rfl⟩

theorem mem_neighbours {k : Nat} : k ∈ problem.neighbours node ↔
    (problem.graph.Adj k node ∨ problem.graph.Adj node k) ∧ problem.isLive k = true := by
  simp only [neighbours, List.mem_filter, List.mem_append, Digraph.mem_predecessors,
    Digraph.mem_successors]

theorem Visited.mem_agenda (h : problem.Visited search node agenda layout refined next) {k : Nat} :
    k ∈ next.agenda ↔ k ∈ agenda ∨ refined ≠ layout ∧ k ∈ problem.neighbours node := by
  rw [h.agenda_eq]
  split
  · rename_i hSame
    simp [hSame]
  · rename_i hChanged
    rw [List.mem_append, Traversal.mem_unseen]
    by_cases hOld : k ∈ agenda <;> simp [hOld, hChanged]

theorem Visited.nodup_agenda (h : problem.Visited search node agenda layout refined next)
    (hNodup : agenda.Nodup) : next.agenda.Nodup := by
  rw [h.agenda_eq]
  split
  · exact hNodup
  · refine List.nodup_append.mpr ⟨hNodup, Traversal.nodup_unseen, ?_⟩
    rintro k hk _ hk' rfl
    exact (Traversal.mem_unseen.mp hk').2 hk

theorem Visited.regular (h : problem.Visited search node agenda layout refined next)
    (hProblem : problem.WellFormed) (hRegular : problem.Regular search.inputs) :
    problem.Regular next.inputs := by
  obtain ⟨hBeneath, hVoid, -⟩ := hRegular.refine_beneath hProblem h.layout_eq h.refine_eq
  refine ⟨h.size_eq.trans hRegular.size_eq, fun k => ?_, ?_, ?_, ?_⟩
  · rw [h.layoutAt_eq]
    split
    · rename_i hk
      simp [hk, hRegular.isLive h.layout_eq]
    · exact hRegular.isSome_iff k
  · intro k other hk
    rw [h.layoutAt_eq] at hk
    split at hk
    · cases hk
      exact hVoid
    · exact hRegular.voidFree hk
  · rw [h.layoutAt_eq]
    split
    · -- the empty stack at the entry stays empty
      rename_i hEntry
      have hLayout := h.layout_eq
      rw [← hEntry, hRegular.entry] at hLayout
      cases hLayout
      obtain ⟨hExact, hWords⟩ := hBeneath.exact rfl
      obtain ⟨values, isExact⟩ := refined
      obtain rfl : values = [] := hVoid.eq_nil hWords.symm
      obtain rfl : isExact = true := hExact
      rfl
    · exact hRegular.entry
  · intro k other edge hk hEdge
    rw [h.layoutAt_eq] at hk
    split at hk
    · rename_i hNode
      subst hNode
      cases hk
      exact (hRegular.needed h.layout_eq hEdge).trans hBeneath
    · exact hRegular.needed hk hEdge

/-- Next to a node off the agenda nothing has changed. -/
theorem Visited.layoutAt_neighbour (h : problem.Visited search node agenda layout refined next)
    {k m : Nat} (hOff : k ∉ next.agenda) (hLive : problem.isLive k = true)
    (hAdj : problem.graph.Adj m k ∨ problem.graph.Adj k m) :
    layoutAt next.inputs m = layoutAt search.inputs m := by
  rw [h.layoutAt_eq]
  split
  · rename_i hm
    subst hm
    by_cases hChanged : refined = layout
    · rw [hChanged, h.layout_eq]
    · have hNeighbour := mem_neighbours.mpr ⟨hAdj.symm, hLive⟩
      exact absurd (h.mem_agenda.mpr (Or.inr ⟨hChanged, hNeighbour⟩)) hOff
  · rfl

/-! ## The invariant -/

/-- A node meets the demands of its neighbours with an exact layout. -/
structure Stable (problem : FrameProblem) (inputs : Array (Option FrameLayout)) (node : Nat)
    (layout : FrameLayout) : Prop where
  before : ∀ {source : Nat} {effect : StackEffect} {before : FrameLayout},
    problem.isLive source = true → ⟨node, effect⟩ ∈ problem.effectsOf source →
    layoutAt inputs source = some before → before.isExact = true →
    ∃ after, before.apply effect = .ok after ∧ after.Below layout
  after : ∀ {edge : EffectEdge} {after : FrameLayout}, edge ∈ problem.effectsOf node →
    layoutAt inputs edge.target = some after → after.isExact = true →
    ∃ before, after.revert edge.effect = .ok before ∧ before.Below layout

theorem Regular.refine_stable (h : problem.Regular inputs) (hProblem : problem.WellFormed)
    (hLayout : layoutAt inputs node = some layout)
    (hRefine : problem.refine inputs node layout = .ok refined) :
    problem.Stable inputs node refined := by
  obtain ⟨-, -, hDemands⟩ := h.refine_beneath hProblem hLayout hRefine
  constructor
  · intro source effect before hLive hEdge hBefore hExact
    obtain ⟨after, hAfter, hBeneath⟩ := hDemands _
      ((mem_demands hProblem).mpr (Or.inl ⟨source, effect, before, hLive, hEdge, hBefore, rfl⟩))
    exact ⟨after, hAfter, hBeneath.below_of_exact (FrameLayout.apply_isExact hExact hAfter)⟩
  · intro edge after hEdge hAfter hExact
    obtain ⟨before, hBefore, hBeneath⟩ := hDemands _
      ((mem_demands hProblem).mpr (Or.inr ⟨edge, hEdge, after, hAfter, rfl⟩))
    exact ⟨before, hBefore, FrameLayout.revert_below_of_beneath hExact hBefore hBeneath⟩

/-- A node stays stable as long as the layouts next to it stay. -/
theorem Stable.congr {inputs' : Array (Option FrameLayout)} (hProblem : problem.WellFormed)
    (h : problem.Stable inputs node layout) (hLive : problem.isLive node = true)
    (hSame : ∀ m, problem.graph.Adj m node ∨ problem.graph.Adj node m →
      layoutAt inputs' m = layoutAt inputs m) :
    problem.Stable inputs' node layout := by
  constructor
  · intro source effect before hSource hEdge hBefore hExact
    rw [hSame source (Or.inl (hProblem.adj hSource hEdge))] at hBefore
    exact h.before hSource hEdge hBefore hExact
  · intro edge after hEdge hAfter hExact
    rw [hSame edge.target (Or.inr (hProblem.adj hLive hEdge))] at hAfter
    exact h.after hEdge hAfter hExact

/-- What holds of the search before every visit. -/
structure Invariant (problem : FrameProblem) (search : FrameSearch) : Prop where
  regular : problem.Regular search.inputs
  agenda_live : ∀ node ∈ search.agenda, problem.isLive node = true
  agenda_nodup : search.agenda.Nodup
  stable : ∀ {node : Nat} {layout : FrameLayout}, layoutAt search.inputs node = some layout →
    node ∉ search.agenda → problem.Stable search.inputs node layout

theorem Invariant.visited (h : problem.Invariant search) (hProblem : problem.WellFormed)
    (hAgenda : search.agenda = node :: agenda)
    (hVisit : problem.visit search node agenda = .ok next) :
    ∃ layout refined, problem.Visited search node agenda layout refined next := by
  have hLive : problem.isLive node = true := h.agenda_live node (by simp [hAgenda])
  have hNode : node < search.inputs.size := by
    rw [h.regular.size_eq]
    exact hProblem.lt_size hLive
  obtain ⟨layout, hLayout⟩ := h.regular.exists_layout hLive
  obtain ⟨refined, hVisited⟩ := visit_eq_ok hNode hLayout hVisit
  exact ⟨layout, refined, hVisited⟩

/-- A visit keeps the invariant. The visited node is stable afterwards, or on the agenda again. -/
theorem Invariant.visit (h : problem.Invariant search) (hProblem : problem.WellFormed)
    (hAgenda : search.agenda = node :: agenda)
    (hVisit : problem.visit search node agenda = .ok next) : problem.Invariant next := by
  obtain ⟨layout, refined, hVisited⟩ := h.visited hProblem hAgenda hVisit
  have hRegular := hVisited.regular hProblem h.regular
  have hNodup := h.agenda_nodup
  rw [hAgenda, List.nodup_cons] at hNodup
  refine ⟨hRegular, ?_, hVisited.nodup_agenda hNodup.2, ?_⟩
  · intro k hk
    rcases hVisited.mem_agenda.mp hk with hk | ⟨-, hk⟩
    · exact h.agenda_live k (by simp [hAgenda, hk])
    · exact (mem_neighbours.mp hk).2
  · intro k other hk hOff
    have hLive := hRegular.isLive hk
    refine Stable.congr hProblem ?_ hLive fun m => hVisited.layoutAt_neighbour hOff hLive
    -- before the visit the node was stable, or it is the one that was visited
    rw [hVisited.layoutAt_eq] at hk
    split at hk
    · rename_i hNode
      subst hNode
      cases hk
      exact h.regular.refine_stable hProblem hVisited.layout_eq hVisited.refine_eq
    · rename_i hNode
      refine h.stable hk fun hMem => ?_
      rw [hAgenda] at hMem
      rcases List.mem_cons.mp hMem with hEq | hMem
      · exact hNode hEq
      · exact hOff (hVisited.mem_agenda.mpr (Or.inl hMem))

theorem run_of_nil (hAgenda : search.agenda = []) (fuel : Nat) :
    problem.run fuel search = .ok search := by
  cases fuel with
  | zero => rfl
  | succ fuel => simp only [run, hAgenda]

theorem run_succ_of_cons (hAgenda : search.agenda = node :: agenda) (fuel : Nat) :
    problem.run (fuel + 1) search = problem.visit search node agenda >>= problem.run fuel := by
  simp only [run, hAgenda]

theorem Invariant.run (h : problem.Invariant search) (hProblem : problem.WellFormed) {fuel : Nat}
    (hRun : problem.run fuel search = .ok next) : problem.Invariant next := by
  induction fuel generalizing search with
  | zero =>
    cases hRun
    exact h
  | succ fuel ih =>
    cases hAgenda : search.agenda with
    | nil =>
      rw [run_of_nil hAgenda] at hRun
      cases hRun
      exact h
    | cons node agenda =>
      rw [run_succ_of_cons hAgenda] at hRun
      obtain ⟨middle, hVisit, hRest⟩ := bind_eq_ok.mp hRun
      exact ih (h.visit hProblem hAgenda hVisit) hRest

/-! ## The start -/

theorem minimalInput_eq_foldlM : problem.minimalInput node =
    ((problem.effectsOf node).map fun edge =>
        (.ok (FrameLayout.minimalBefore edge.effect) : Except Error FrameLayout)).foldlM
      (fun layout demand => do layout.merge (← demand)) (FrameLayout.atLeast []) := by
  unfold minimalInput
  rw [List.foldlM_map]
  rfl

/-- The least layout of a node is above what its instruction needs, and it is not exact. -/
theorem minimalInput_spec (hProblem : problem.WellFormed) (hLive : problem.isLive node = true)
    (h : problem.minimalInput node = .ok layout) :
    layout.VoidFree ∧ layout.isExact = false ∧
      ∀ edge ∈ problem.effectsOf node,
        (FrameLayout.minimalBefore edge.effect).Beneath layout := by
  have hExact : layout.isExact = false := by
    refine foldlM_preserves (P := fun layout => layout.isExact = false) ?_ rfl h
    intro state edge next _ hState hMerge
    rw [(FrameLayout.merge_eq_ok.mp hMerge).2.2.2, hState, FrameLayout.isExact_minimalBefore]
    rfl
  rw [minimalInput_eq_foldlM] at h
  have hEmpty : (FrameLayout.atLeast []).VoidFree := TypeStack.voidFree_nil
  obtain ⟨-, hVoid, hDemands⟩ := FrameLayout.foldlM_merge_beneath hEmpty
    (fun demand hDemand b hb => by
      obtain ⟨edge, hEdge, rfl⟩ := List.mem_map.mp hDemand
      cases hb
      exact FrameLayout.voidFree_minimalBefore (hProblem.voidFree hLive hEdge)) h
  refine ⟨hVoid, hExact, fun edge hEdge => ?_⟩
  obtain ⟨b, hb, hBeneath⟩ := hDemands _ (List.mem_map.mpr ⟨edge, hEdge, rfl⟩)
  cases hb
  exact hBeneath

/-- The table at the start: an empty stack at the entry, and the least layouts elsewhere. -/
theorem initialInputs_eq_ok (hProblem : problem.WellFormed)
    (h : problem.initialInputs = .ok inputs) :
    inputs.size = problem.graph.size ∧
      layoutAt inputs problem.entry = some (FrameLayout.exactly []) ∧
      (∀ k, problem.isLive k = false → layoutAt inputs k = none) ∧
      ∀ k, k ≠ problem.entry → problem.isLive k = true →
        ∃ layout, problem.minimalInput k = .ok layout ∧ layoutAt inputs k = some layout := by
  obtain ⟨table, hTable, h⟩ := bind_eq_ok.mp h
  cases h
  obtain ⟨hLength, hEach⟩ := mapM_range_eq_ok hTable
  have hLookup : ∀ k, layoutAt (table.toArray.setIfInBounds problem.entry
      (some (FrameLayout.exactly []))) k =
      if k = problem.entry then some (FrameLayout.exactly []) else table[k]?.getD none := by
    intro k
    rw [layoutAt_setIfInBounds]
    · simp [layoutAt]
    · have hEntry := hProblem.lt_size hProblem.entry_live
      have hSize : table.toArray.size = problem.graph.size := hLength
      omega
  refine ⟨by rw [Array.size_setIfInBounds]; exact hLength, by rw [hLookup, if_pos rfl], ?_, ?_⟩
  · intro k hDead
    have hEntry : k ≠ problem.entry := by
      rintro rfl
      rw [hProblem.entry_live] at hDead
      cases hDead
    rw [hLookup, if_neg hEntry]
    by_cases hk : k < problem.graph.size
    · obtain ⟨input, hInput, hOk⟩ := hEach k hk
      rw [if_neg (by simp [hDead])] at hOk
      cases hOk
      rw [hInput, Option.getD_some]
    · rw [List.getElem?_eq_none (by omega), Option.getD_none]
  · intro k hEntry hLive
    obtain ⟨input, hInput, hOk⟩ := hEach k (hProblem.lt_size hLive)
    rw [if_pos hLive] at hOk
    obtain ⟨layout, hMinimal, rfl⟩ := map_eq_ok.mp hOk
    refine ⟨layout, hMinimal, ?_⟩
    rw [hLookup, if_neg hEntry, hInput, Option.getD_some]

theorem regular_initialInputs (hProblem : problem.WellFormed)
    (h : problem.initialInputs = .ok inputs) : problem.Regular inputs := by
  obtain ⟨hSize, hEntry, hDead, hLive⟩ := initialInputs_eq_ok hProblem h
  -- at the entry the stack is empty, elsewhere it is the least one
  have hCases : ∀ {k layout}, layoutAt inputs k = some layout → problem.isLive k = true ∧
      (k = problem.entry ∧ layout = FrameLayout.exactly [] ∨
        problem.minimalInput k = .ok layout) := by
    intro k layout hLayout
    cases hState : problem.isLive k with
    | false =>
      rw [hDead k hState] at hLayout
      cases hLayout
    | true =>
      refine ⟨rfl, ?_⟩
      by_cases hk : k = problem.entry
      · rw [hk, hEntry] at hLayout
        exact Or.inl ⟨hk, (Option.some.inj hLayout).symm⟩
      · obtain ⟨minimal, hMinimal, hLookup⟩ := hLive k hk hState
        obtain rfl := Option.some.inj (hLookup.symm.trans hLayout)
        exact Or.inr hMinimal
  refine ⟨hSize, fun k => ?_, fun hLayout => ?_, hEntry, fun hLayout hEdge => ?_⟩
  · constructor
    · intro hSome
      obtain ⟨layout, hLayout⟩ := Option.isSome_iff_exists.mp hSome
      exact (hCases hLayout).1
    · intro hState
      by_cases hk : k = problem.entry
      · rw [hk, hEntry]
        rfl
      · obtain ⟨minimal, -, hLookup⟩ := hLive k hk hState
        rw [hLookup]
        rfl
  · obtain ⟨hState, ⟨-, rfl⟩ | hMinimal⟩ := hCases hLayout
    · exact TypeStack.voidFree_nil
    · exact (minimalInput_spec hProblem hState hMinimal).1
  · obtain ⟨hState, ⟨rfl, rfl⟩ | hMinimal⟩ := hCases hLayout
    · rw [hProblem.entry_needs hEdge]
      exact ⟨(TypeStack.Below.refl []).beneath, fun hExact => by cases hExact⟩
    · exact (minimalInput_spec hProblem hState hMinimal).2.2 _ hEdge

theorem mem_sweep (hProblem : problem.WellFormed) :
    node ∈ problem.sweep ↔ problem.isLive node = true := by
  obtain ⟨-, hReached, -⟩ :=
    problem.graph.reversePostorder_spec (hProblem.lt_size hProblem.entry_live)
  rw [sweep, List.mem_filter, hReached]
  exact ⟨fun h => h.2, fun h => ⟨hProblem.reaches h, h⟩⟩

theorem nodup_sweep (hProblem : problem.WellFormed) : problem.sweep.Nodup := by
  obtain ⟨hNodup, -, -⟩ :=
    problem.graph.reversePostorder_spec (hProblem.lt_size hProblem.entry_live)
  exact hNodup.filter _

/-- At the start every live node is on the agenda. -/
theorem invariant_start (hProblem : problem.WellFormed) (h : problem.start = .ok search) :
    problem.Invariant search := by
  obtain ⟨inputs, hInputs, h⟩ := bind_eq_ok.mp h
  cases h
  have hRegular := regular_initialInputs hProblem hInputs
  refine ⟨hRegular, fun node hMem => (mem_sweep hProblem).mp hMem, nodup_sweep hProblem, ?_⟩
  intro node layout hLayout hOff
  exact absurd ((mem_sweep hProblem).mpr (hRegular.isLive hLayout)) hOff

end BytecodeFlow.FrameProblem
