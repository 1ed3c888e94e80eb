import BytecodeFlow.Proofs.NodeLookup

/-!
# Questions to control dependences

The instructions that an instruction depends on are found by a worklist against the edges
(`loops_dependencyNodes`), and whether it depends on a given one by a search along the edges
(`exists_isDependent`). Both agree with the transitive closure of the edges, which relates a node to
itself only if the node lies on a cycle: the empty path does not count. Answers are lists of
instructions in the order of their nodes (`Digraph.Ascending`), and since no two nodes have the same
content, an instruction is in such a list exactly if its node is (`contains_contents`).

All this is about instructions that are found at their positions. Control dependences can be made of
any graph, and where its nodes are not numbered by their orders, no question about a node that is
out of place has an answer (`unlocated`).
-/

namespace BytecodeFlow

/-- The instructions are those of nodes in ascending order, and all different. -/
structure Digraph.Ascending (g : Digraph Instruction) (listed : List Instruction) : Prop where
  exists_nodes : ∃ nodes : List Nat, nodes.Pairwise (· < ·) ∧ nodes.map g.node? = listed.map some
  distinct : listed.Pairwise fun x y => (x == y) = false

theorem Digraph.map_node? {α : Type} {g : Digraph α} {nodes : List Nat}
    (h : ∀ n ∈ nodes, n < g.size) : nodes.map g.node? = (g.contentsOf nodes).map some := by
  induction nodes with
  | nil => rfl
  | cons n nodes ih =>
    obtain ⟨content, hNode⟩ : ∃ content, g.node? n = some content :=
      ⟨_, Array.getElem?_eq_getElem (h n List.mem_cons_self)⟩
    rw [contentsOf, List.filterMap_cons_some hNode, List.map_cons, List.map_cons, hNode]
    exact congrArg _ (ih fun m hm => h m (List.mem_cons_of_mem _ hm))

namespace DependencySearch

variable {α : Type} {graph : Digraph α} {node : Nat} {search after : DependencySearch}

/-- What holds between two steps: only dependencies of the node are found or left to look at, and
none is missing. -/
structure Sound (graph : Digraph α) (node : Nat) (search : DependencySearch) : Prop where
  nodup : search.found.Nodup
  dependency : ∀ x, x ∈ search.found ∨ x ∈ search.worklist → Relation.TransGen graph.Adj x node
  direct : ∀ x, graph.Adj x node → x ∈ search.found ∨ x ∈ search.worklist
  closed : ∀ x y, graph.Adj x y → y ∈ search.found → x ∈ search.found ∨ x ∈ search.worklist

theorem step_cases (h : step graph search = some after) :
    ∃ next rest, search.worklist = next :: rest ∧
      ((next ∈ search.found ∧ after = ⟨rest, search.found⟩) ∨
        (next ∉ search.found ∧
          after = ⟨(graph.predecessors next).reverse ++ rest, next :: search.found⟩)) := by
  obtain ⟨worklist, found⟩ := search
  match worklist, h with
  | next :: rest, h =>
    refine ⟨next, rest, rfl, ?_⟩
    rw [step] at h
    split at h
    · rename_i hFound
      exact Or.inl ⟨List.contains_iff_mem.mp hFound, (Option.some.inj h).symm⟩
    · rename_i hFound
      exact Or.inr ⟨fun hMem => hFound (List.contains_iff_mem.mpr hMem), (Option.some.inj h).symm⟩

theorem sound_start (graph : Digraph α) (node : Nat) : Sound graph node (.start graph node) where
  nodup := List.nodup_nil
  dependency := by
    rintro x (hx | hx)
    · cases hx
    · exact .single (Digraph.mem_predecessors.mp (List.mem_reverse.mp hx))
  direct := fun x hx => Or.inr (List.mem_reverse.mpr (Digraph.mem_predecessors.mpr hx))
  closed := fun x y _ hy => by cases hy

theorem Sound.step (h : Sound graph node search)
    (hStep : DependencySearch.step graph search = some after) : Sound graph node after := by
  obtain ⟨next, rest, hWorklist, ⟨hFound, rfl⟩ | ⟨hFound, rfl⟩⟩ := step_cases hStep
  · -- a node that was found before is dropped, and nothing is lost
    have hKept : ∀ {x}, x ∈ search.found ∨ x ∈ search.worklist → x ∈ search.found ∨ x ∈ rest := by
      rintro x (hx | hx)
      · exact Or.inl hx
      · rcases List.mem_cons.mp (hWorklist ▸ hx) with rfl | hx
        · exact Or.inl hFound
        · exact Or.inr hx
    refine ⟨h.nodup, fun x hx => h.dependency x ?_, fun x hx => hKept (h.direct x hx),
      fun x y hAdj hy => hKept (h.closed x y hAdj hy)⟩
    exact hx.imp_right fun hx => hWorklist ▸ List.mem_cons_of_mem next hx
  · have hNext : Relation.TransGen graph.Adj next node :=
      h.dependency next (Or.inr (hWorklist ▸ List.mem_cons_self))
    have hKept : ∀ {x}, x ∈ search.found ∨ x ∈ search.worklist →
        x ∈ next :: search.found ∨ x ∈ (graph.predecessors next).reverse ++ rest := by
      rintro x (hx | hx)
      · exact Or.inl (List.mem_cons_of_mem next hx)
      · rcases List.mem_cons.mp (hWorklist ▸ hx) with rfl | hx
        · exact Or.inl List.mem_cons_self
        · exact Or.inr (List.mem_append_right _ hx)
    refine ⟨List.nodup_cons.mpr ⟨hFound, h.nodup⟩, ?_, fun x hx => hKept (h.direct x hx), ?_⟩
    · rintro x (hx | hx)
      · rcases List.mem_cons.mp hx with rfl | hx
        · exact hNext
        · exact h.dependency x (Or.inl hx)
      · rcases List.mem_append.mp hx with hx | hx
        · exact .head (Digraph.mem_predecessors.mp (List.mem_reverse.mp hx)) hNext
        · exact h.dependency x (Or.inr (hWorklist ▸ List.mem_cons_of_mem next hx))
    · intro x y hAdj hy
      rcases List.mem_cons.mp hy with rfl | hy
      · have hx := List.mem_reverse.mpr (Digraph.mem_predecessors.mpr hAdj)
        exact Or.inr (List.mem_append_left _ hx)
      · exact hKept (h.closed x y hAdj hy)

theorem Sound.length_le (h : Sound graph node search) : search.found.length ≤ graph.size := by
  refine Traversal.length_le_of_nodup h.nodup fun x hx => ?_
  obtain ⟨_, hAdj, -⟩ := Relation.TransGen.head'_iff.mp (h.dependency x (Or.inl hx))
  exact hAdj.source_lt

/-- What is left to do: every node that is not found yet may bring a node for each edge. -/
def work (graph : Digraph α) (search : DependencySearch) : Nat :=
  (graph.size - search.found.length) * (graph.edges.size + 1) + search.worklist.length

theorem work_step_lt (hStep : step graph search = some after)
    (hLength : after.found.length ≤ graph.size) : work graph after < work graph search := by
  obtain ⟨next, rest, hWorklist, ⟨-, rfl⟩ | ⟨-, rfl⟩⟩ := step_cases hStep
  · simp [work, hWorklist]
  · rw [List.length_cons] at hLength
    obtain ⟨missing, hMissing⟩ : ∃ k, graph.size - search.found.length = k + 1 :=
      ⟨graph.size - search.found.length - 1, by omega⟩
    have hLater : graph.size - (search.found.length + 1) = missing := by omega
    have hNew := graph.length_predecessors_le next
    simp only [work, hWorklist, hMissing, hLater, List.length_append, List.length_reverse,
      List.length_cons, Nat.succ_mul]
    omega

theorem worklist_eq_nil (hStop : step graph search = none) : search.worklist = [] := by
  obtain ⟨worklist, found⟩ := search
  match worklist, hStop with
  | [], _ => rfl
  | next :: rest, hStop =>
    rw [step] at hStop
    split at hStop <;> cases hStop

/-- Without anything left to look at, all dependencies are found. -/
theorem Sound.mem_found_iff (h : Sound graph node search) (hEnd : search.worklist = []) {x : Nat} :
    x ∈ search.found ↔ Relation.TransGen graph.Adj x node := by
  have hFound : ∀ {x}, x ∈ search.found ∨ x ∈ search.worklist → x ∈ search.found := by
    intro x hx
    rw [hEnd] at hx
    exact hx.resolve_right List.not_mem_nil
  constructor
  · exact fun hx => h.dependency x (Or.inl hx)
  · intro hSteps
    induction hSteps using Relation.TransGen.head_induction_on with
    | single hAdj => exact hFound (h.direct _ hAdj)
    | head hAdj _ ih => exact hFound (h.closed _ _ hAdj ih)

end DependencySearch

namespace ControlDependence

variable {dependence : ControlDependence} {a b content : Instruction} {s t : Nat}
  {nodes : List Nat}

/-! ## Searches for dependences -/

/-- The loop ends with an empty worklist, and finds what a path of at least one edge leads from. -/
theorem loops_dependencyNodes (dependence : ControlDependence) (t : Nat) :
    Loops (DependencySearch.step dependence.graph) (.start dependence.graph t)
        ⟨[], dependence.dependencyNodes t⟩ ∧
      ∀ s, s ∈ dependence.dependencyNodes t ↔ Relation.TransGen dependence.graph.Adj s t := by
  obtain ⟨graph, entry⟩ := dependence
  have hStart := DependencySearch.sound_start graph t
  have hFuel : DependencySearch.work graph (.start graph t) ≤
      (graph.size + 1) * (graph.edges.size + 1) := by
    have hDirect := graph.length_predecessors_le t
    simp only [DependencySearch.work, DependencySearch.start, List.length_nil, Nat.sub_zero,
      List.length_reverse, Nat.succ_mul]
    omega
  have hLoops := loops_runSteps (DependencySearch.Sound graph t) (DependencySearch.work graph)
    (fun _ _ hSound hStep =>
      ⟨hSound.step hStep, DependencySearch.work_step_lt hStep (hSound.step hStep).length_le⟩)
    hStart hFuel
  obtain ⟨hSound, hStop⟩ := hLoops.keeps (fun _ _ hSound hStep => hSound.step hStep) hStart
  have hEnd := DependencySearch.worklist_eq_nil hStop
  refine ⟨?_, fun s => hSound.mem_found_iff hEnd⟩
  rw [← hEnd]
  exact hLoops

/-- The search along the edges finds a path of at least one edge. -/
theorem exists_isDependent (ha : dependence.graph.locate a = .ok s)
    (hb : dependence.graph.locate b = .ok t) :
    ∃ answer, dependence.isDependent a b = .ok answer ∧
      (answer = true ↔ Relation.TransGen dependence.graph.Adj s t) := by
  unfold isDependent
  rw [ha, hb]
  change ∃ answer, (if s = t then _ else _) = _ ∧ _
  by_cases hSame : s = t
  · -- the last step of a cycle is an edge from the node itself or from one that it reaches
    subst hSame
    rw [if_pos rfl]
    refine ⟨_, rfl, ?_⟩
    simp only [List.any_eq_true, Bool.or_eq_true, beq_iff_eq, Digraph.hasPath_iff,
      Digraph.mem_predecessors]
    rw [Relation.TransGen.tail'_iff]
    constructor
    · rintro ⟨x, hAdj, rfl | hReach⟩
      · exact ⟨x, .refl, hAdj⟩
      · exact ⟨x, (Digraph.Reaches.iff_reflTransGen.mp hReach).2, hAdj⟩
    · rintro ⟨x, hSteps, hAdj⟩
      exact ⟨x, hAdj, Or.inr (Digraph.Reaches.iff_reflTransGen.mpr ⟨hAdj.target_lt, hSteps⟩)⟩
  · rw [if_neg hSame]
    refine ⟨_, rfl, ?_⟩
    rw [Digraph.hasPath_iff, Digraph.Reaches.iff_reflTransGen]
    constructor
    · rintro ⟨-, hSteps⟩
      exact (Relation.reflTransGen_iff_eq_or_transGen.mp hSteps).resolve_left (Ne.symm hSame)
    · intro hSteps
      obtain ⟨x, hAdj, -⟩ := Relation.TransGen.head'_iff.mp hSteps
      exact ⟨hAdj.source_lt, hSteps.to_reflTransGen⟩

/-! ## Lists of instructions -/

theorem mem_contents : content ∈ dependence.contents nodes ↔
    ∃ n ∈ nodes, dependence.graph.node? n = some content := by
  simp only [contents, Digraph.contentsOf, List.mem_filterMap, List.mem_filter,
    List.contains_iff_mem, Digraph.nodeIds, List.mem_range]
  constructor
  · rintro ⟨n, ⟨-, hn⟩, hNode⟩
    exact ⟨n, hn, hNode⟩
  · rintro ⟨n, hn, hNode⟩
    exact ⟨n, ⟨Digraph.lt_size_of_node? hNode, hn⟩, hNode⟩

theorem ascending_contents (h : dependence.graph.Distinct) (nodes : List Nat) :
    dependence.graph.Ascending (dependence.contents nodes) := by
  have hSorted : (dependence.graph.nodeIds.filter nodes.contains).Pairwise (· < ·) :=
    List.pairwise_lt_range.filter _
  refine ⟨⟨_, hSorted, ?_⟩, hSorted.filterMap _ ?_⟩
  · exact Digraph.map_node? fun n hn => List.mem_range.mp (List.mem_filter.mp hn).1
  · intro m n hLess x hx y hy
    rw [Bool.eq_false_iff]
    intro hSame
    have hEq := h m n x y hx hy hSame
    omega

/-- An instruction is in the list exactly if its node is. -/
theorem contains_contents (h : dependence.graph.Distinct)
    (ha : dependence.graph.locate a = .ok s) :
    (dependence.contents nodes).contains a = true ↔ s ∈ nodes := by
  obtain ⟨content, hNode, hSame⟩ := (Digraph.locate_eq_ok_iff_position.mp ha).2
  rw [List.contains_iff_exists_mem_beq]
  constructor
  · rintro ⟨other, hOther, hBeq⟩
    obtain ⟨n, hn, hOtherNode⟩ := mem_contents.mp hOther
    obtain rfl := h s n content other hNode hOtherNode (BEq.trans hSame hBeq)
    exact hn
  · intro hs
    exact ⟨content, mem_contents.mpr ⟨s, hs, hNode⟩, BEq.symm hSame⟩

/-- To leave out a node is to leave out its instruction. -/
theorem contents_filter (h : dependence.graph.Distinct)
    (hb : dependence.graph.locate b = .ok t) :
    dependence.contents (nodes.filter (· != t)) =
      (dependence.contents nodes).filter fun x => !(x == b) := by
  obtain ⟨content, hNode, hSame⟩ := (Digraph.locate_eq_ok_iff_position.mp hb).2
  have hFilter : dependence.graph.nodeIds.filter (nodes.filter (· != t)).contains =
      (dependence.graph.nodeIds.filter nodes.contains).filter (· != t) := by
    rw [List.filter_filter]
    refine List.filter_congr fun n _ => ?_
    rw [Bool.eq_iff_iff, Bool.and_eq_true, List.contains_iff_mem, List.contains_iff_mem,
      List.mem_filter, and_comm]
  unfold contents Digraph.contentsOf
  rw [hFilter, List.filterMap_filter, List.filter_filterMap]
  refine List.filterMap_congr fun n _ => ?_
  cases hn : dependence.graph.node? n with
  | none => simp
  | some x =>
    have hIff : n = t ↔ (x == b) = true := by
      constructor
      · rintro rfl
        obtain rfl := Option.some.inj (hNode.symm.trans hn)
        exact hSame
      · intro hBeq
        exact h n t x content hn hNode (BEq.trans hBeq (BEq.symm hSame))
    by_cases hEq : n = t
    · simp [Option.filter_some, hEq, hIff.mp hEq]
    · simp [Option.filter_some, hEq, mt hIff.mpr hEq]

/-! ## Instructions that are found, and others -/

/-- No question about an instruction that is not found at its position has an answer. -/
theorem unlocated (h : ∀ s, dependence.graph.locate a ≠ .ok s) :
    let fault := Error.invalidArgument (.unlocated a.text a.method.text)
    (∀ strict, dependence.dependenciesOf a strict = .error fault ∧
        dependence.immediateDependenciesOf a strict = .error fault) ∧
      dependence.dependentsOf a = .error fault ∧
      (∀ b, dependence.isDependent a b = .error fault) ∧
      ∀ b t, dependence.graph.locate b = .ok t → dependence.isDependent b a = .error fault := by
  have hFault := Digraph.locate_eq_error h
  refine ⟨fun strict => ⟨?_, ?_⟩, ?_, fun b => ?_, fun b t hb => ?_⟩
  · rw [dependenciesOf, hFault]
    rfl
  · rw [immediateDependenciesOf, hFault]
    rfl
  · rw [dependentsOf, hFault]
    rfl
  · rw [isDependent, hFault]
    rfl
  · rw [isDependent, hb, hFault]
    rfl

/-- **Questions about dependences agree.** In the control dependences of any graph, let `a` and `b`
be two instructions that are found at their positions. Then `a` is among the dependencies of `b`
exactly if `b` is said to depend on `a`, and exactly if a path of at least one edge leads from the
one to the other. Strict questions leave out `b`, direct dependencies and dependents are those along
one edge, and all answers are in the order of the nodes, without repetition. About an instruction
that is not found no question has an answer. If the graph has the numbering of a flow graph, all its
instructions below the last order are found. -/
theorem dependencies_agree {graph : Digraph Instruction} {tree : PostDominatorTree} {entry : Nat}
    {dependence : ControlDependence} (hGraph : graph.Drafted)
    (hMade : ofGraph graph tree entry = .ok dependence) :
    (graph.Numbered → ∀ (s : Nat) (a : Instruction), dependence.graph.node? s = some a →
      a.Constructible → a.order < lastOrder → dependence.graph.locate a = .ok s) ∧
    (∀ a : Instruction, (∀ s, dependence.graph.locate a ≠ .ok s) →
      let fault := Error.invalidArgument (.unlocated a.text a.method.text)
      (∀ strict, dependence.dependenciesOf a strict = .error fault ∧
          dependence.immediateDependenciesOf a strict = .error fault) ∧
        dependence.dependentsOf a = .error fault ∧
        (∀ b, dependence.isDependent a b = .error fault) ∧
        ∀ b t, dependence.graph.locate b = .ok t → dependence.isDependent b a = .error fault) ∧
    ∀ (a b : Instruction) (s t : Nat), dependence.graph.locate a = .ok s →
      dependence.graph.locate b = .ok t →
      ∃ found all others direct otherDirect dependents,
        Loops (DependencySearch.step dependence.graph) (.start dependence.graph t) ⟨[], found⟩ ∧
        all = dependence.contents found ∧
        dependence.dependenciesOf b false = .ok all ∧
        dependence.dependenciesOf b true = .ok others ∧
        dependence.immediateDependenciesOf b false = .ok direct ∧
        dependence.immediateDependenciesOf b true = .ok otherDirect ∧
        dependence.dependentsOf a = .ok dependents ∧
        dependence.isDependent a b = .ok (all.contains a) ∧
        (all.contains a = true ↔ Relation.TransGen dependence.graph.Adj s t) ∧
        (direct.contains a = true ↔ dependence.graph.Adj s t) ∧
        (dependents.contains b = true ↔ dependence.graph.Adj s t) ∧
        others = all.filter (fun x => !(x == b)) ∧
        otherDirect = direct.filter (fun x => !(x == b)) ∧
        ∀ listed ∈ [all, others, direct, otherDirect, dependents],
          dependence.graph.Ascending listed := by
  have hNodes := nodes_ofGraph hMade
  have hDistinct : dependence.graph.Distinct := hGraph.distinct.congr hNodes
  refine ⟨fun hNumbered s a hNode hConstructible hBefore => ?_, fun a => unlocated,
    fun a b s t ha hb => ?_⟩
  · exact ((hNumbered.congr hNodes).locate_eq_ok_iff hConstructible).mpr
      ⟨hBefore, a, hNode, beq_self_eq_true a.site⟩
  obtain ⟨hLoops, hFound⟩ := loops_dependencyNodes dependence t
  have hAll : (dependence.contents (dependence.dependencyNodes t)).contains a = true ↔
      Relation.TransGen dependence.graph.Adj s t :=
    (contains_contents hDistinct ha).trans (hFound s)
  refine ⟨dependence.dependencyNodes t, _, _, dependence.contents (dependence.graph.predecessors t),
    _, dependence.contents (dependence.graph.successors s), hLoops, rfl,
    by rw [dependenciesOf, hb]; rfl, by rw [dependenciesOf, hb]; rfl,
    by rw [immediateDependenciesOf, hb]; rfl, by rw [immediateDependenciesOf, hb]; rfl,
    by rw [dependentsOf, ha]; rfl, ?_, hAll,
    (contains_contents hDistinct ha).trans Digraph.mem_predecessors,
    (contains_contents hDistinct hb).trans Digraph.mem_successors,
    contents_filter hDistinct hb, contents_filter hDistinct hb, ?_⟩
  · obtain ⟨answer, hAnswer, hIff⟩ := exists_isDependent ha hb
    rw [hAnswer, Bool.eq_iff_iff.mpr (hIff.trans hAll.symm)]
  · simp only [List.forall_mem_cons, List.not_mem_nil, false_implies, implies_true, and_true]
    exact ⟨ascending_contents hDistinct _, ascending_contents hDistinct _,
      ascending_contents hDistinct _, ascending_contents hDistinct _,
      ascending_contents hDistinct _⟩

/-- The test of a loop. -/
def countdownTest : Instruction :=
  ⟨⟨"Loop", "run", "(I)V"⟩, 1, "1", .branch .equal 4, none⟩

/-- The test of a loop depends on itself, and only a strict question leaves it out. -/
theorem dependencies_agree_countdown :
    ∃ flow dependence all others,
      FlowGraph.build ⟨"Loop", "run", "(I)V"⟩ countdown [] {} = .ok flow ∧
      flow.controlDependence = .ok dependence ∧ dependence.graph.locate countdownTest = .ok 2 ∧
      dependence.isDependent countdownTest countdownTest = .ok true ∧
      Relation.TransGen dependence.graph.Adj 2 2 ∧
      dependence.dependenciesOf countdownTest false = .ok all ∧
      dependence.dependenciesOf countdownTest true = .ok others ∧
      all.contains countdownTest = true ∧
      others = all.filter fun x => !(x == countdownTest) := by
  have hRun : ((FlowGraph.build ⟨"Loop", "run", "(I)V"⟩ countdown [] {}).bind fun flow =>
      flow.controlDependence.bind fun dependence =>
        (dependence.graph.locate countdownTest).bind fun node =>
          (dependence.isDependent countdownTest countdownTest).map fun answer =>
            (node, answer)).toOption = some (2, true) := by
    decide +kernel
  cases hBuild : FlowGraph.build ⟨"Loop", "run", "(I)V"⟩ countdown [] {} with
  | error _ => simp [hBuild, Except.bind, Except.toOption] at hRun
  | ok flow =>
    obtain ⟨graph, tree, dependence, hDerived⟩ :=
      exists_derived (FlowGraph.build_wellShaped hBuild)
    have hDependence := hDerived.controlDependence_eq
    have hGraph : graph.Drafted :=
      FlowGraph.drafted_graphs hBuild hDerived.augmented_eq hDerived.postDominators_eq hDependence
        graph (by simp)
    obtain ⟨-, -, hAgree⟩ := dependencies_agree hGraph hDerived.ofGraph_eq
    cases hNode : dependence.graph.locate countdownTest with
    | error _ => simp [hBuild, hDependence, hNode, Except.bind, Except.toOption] at hRun
    | ok node =>
      obtain ⟨_, all, others, _, _, _, -, -, hAll, hOthers, -, -, -, hAnswer, hIff, -, -, hFilter,
        -⟩ := hAgree countdownTest countdownTest node node hNode hNode
      simp only [hBuild, hDependence, hNode, hAnswer, Except.bind, Except.map, Except.toOption,
        Option.some.injEq, Prod.mk.injEq] at hRun
      obtain ⟨rfl, hContains⟩ := hRun
      exact ⟨flow, dependence, all, others, rfl, hDependence, hNode, hContains ▸ hAnswer,
        hIff.mp hContains, hAll, hOthers, hContains, hFilter⟩

/-- An instruction of order five. -/
def displacedStep : Instruction :=
  ⟨⟨"Part", "run", "()V"⟩, 5, "5", .nop, none⟩

/-- A graph of the entry, an instruction of order five and the exit. -/
def displaced : List (DraftStep Instruction) :=
  let method : MethodId := ⟨"Part", "run", "()V"⟩
  [.addNodes [.methodEntry method, displacedStep, .methodExit method],
    .addEdge (.methodEntry method) displacedStep, .addEdge displacedStep (.methodExit method)]

/-- Over a graph whose only instruction is of order five, the instruction depends on the entry, but
no question about it has an answer. -/
theorem not_dependencies_agree_displaced :
    ∃ graph tree dependence,
      (displaced.foldl IndexedDraft.after {}).freeze? = some graph ∧ graph.Drafted ∧
      PostDominatorTree.ofGraph graph 2 = .ok tree ∧ ofGraph graph tree 0 = .ok dependence ∧
      displacedStep.Constructible ∧ dependence.graph.index? displacedStep = some 1 ∧
      dependence.graph.Adj 0 1 ∧
      (∀ strict, ∃ fault, dependence.dependenciesOf displacedStep strict = .error fault) ∧
      ∀ other, ∃ fault, dependence.isDependent displacedStep other = .error fault := by
  have hReachable : IndexedDraft.Reachable (displaced.foldl IndexedDraft.after {}) :=
    IndexedDraft.Reachable.empty.run displaced
  obtain ⟨graph, hFreeze⟩ := hReachable.consistent.toListed.exists_freeze
  have hRun : ((displaced.foldl IndexedDraft.after {}).freeze?.bind fun graph =>
      ((PostDominatorTree.ofGraph graph 2).bind fun tree =>
        (ofGraph graph tree 0).map fun dependence =>
          (dependence.graph.index? displacedStep, dependence.graph.hasEdge 0 1,
            (dependence.graph.locate displacedStep).toOption)).toOption) =
      some (some 1, true, none) := by
    decide +kernel
  rw [hFreeze, Option.bind_some] at hRun
  cases hTree : PostDominatorTree.ofGraph graph 2 with
  | error _ => simp [hTree, Except.bind, Except.toOption] at hRun
  | ok tree =>
    cases hMade : ofGraph graph tree 0 with
    | error _ => simp [hTree, hMade, Except.bind, Except.map, Except.toOption] at hRun
    | ok dependence =>
      simp only [hTree, hMade, Except.bind, Except.map, Except.toOption, Option.some.injEq,
        Prod.mk.injEq, Digraph.hasEdge_iff] at hRun
      obtain ⟨hIndex, hAdj, hLocate⟩ := hRun
      have hNowhere : ∀ s, dependence.graph.locate displacedStep ≠ .ok s := by
        intro s hs
        rw [hs] at hLocate
        cases hLocate
      have hOf : Instruction.of ⟨"Part", "run", "()V"⟩ 5 "5" .nop = .ok displacedStep := rfl
      have hFaults := unlocated hNowhere
      exact ⟨graph, tree, dependence, hFreeze, ⟨_, hReachable, hFreeze⟩, hTree, hMade, .of hOf,
        hIndex, hAdj, fun strict => ⟨_, (hFaults.1 strict).1⟩,
        fun other => ⟨_, hFaults.2.2.1 other⟩⟩

end ControlDependence

end BytecodeFlow
