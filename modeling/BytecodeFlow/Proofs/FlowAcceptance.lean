import BytecodeFlow.Proofs.FlowShape
import BytecodeFlow.Proofs.Reachability

/-!
# The methods that have a flow graph

A method has a flow graph exactly if it is admissible: its instructions stand at their orders, its
handlers and the orders at which control continues lie inside it, and control reaches what the
settings ask for. These conditions speak of the instructions alone, through the relation `FlowsTo`
between the positions in the method. The edges of the flow graph are then that relation, and a
refusal is always due to the method: no edge is ever added twice or between nodes that do not exist
(`build_iff_admissible`).

Each part of the construction decides one of the conditions (`Decides`), so that the whole decides
their conjunction.
-/

namespace BytecodeFlow.FlowGraph

variable {method : MethodId} {instructions : List Instruction} {handlers : List HandlerRange}
  {settings : Settings}

/-- Control flows from one node to another. The first is that of the entry or of an instruction, and
control continues behind it at the order of the second. Where it continues nowhere it reaches the
exit, and so does the entry of an empty method. -/
def FlowsTo (method : MethodId) (instructions : List Instruction) (handlers : List HandlerRange)
    (source target : Nat) : Prop :=
  ∃ instruction orders,
    (Instruction.methodEntry method :: instructions)[source]? = some instruction ∧
    instruction.successorsIn handlers = .ok orders ∧
    ((target = instructions.length + 1 ∧
        (instructions = [] ∨ orders = [] ∨ methodExitOrder ∈ orders)) ∨
      ∃ k, k < instructions.length ∧ (k : Int) ∈ orders ∧ target = k + 1)

/-- Control reaches every node but the exit, as far as the settings ask for it. -/
def Covered (method : MethodId) (instructions : List Instruction) (handlers : List HandlerRange)
    (settings : Settings) : Prop :=
  let Flows := Relation.ReflTransGen (FlowsTo method instructions handlers)
  match settings.unreachable with
  | .reject => ∀ node, node ≤ instructions.length → Flows 0 node
  | .allowHandlerCode => ∀ node, node ≤ instructions.length →
      Flows 0 node ∨ ∃ range ∈ handlers, Flows (range.handler + 1).toNat node
  | .allow => True

/-- The conditions under which a method has a flow graph. -/
structure Admissible (method : MethodId) (instructions : List Instruction)
    (handlers : List HandlerRange) (settings : Settings) : Prop where
  owned : ∀ instruction ∈ instructions, instruction.method = method
  placed : ∀ k (hk : k < instructions.length), instructions[k].order = k
  ranges : ∀ range ∈ handlers, 0 ≤ range.start ∧ range.start ≤ instructions.length ∧
    0 ≤ range.stop ∧ range.stop ≤ instructions.length ∧
    0 ≤ range.handler ∧ range.handler < instructions.length
  inside : instructions ≠ [] → ∀ instruction ∈ Instruction.methodEntry method :: instructions,
    ∃ orders, instruction.successorsIn handlers = .ok orders ∧
      ∀ order ∈ orders, order = methodExitOrder ∨ 0 ≤ order ∧ order < instructions.length
  covered : Covered method instructions handlers settings

/-- The flow graph of a method: the entry, the instructions in their order and the exit are its
nodes, and it has one edge of weight one for each step of control. -/
structure IsFlowGraph (method : MethodId) (instructions : List Instruction)
    (handlers : List HandlerRange) (flow : FlowGraph) : Prop where
  method_eq : flow.method = method
  handlers_eq : flow.handlers = handlers
  exit_eq : flow.exit = instructions.length + 1
  size_eq : flow.graph.size = instructions.length + 2
  entry_node : flow.graph.node? flow.entry = some (Instruction.methodEntry method)
  instruction_node : ∀ k (hk : k < instructions.length),
    flow.graph.node? (k + 1) = some instructions[k]
  exit_node : flow.graph.node? flow.exit = some (Instruction.methodExit method)
  edge_iff : ∀ source target, (∃ e ∈ flow.graph.edges, e.source = source ∧ e.target = target) ↔
    FlowsTo method instructions handlers source target
  once : (flow.graph.edges.toList.map fun e => (e.source, e.target)).Nodup
  weight_eq : ∀ e ∈ flow.graph.edges, e.weight = 1
  entry_degree : flow.graph.inDegree flow.entry = 0
  exit_degree : flow.graph.outDegree flow.exit = 0

/-! ## Edges -/

namespace Connected

variable {graph : Digraph Instruction}

theorem adj_iff (h : Connected method instructions handlers graph) {source target : Nat} :
    graph.Adj source target ↔ FlowsTo method instructions handlers source target := by
  have hEmpty : ∀ instruction,
      (Instruction.methodEntry method :: instructions)[source]? = some instruction →
      (instructions.length = 0 ∧ source = 0 ↔ instructions = []) := by
    intro instruction hSource
    have hLe := (List.getElem?_eq_some_iff.mp hSource).1
    rw [List.length_cons] at hLe
    rw [List.length_eq_zero_iff]
    constructor
    · exact And.left
    · rintro rfl
      exact ⟨rfl, by simpa using hLe⟩
  constructor
  · rintro ⟨e, he, rfl, rfl⟩
    obtain ⟨instruction, hSource, hFlow⟩ := h.mem_edges.mp he
    obtain ⟨-, -, orders, hOrders, hTarget⟩ := mem_flowEdges.mp hFlow
    refine ⟨instruction, orders, hSource, hOrders, ?_⟩
    rcases hTarget with ⟨hExit, hNone⟩ | ⟨-, order, hOrder, hNode⟩
    · refine Or.inl ⟨hExit, ?_⟩
      rcases hNone with hNone | hNone
      · exact Or.inr (Or.inl hNone)
      · exact Or.inl ((hEmpty instruction hSource).mp hNone)
    · rcases nodeOfOrder?_eq_some_iff.mp hNode with ⟨rfl, hExit⟩ | ⟨k, hk, rfl, hNext⟩
      · exact Or.inl ⟨hExit, Or.inr (Or.inr hOrder)⟩
      · exact Or.inr ⟨k, hk, hOrder, hNext⟩
  · rintro ⟨instruction, orders, hSource, hOrders, hTarget⟩
    refine ⟨⟨source, target, Edge.plainWeight⟩, h.mem_edges.mpr ⟨instruction, hSource, ?_⟩, rfl,
      rfl⟩
    refine mem_flowEdges.mpr ⟨rfl, rfl, orders, hOrders, ?_⟩
    show _ ∧ (_ ∨ _ ∧ source = 0) ∨ ¬ (_ ∧ source = 0) ∧ _
    rw [hEmpty instruction hSource]
    rcases hTarget with ⟨hExit, hEnd⟩ | ⟨k, hk, hOrder, hNext⟩
    · by_cases hNone : instructions = []
      · exact Or.inl ⟨hExit, Or.inr hNone⟩
      · rcases hEnd with hEnd | hEnd | hEnd
        · exact absurd hEnd hNone
        · exact Or.inl ⟨hExit, Or.inl hEnd⟩
        · exact Or.inr ⟨hNone, _, hEnd, nodeOfOrder?_eq_some_iff.mpr (Or.inl ⟨rfl, hExit⟩)⟩
    · refine Or.inr ⟨?_, _, hOrder, nodeOfOrder?_eq_some_iff.mpr (Or.inr ⟨k, hk, rfl, hNext⟩)⟩
      rintro rfl
      cases hk

theorem weight_eq (h : Connected method instructions handlers graph) {e : Edge}
    (he : e ∈ graph.edges) : e.weight = Edge.plainWeight := by
  obtain ⟨_, -, hFlow⟩ := h.mem_edges.mp he
  exact (mem_flowEdges.mp hFlow).2.1

theorem nodup_edges (h : Connected method instructions handlers graph) :
    (graph.edges.toList.map fun e => (e.source, e.target)).Nodup := by
  refine List.Nodup.map_on ?_ ?_
  · intro left hLeft right hRight hEq
    have hWeight := (h.weight_eq (Array.mem_toList_iff.mp hLeft)).trans
      (h.weight_eq (Array.mem_toList_iff.mp hRight)).symm
    obtain ⟨hSource, hTarget⟩ := Prod.mk.inj hEq
    cases left
    cases right
    simp_all
  · rw [h.edges_eq, List.nodup_flatMap]
    refine ⟨fun source _ => nodup_flowEdges source, ?_⟩
    have hNodup := List.nodup_range (n := instructions.length + 1)
    rw [← map_fst_sources method, List.Nodup, List.pairwise_map] at hNodup
    refine hNodup.imp ?_
    intro left right hNe e hLeft hRight
    exact hNe ((mem_flowEdges.mp hLeft).1.symm.trans (mem_flowEdges.mp hRight).1)

theorem reaches_iff (h : Connected method instructions handlers graph) {source target : Nat} :
    graph.Reaches source target ↔ source < instructions.length + 2 ∧
      Relation.ReflTransGen (FlowsTo method instructions handlers) source target := by
  have hAdj : graph.Adj = FlowsTo method instructions handlers :=
    funext fun _ => funext fun _ => propext h.adj_iff
  rw [Digraph.Reaches.iff_reflTransGen, h.size_eq, hAdj]

theorem isFlowGraph (h : Connected method instructions handlers graph) :
    IsFlowGraph method instructions handlers
      ⟨method, graph, handlers, instructions.length + 1⟩ where
  method_eq := rfl
  handlers_eq := rfl
  exit_eq := rfl
  size_eq := h.size_eq
  entry_node := h.node?_eq 0
  instruction_node := by
    intro k hk
    rw [h.node?_eq, List.cons_append, List.getElem?_cons_succ, List.getElem?_append_left hk,
      List.getElem?_eq_getElem hk]
  exit_node := by
    rw [h.node?_eq]
    simp
  edge_iff := fun _ _ => h.adj_iff
  once := h.nodup_edges
  weight_eq := fun _ => h.weight_eq
  entry_degree := by
    refine List.length_eq_zero_iff.mpr (List.eq_nil_iff_forall_not_mem.mpr fun e he => ?_)
    obtain ⟨hMem, hTarget⟩ := Digraph.mem_edgesInto.mp he
    exact absurd hTarget (Nat.ne_of_gt (h.target_pos hMem))
  exit_degree := by
    refine List.length_eq_zero_iff.mpr (List.eq_nil_iff_forall_not_mem.mpr fun e he => ?_)
    obtain ⟨hMem, hSource⟩ := Digraph.mem_edgesFrom.mp he
    have hLe := h.source_le hMem
    change e.source = instructions.length + 1 at hSource
    omega

end Connected

/-! ## The checks -/

theorem decides_checkHandlers (method : MethodId) (count : Nat) (handlers : List HandlerRange) :
    Decides (∀ range ∈ handlers, 0 ≤ range.start ∧ range.start ≤ count ∧ 0 ≤ range.stop ∧
        range.stop ≤ count ∧ 0 ≤ range.handler ∧ range.handler < count)
      (fun _ => True) Refusal (checkHandlers method count handlers) := by
  have hInside : ∀ range : HandlerRange, rangeInside count range = true ↔ 0 ≤ range.start ∧
      range.start ≤ count ∧ 0 ≤ range.stop ∧ range.stop ≤ count ∧ 0 ≤ range.handler ∧
      range.handler < count := by
    simp [rangeInside, and_assoc]
  simp only [← hInside, checkHandlers]
  split
  · rename_i range hFind
    refine .error (fun h => ?_) (.precondition _)
    have hOutside := List.find?_some hFind
    rw [h range (List.mem_of_find?_eq_some hFind)] at hOutside
    cases hOutside
  · rename_i hFind
    refine .ok (fun range hRange => ?_) trivial
    simpa using List.find?_eq_none.mp hFind range hRange

/-- The orders of all sources are inside exactly if the orders of all instructions are, unless there
is no instruction. -/
theorem staysInside_iff : (∀ source ∈ sources method instructions,
      StaysInside handlers instructions.length source) ↔
    (instructions ≠ [] → ∀ instruction ∈ Instruction.methodEntry method :: instructions,
      ∃ orders, instruction.successorsIn handlers = .ok orders ∧
        ∀ order ∈ orders, Inside instructions.length order) := by
  constructor
  · intro h hSome instruction hInstruction
    obtain ⟨node, hNode⟩ := List.mem_iff_getElem?.mp hInstruction
    obtain ⟨orders, hOrders, hNone | hInside⟩ := h (node, instruction) (mem_sources.mpr hNode)
    · exact absurd (List.length_eq_zero_iff.mp hNone.1) hSome
    · exact ⟨orders, hOrders, hInside⟩
  · rintro h ⟨node, instruction⟩ hSource
    by_cases hSome : instructions = []
    · obtain ⟨orders, hOrders, -⟩ := instruction.successorsIn_ok handlers
      have hNode := le_of_mem_sources hSource
      subst hSome
      exact ⟨orders, hOrders, Or.inl ⟨rfl, Nat.le_zero.mp hNode⟩⟩
    · have hInstruction := List.mem_of_getElem? (mem_sources.mp hSource)
      obtain ⟨orders, hOrders, hInside⟩ := h hSome instruction hInstruction
      exact ⟨orders, hOrders, Or.inr hInside⟩

theorem Connected.mem_dead_iff {graph : Digraph Instruction}
    (h : Connected method instructions handlers graph) {node : Nat} :
    node ∈ (graph.nodeIds.filter fun node =>
        node != instructions.length + 1 && !(graph.reachableFrom [0]).contains node) ↔
      node ≤ instructions.length ∧
        ¬ Relation.ReflTransGen (FlowsTo method instructions handlers) 0 node := by
  simp only [List.mem_filter, Digraph.nodeIds, List.mem_range, h.size_eq, Bool.and_eq_true,
    bne_iff_ne, Bool.not_eq_true', List.contains_eq_mem, decide_eq_false_iff_not,
    Digraph.mem_reachableFrom_iff, List.mem_singleton, exists_eq_left, h.reaches_iff]
  rw [← and_assoc]
  refine and_congr ⟨fun hNode => by omega, fun hNode => by omega⟩ (not_congr ?_)
  exact and_iff_right (by omega)

theorem Connected.mem_handled_iff {graph : Digraph Instruction}
    (h : Connected method instructions handlers graph)
    (hHandlers : ∀ range ∈ handlers, (range.handler + 1).toNat < instructions.length + 2)
    {node : Nat} :
    node ∈ graph.reachableFrom (handlers.map fun range => (range.handler + 1).toNat) ↔
      ∃ range ∈ handlers, Relation.ReflTransGen (FlowsTo method instructions handlers)
        (range.handler + 1).toNat node := by
  simp only [Digraph.mem_reachableFrom_iff, h.reaches_iff, List.mem_map]
  constructor
  · rintro ⟨_, ⟨range, hRange, rfl⟩, -, hFlows⟩
    exact ⟨range, hRange, hFlows⟩
  · rintro ⟨range, hRange, hFlows⟩
    exact ⟨_, ⟨range, hRange, rfl⟩, hHandlers range hRange, hFlows⟩

theorem decides_checkReachability {graph : Digraph Instruction}
    (hConnected : Connected method instructions handlers graph)
    (hHandlers : ∀ range ∈ handlers, (range.handler + 1).toNat < instructions.length + 2) :
    Decides (Covered method instructions handlers settings) (fun _ => True) BrokenFlow
      (checkReachability method graph (instructions.length + 1) handlers settings) := by
  unfold checkReachability Covered
  cases settings.unreachable with
  | allow => exact .ok trivial trivial
  | reject =>
    dsimp only
    split
    · rename_i hNil
      refine .ok (fun node hNode => ?_) trivial
      by_contra hFlows
      have hDead := hConnected.mem_dead_iff.mpr ⟨hNode, hFlows⟩
      rw [hNil] at hDead
      cases hDead
    · rename_i node rest hCons
      obtain ⟨hNode, hFlows⟩ := hConnected.mem_dead_iff.mp (hCons ▸ List.mem_cons_self)
      exact .error (fun h => hFlows (h node hNode)) (.invariant _)
  | allowHandlerCode =>
    dsimp only
    split
    · rename_i hNone
      refine .ok (fun node hNode => or_iff_not_imp_left.mpr fun hFlows => ?_) trivial
      have hListed := List.find?_eq_none.mp hNone node
        (hConnected.mem_dead_iff.mpr ⟨hNode, hFlows⟩)
      rw [← hConnected.mem_handled_iff hHandlers]
      simpa using hListed
    · rename_i node hFind
      obtain ⟨hNode, hFlows⟩ := hConnected.mem_dead_iff.mp (List.mem_of_find?_eq_some hFind)
      have hUnlisted := List.find?_some hFind
      refine .error (fun h => ?_) (.invariant _)
      have hListed := (hConnected.mem_handled_iff hHandlers).mpr
        ((h node hNode).resolve_left hFlows)
      simp [hListed] at hUnlisted

/-! ## The construction -/

/-- The flow of a method whose instructions and handlers fit. -/
theorem decides_flow (hPlaced : Placed method 0 instructions)
    (hRanges : ∀ range ∈ handlers, 0 ≤ range.start ∧ range.start ≤ instructions.length ∧
      0 ≤ range.stop ∧ range.stop ≤ instructions.length ∧
      0 ≤ range.handler ∧ range.handler < instructions.length) : Decides
    ((∀ source ∈ sources method instructions, StaysInside handlers instructions.length source) ∧
      Covered method instructions handlers settings)
    (IsFlowGraph method instructions handlers) BrokenFlow (do
      let graph ← connect method instructions handlers settings
      checkReachability method graph (instructions.length + 1) handlers settings
      return ⟨method, graph, handlers, instructions.length + 1⟩) := by
  refine (decides_connect hPlaced).bind fun _ graph hConnected => ?_
  have hHandlers : ∀ range ∈ handlers, (range.handler + 1).toNat < instructions.length + 2 := by
    intro range hRange
    have := hRanges range hRange
    omega
  refine Decides.congr ?_ (and_iff_left trivial)
  exact (decides_checkReachability hConnected hHandlers).bind (Q := True) fun _ _ _ =>
    .ok trivial hConnected.isFlowGraph

theorem decides_build (method : MethodId) (instructions : List Instruction)
    (handlers : List HandlerRange) (settings : Settings) : Decides
    (Placed method 0 instructions ∧
      (∀ range ∈ handlers, 0 ≤ range.start ∧ range.start ≤ instructions.length ∧
        0 ≤ range.stop ∧ range.stop ≤ instructions.length ∧
        0 ≤ range.handler ∧ range.handler < instructions.length) ∧
      (∀ source ∈ sources method instructions,
        StaysInside handlers instructions.length source) ∧
      Covered method instructions handlers settings)
    (IsFlowGraph method instructions handlers) Refusal
    (build method instructions handlers settings) := by
  unfold build
  refine (decides_checkStream method 0 instructions).bind fun hPlaced _ _ => ?_
  refine (decides_checkHandlers method instructions.length handlers).bind fun hRanges _ _ => ?_
  exact (decides_flow hPlaced hRanges).weaken fun _ => BrokenFlow.refusal

/-- A method whose instructions and handlers fit is refused only because of its flow. -/
theorem brokenFlow_of_build (hPlaced : Placed method 0 instructions)
    (hRanges : ∀ range ∈ handlers, 0 ≤ range.start ∧ range.start ≤ instructions.length ∧
      0 ≤ range.stop ∧ range.stop ≤ instructions.length ∧
      0 ≤ range.handler ∧ range.handler < instructions.length) {fault : Error}
    (h : build method instructions handlers settings = .error fault) : BrokenFlow fault := by
  obtain ⟨_, hStream⟩ := (decides_checkStream method 0 instructions).exists_ok_iff.mpr hPlaced
  obtain ⟨_, hChecked⟩ :=
    (decides_checkHandlers method instructions.length handlers).exists_ok_iff.mpr hRanges
  unfold build at h
  rw [hStream, hChecked] at h
  exact ((decides_flow hPlaced hRanges).of_eq_error h).2

theorem placed_iff : Placed method 0 instructions ↔
    (∀ instruction ∈ instructions, instruction.method = method) ∧
      ∀ k (hk : k < instructions.length), instructions[k].order = k := by
  constructor
  · intro h
    refine ⟨fun instruction hInstruction => ?_, fun k hk => ?_⟩
    · obtain ⟨k, hk⟩ := List.mem_iff_getElem?.mp hInstruction
      exact (h k instruction hk).1
    · rw [(h k _ (List.getElem?_eq_getElem hk)).2, Nat.zero_add]
  · rintro ⟨hOwned, hOrders⟩ k instruction hInstruction
    obtain ⟨hk, rfl⟩ := List.getElem?_eq_some_iff.mp hInstruction
    refine ⟨hOwned _ (List.getElem_mem hk), ?_⟩
    rw [Nat.zero_add]
    exact hOrders k hk

/-- A method has a flow graph exactly if it is admissible. The flow graph is then the one that its
instructions describe, and a method without one is never refused for an edge that is there already
or has no ends. -/
theorem build_iff_admissible (method : MethodId) (instructions : List Instruction)
    (handlers : List HandlerRange) (settings : Settings) :
    ((∃ flow, build method instructions handlers settings = .ok flow) ↔
        Admissible method instructions handlers settings) ∧
      (∀ flow, build method instructions handlers settings = .ok flow →
        IsFlowGraph method instructions handlers flow) ∧
      (∀ fault, build method instructions handlers settings = .error fault →
        (∀ source target, fault ≠ .duplicateEdge source target) ∧
          ∀ cause, fault ≠ .invalidArgument cause) := by
  have hBuild := decides_build method instructions handlers settings
  refine ⟨hBuild.exists_ok_iff.trans ?_, fun flow hFlow => (hBuild.of_eq_ok hFlow).2, ?_⟩
  · rw [placed_iff, staysInside_iff]
    constructor
    · rintro ⟨⟨hOwned, hOrders⟩, hRanges, hInside, hCovered⟩
      exact ⟨hOwned, hOrders, hRanges, hInside, hCovered⟩
    · rintro ⟨hOwned, hOrders, hRanges, hInside, hCovered⟩
      exact ⟨⟨hOwned, hOrders⟩, hRanges, hInside, hCovered⟩
  · intro fault hFault
    cases (hBuild.of_eq_error hFault).2 <;> simp

/-- An exception that is thrown and handled before the method returns. -/
def guarded : List Instruction :=
  let method : MethodId := ⟨"Guarded", "run", "()V"⟩
  [⟨method, 0, "0", .constant .null, none⟩, ⟨method, 1, "1", .throw, none⟩,
    ⟨method, 2, "2", .leave none, none⟩]

/-- The handler is reached by the exception that it handles. -/
theorem build_iff_admissible_guarded :
    Admissible ⟨"Guarded", "run", "()V"⟩ guarded [⟨0, 2, 2, none⟩] .strict ∧
      ¬ Admissible ⟨"Guarded", "run", "()V"⟩ guarded [] .strict := by
  constructor
  · refine (build_iff_admissible _ _ _ _).1.mp ?_
    have hRun : (build ⟨"Guarded", "run", "()V"⟩ guarded [⟨0, 2, 2, none⟩] .strict).isOk =
        true := by
      decide +kernel
    cases hBuild : build ⟨"Guarded", "run", "()V"⟩ guarded [⟨0, 2, 2, none⟩] .strict with
    | error _ => rw [hBuild] at hRun; cases hRun
    | ok flow => exact ⟨flow, rfl⟩
  · intro h
    obtain ⟨flow, hBuild⟩ := (build_iff_admissible _ _ _ _).1.mpr h
    have hRun : (build ⟨"Guarded", "run", "()V"⟩ guarded [] .strict).isOk = false := by
      decide +kernel
    rw [hBuild] at hRun
    cases hRun

end BytecodeFlow.FlowGraph
