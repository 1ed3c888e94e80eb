import BytecodeFlow.FlowGraph.Query
import BytecodeFlow.Proofs.FlowEdges

/-!
# The shape of flow graphs

The graph of a stream has the method entry as its first node and the method exit as its last one,
with the instructions in between, and the edges that are behind each of them (`decides_connect`). So
no edge enters the entry, and none leaves the exit (`build_wellShaped`), and the number of a node
can be read off the order of its instruction (`numbered_graph`). This is what the analyses rely on,
together with the edge from the entry to the exit that dominance adds (`WellShaped.augmented_ok`).
-/

namespace BytecodeFlow

namespace Draft

variable {α : Type} [NodeContent α]

/-- Contents that are all different become nodes in their order. -/
theorem nodes_addNodes {contents : List α} {draft : Draft α}
    (hFresh : ∀ a ∈ draft.nodes, ∀ b ∈ contents, (a == b) = false)
    (hNew : contents.Pairwise fun a b => (a == b) = false) :
    (draft.addNodes contents).nodes.toList = draft.nodes.toList ++ contents ∧
      (draft.addNodes contents).edges = draft.edges := by
  induction contents generalizing draft with
  | nil => simp [addNodes]
  | cons content contents ih =>
    rw [List.pairwise_cons] at hNew
    have hAbsent : draft.contains content = false := by
      simp only [contains, index?, Option.isSome_eq_false_iff, Option.isNone_iff_eq_none,
        Array.findFinIdx?_eq_none_iff]
      intro a ha
      simp [hFresh a ha content List.mem_cons_self]
    have hAdd : (draft.addNode content).nodes = draft.nodes.push content ∧
        (draft.addNode content).edges = draft.edges := by
      simp [addNode, hAbsent]
    have hFresh' : ∀ a ∈ (draft.addNode content).nodes, ∀ b ∈ contents, (a == b) = false := by
      intro a ha b hb
      rw [hAdd.1, Array.mem_push] at ha
      rcases ha with ha | rfl
      · exact hFresh a ha b (List.mem_cons_of_mem _ hb)
      · exact hNew.1 b hb
    have hRest := ih hFresh' hNew.2
    rw [addNodes] at hRest
    rw [addNodes, List.foldl_cons, hRest.1, hRest.2, hAdd.1, hAdd.2]
    simp

theorem nodes_ofNodes {contents : List α} (hNew : contents.Pairwise fun a b => (a == b) = false) :
    (ofNodes contents).nodes.toList = contents ∧ (ofNodes contents).edges = #[] := by
  have hNone : ∀ a ∈ ({} : Draft α).nodes, ∀ b ∈ contents, (a == b) = false := by simp
  exact nodes_addNodes hNone hNew

end Draft

/-- The last node is an exit, and the others stand at their orders behind the entry. -/
def Digraph.Numbered (g : Digraph Instruction) : Prop :=
  ∀ node content, g.node? node = some content →
    content.order = if node + 1 = g.size then methodExitOrder else (node : Int) - 1

namespace FlowGraph

variable {method : MethodId} {instructions : List Instruction} {handlers : List HandlerRange}
  {settings : Settings} {flow : FlowGraph}

/-- The instructions belong to the method and stand at their orders. -/
def Placed (method : MethodId) (position : Nat) (instructions : List Instruction) : Prop :=
  ∀ k instruction, instructions[k]? = some instruction →
    instruction.method = method ∧ instruction.order = ((position + k : Nat) : Int)

theorem placed_cons {position : Nat} {instruction : Instruction} :
    Placed method position (instruction :: instructions) ↔ (instruction.method = method ∧
      instruction.order = position) ∧ Placed method (position + 1) instructions := by
  constructor
  · intro h
    refine ⟨h 0 instruction rfl, fun k other hOther => ?_⟩
    rw [Nat.add_assoc, Nat.add_comm 1]
    exact h (k + 1) other hOther
  · rintro ⟨hFirst, hRest⟩ (_ | k) other hOther
    · cases hOther
      exact hFirst
    · rw [Nat.add_comm k, ← Nat.add_assoc]
      exact hRest k other hOther

theorem decides_checkStream (method : MethodId) (position : Nat) (instructions : List Instruction) :
    Decides (Placed method position instructions) (fun _ => True) Refusal
      (checkStream method position instructions) := by
  induction instructions generalizing position with
  | nil => exact .ok (fun k instruction h => by cases h) trivial
  | cons instruction instructions ih =>
    refine Decides.congr ?_ placed_cons.symm
    rw [checkStream]
    split
    · rename_i hMethod
      exact .error (fun h => hMethod h.1.1) (.precondition _)
    · rename_i hMethod
      split
      · exact .error (fun h => by omega) (.orderCollision _)
      · split
        · rename_i hOrder
          exact .error (fun h => hOrder h.1.2) (.precondition _)
        · rename_i hOrder
          rw [not_not] at hMethod hOrder
          exact (ih (position + 1)).congr (and_iff_right ⟨hMethod, hOrder⟩).symm

theorem beq_eq_false_of_order_ne {left right : Instruction} (h : left.order ≠ right.order) :
    (left == right) = false := by
  change (left.site == right.site) = false
  rw [beq_eq_false_iff_ne]
  intro hSite
  exact h (congrArg Site.order hSite)

/-- The entry, the instructions at their orders and the exit are all different. -/
theorem pairwise_nodes (h : Placed method 0 instructions) :
    (Instruction.methodEntry method :: instructions ++ [Instruction.methodExit method]).Pairwise
      fun a b => (a == b) = false := by
  have hOrders : ∀ k (hk : k < instructions.length), instructions[k].order = (k : Int) := by
    intro k hk
    rw [(h k _ (List.getElem?_eq_getElem hk)).2, Nat.zero_add]
  have hPos : ∀ a ∈ instructions, 0 ≤ a.order := by
    intro a ha
    obtain ⟨k, hk, rfl⟩ := List.mem_iff_getElem.mp ha
    rw [hOrders k hk]
    omega
  rw [List.cons_append, List.pairwise_cons, List.pairwise_append]
  refine ⟨?_, ?_, by simp, ?_⟩
  · intro b hb
    apply beq_eq_false_of_order_ne
    rcases List.mem_append.mp hb with hb | hb
    · have := hPos b hb
      simp only [Instruction.methodEntry, methodEntryOrder]
      omega
    · obtain rfl := List.mem_singleton.mp hb
      simp [Instruction.methodEntry, Instruction.methodExit, methodEntryOrder, methodExitOrder]
  · rw [List.pairwise_iff_getElem]
    intro i j hi hj hij
    apply beq_eq_false_of_order_ne
    rw [hOrders i hi, hOrders j hj]
    omega
  · intro a ha b hb
    obtain rfl := List.mem_singleton.mp hb
    apply beq_eq_false_of_order_ne
    have := hPos a ha
    simp only [Instruction.methodExit, methodExitOrder]
    omega

/-! ## The graph of a stream -/

/-- The nodes that have edges behind them, with their instructions. -/
def sources (method : MethodId) (instructions : List Instruction) : List (Nat × Instruction) :=
  (List.range (instructions.length + 1)).zip (Instruction.methodEntry method :: instructions)

theorem map_fst_sources (method : MethodId) (instructions : List Instruction) :
    (sources method instructions).map Prod.fst = List.range (instructions.length + 1) :=
  List.map_fst_zip (by simp)

theorem mem_sources {node : Nat} {instruction : Instruction} :
    (node, instruction) ∈ sources method instructions ↔
      (Instruction.methodEntry method :: instructions)[node]? = some instruction := by
  rw [← mem_zip_range]
  rfl

theorem le_of_mem_sources {source : Nat × Instruction} (h : source ∈ sources method instructions) :
    source.1 ≤ instructions.length := by
  have hRange := List.mem_map_of_mem (f := Prod.fst) h
  rw [map_fst_sources, List.mem_range] at hRange
  omega

theorem decides_foldlM_addFlows {draft : Draft Instruction}
    (hSize : draft.nodes.size = instructions.length + 2) (hEdges : draft.edges = #[]) :
    Decides
      (∀ source ∈ sources method instructions, StaysInside handlers instructions.length source)
      (GrownBy draft
        ((sources method instructions).flatMap (flowEdges handlers instructions.length)))
      BrokenFlow ((sources method instructions).foldlM
        (addFlows settings handlers instructions.length) draft) := by
  refine Decides.foldlM (I := fun done =>
    GrownBy draft (done.flatMap (flowEdges handlers instructions.length))) ?_ ⟨rfl, by simp⟩
  intro done source rest state hSplit hState
  have hSource : source ∈ sources method instructions := by simp [hSplit]
  -- A node has edges behind it once its turn has come, and not before.
  have hFresh : ∀ e ∈ state.edges, e.source ≠ source.1 := by
    intro e he hEq
    rw [← Array.mem_toList_iff, hState.edges_eq, hEdges, List.nil_append, List.mem_flatMap] at he
    obtain ⟨other, hOther, he⟩ := he
    have hNodup := List.nodup_range (n := instructions.length + 1)
    rw [← map_fst_sources method, hSplit, List.map_append, List.nodup_append] at hNodup
    exact hNodup.2.2 _ (List.mem_map_of_mem hOther) _ (by simp)
      ((mem_flowEdges.mp he).1.symm.trans hEq)
  rw [List.flatMap_append, List.flatMap_singleton]
  have hState' : state.nodes.size = instructions.length + 2 := by rw [hState.nodes_eq, hSize]
  exact (decides_addFlows hState' (le_of_mem_sources hSource) hFresh).mono fun _ => hState.trans

/-- The nodes of the graph of a stream in order, and its edges in the order of their sources. -/
structure Connected (method : MethodId) (instructions : List Instruction)
    (handlers : List HandlerRange) (graph : Digraph Instruction) : Prop where
  nodes_eq : graph.nodes.toList =
    Instruction.methodEntry method :: instructions ++ [Instruction.methodExit method]
  edges_eq : graph.edges.toList =
    (sources method instructions).flatMap (flowEdges handlers instructions.length)

/-- The graph of a stream exists unless control leaves the method. -/
theorem decides_connect (hPlaced : Placed method 0 instructions) :
    Decides
      (∀ source ∈ sources method instructions, StaysInside handlers instructions.length source)
      (Connected method instructions handlers) BrokenFlow
      (connect method instructions handlers settings) := by
  obtain ⟨hNodes, hEdges⟩ := Draft.nodes_ofNodes (pairwise_nodes hPlaced)
  have hSize := congrArg List.length hNodes
  simp only [Array.length_toList, List.length_append, List.length_cons, List.length_nil] at hSize
  refine Decides.congr (Decides.bind (Q := True) (decides_foldlM_addFlows hSize hEdges) ?_)
    (and_iff_left trivial)
  intro _ draft hDraft
  refine .ok trivial ⟨?_, ?_⟩
  · rw [← hNodes, ← hDraft.nodes_eq]
    rfl
  · have hList := hDraft.edges_eq
    rw [hEdges, List.nil_append] at hList
    exact hList

namespace Connected

variable {graph : Digraph Instruction}

theorem size_eq (h : Connected method instructions handlers graph) :
    graph.size = instructions.length + 2 := by
  show graph.nodes.size = _
  rw [← Array.length_toList, h.nodes_eq]
  simp

theorem node?_eq (h : Connected method instructions handlers graph) (node : Nat) :
    graph.node? node = (Instruction.methodEntry method :: instructions ++
      [Instruction.methodExit method])[node]? := by
  rw [← h.nodes_eq, Array.getElem?_toList]
  rfl

theorem mem_edges (h : Connected method instructions handlers graph) {e : Edge} :
    e ∈ graph.edges ↔ ∃ instruction,
      (Instruction.methodEntry method :: instructions)[e.source]? = some instruction ∧
      e ∈ flowEdges handlers instructions.length (e.source, instruction) := by
  rw [← Array.mem_toList_iff, h.edges_eq, List.mem_flatMap]
  constructor
  · rintro ⟨⟨node, instruction⟩, hSource, he⟩
    obtain rfl : e.source = node := (mem_flowEdges.mp he).1
    exact ⟨instruction, mem_sources.mp hSource, he⟩
  · rintro ⟨instruction, hSource, he⟩
    exact ⟨_, mem_sources.mpr hSource, he⟩

theorem source_le (h : Connected method instructions handlers graph) {e : Edge}
    (he : e ∈ graph.edges) : e.source ≤ instructions.length := by
  obtain ⟨_, hSource, -⟩ := h.mem_edges.mp he
  exact le_of_mem_sources (mem_sources.mpr hSource)

theorem target_pos (h : Connected method instructions handlers graph) {e : Edge}
    (he : e ∈ graph.edges) : 0 < e.target := by
  obtain ⟨_, -, hFlow⟩ := h.mem_edges.mp he
  obtain ⟨-, -, _, -, ⟨hTarget, -⟩ | ⟨-, _, -, hTarget⟩⟩ := mem_flowEdges.mp hFlow
  · omega
  · exact (nodeOfOrder?_lt hTarget).1

end Connected

/-! ## The flow graph -/

/-- What every flow graph of a method offers: the entry is the first node, the exit is the last one,
no edge enters the entry, and none leaves the exit. -/
structure WellShaped (flow : FlowGraph) : Prop where
  size_eq : flow.graph.size = flow.exit + 1
  exit_pos : 0 < flow.exit
  entry_node : flow.graph.node? flow.entry = some (Instruction.methodEntry flow.method)
  exit_node : flow.graph.node? flow.exit = some (Instruction.methodExit flow.method)
  source_lt : ∀ {source target : Nat}, flow.graph.Adj source target → source < flow.exit
  target_ne : ∀ {source target : Nat}, flow.graph.Adj source target → target ≠ flow.entry

/-- The parts of a flow graph that was built. -/
theorem build_eq_ok (h : build method instructions handlers settings = .ok flow) :
    flow.method = method ∧ flow.handlers = handlers ∧ flow.exit = instructions.length + 1 ∧
      Placed method 0 instructions ∧ Connected method instructions handlers flow.graph := by
  unfold build at h
  obtain ⟨_, hStream, h⟩ := bind_eq_ok.mp h
  obtain ⟨_, -, h⟩ := bind_eq_ok.mp h
  obtain ⟨graph, hConnect, h⟩ := bind_eq_ok.mp h
  obtain ⟨_, -, h⟩ := bind_eq_ok.mp h
  cases h
  have hPlaced := ((decides_checkStream method 0 instructions).of_eq_ok hStream).1
  exact ⟨rfl, rfl, rfl, hPlaced, ((decides_connect hPlaced).of_eq_ok hConnect).2⟩

/-- The graph is frozen from a draft of its nodes, to which the edges behind each of them were
added. -/
theorem exists_draft_of_build (h : build method instructions handlers settings = .ok flow) :
    ∃ draft, (sources method instructions).foldlM (addFlows settings handlers instructions.length)
        (Draft.ofNodes (.methodEntry method :: instructions ++ [.methodExit method])) = .ok draft ∧
      draft.freeze = flow.graph := by
  unfold build at h
  obtain ⟨_, -, h⟩ := bind_eq_ok.mp h
  obtain ⟨_, -, h⟩ := bind_eq_ok.mp h
  obtain ⟨graph, hConnect, h⟩ := bind_eq_ok.mp h
  obtain ⟨_, -, h⟩ := bind_eq_ok.mp h
  obtain ⟨draft, hFold, hFreeze⟩ := bind_eq_ok.mp hConnect
  cases hFreeze
  cases h
  exact ⟨draft, hFold, rfl⟩

theorem build_wellShaped (h : build method instructions handlers settings = .ok flow) :
    flow.WellShaped := by
  obtain ⟨rfl, rfl, hExit, -, hConnected⟩ := build_eq_ok h
  refine ⟨?_, by omega, ?_, ?_, ?_, ?_⟩
  · rw [hConnected.size_eq, hExit]
  · rw [hConnected.node?_eq]
    rfl
  · rw [hConnected.node?_eq, hExit]
    simp
  · rintro source target ⟨e, he, rfl, rfl⟩
    have := hConnected.source_le he
    omega
  · rintro source target ⟨e, he, rfl, rfl⟩
    exact Nat.ne_of_gt (hConnected.target_pos he)

/-- The nodes of a flow graph are numbered by their orders. -/
theorem numbered_graph (hBuild : build method instructions handlers settings = .ok flow) :
    flow.graph.Numbered := by
  obtain ⟨-, -, -, hPlaced, hConnected⟩ := build_eq_ok hBuild
  intro node content hNode
  rw [hConnected.node?_eq] at hNode
  rw [hConnected.size_eq]
  cases node with
  | zero =>
    cases hNode
    rw [if_neg (by omega)]
    rfl
  | succ k =>
    rw [List.cons_append, List.getElem?_cons_succ] at hNode
    by_cases hk : k < instructions.length
    · rw [List.getElem?_append_left hk] at hNode
      rw [if_neg (by omega), (hPlaced k content hNode).2]
      omega
    · rw [List.getElem?_append_right (by omega)] at hNode
      obtain ⟨hLast, rfl⟩ := List.getElem?_eq_some_iff.mp hNode
      rw [List.length_singleton] at hLast
      rw [if_pos (by omega)]
      simp [Instruction.methodExit]

/-- The augmented graph exists. It has the same nodes, and one edge more at most. -/
theorem WellShaped.augmented_ok (hShape : flow.WellShaped) :
    ∃ graph, flow.augmented = .ok graph ∧ graph.nodes = flow.graph.nodes ∧
      ∀ s t, graph.Adj s t ↔ flow.graph.Adj s t ∨ (s = flow.entry ∧ t = flow.exit) := by
  unfold augmented
  by_cases hEdge : flow.graph.hasEdge flow.entry flow.exit = true
  · rw [if_pos hEdge]
    refine ⟨flow.graph, rfl, rfl, fun s t => ⟨Or.inl, ?_⟩⟩
    rintro (hAdj | ⟨rfl, rfl⟩)
    · exact hAdj
    · exact Digraph.hasEdge_iff.mp hEdge
  · have hSize : flow.graph.nodes.size = flow.exit + 1 := hShape.size_eq
    have hFresh : ⟨flow.entry, flow.exit, Edge.plainWeight⟩ ∉ flow.graph.thaw.edges :=
      fun hMem => hEdge (Digraph.hasEdge_iff.mpr ⟨_, hMem, rfl, rfl⟩)
    obtain ⟨draft, hAdd⟩ := Draft.addEdgeLabelled_ok none
      (show flow.entry < flow.graph.thaw.nodes.size by
        show 0 < flow.graph.nodes.size
        omega)
      (show flow.exit < flow.graph.nodes.size by omega) hFresh
    have hExtends := Draft.addEdgeLabelled_eq_ok hAdd
    rw [if_neg hEdge, hAdd]
    refine ⟨draft.freeze, rfl, hExtends.nodes_eq, fun s t => ?_⟩
    show (∃ e ∈ draft.edges, e.source = s ∧ e.target = t) ↔ _
    rw [hExtends.edges_eq]
    constructor
    · rintro ⟨e, he, rfl, rfl⟩
      rcases Array.mem_push.mp he with he | rfl
      · exact Or.inl ⟨e, he, rfl, rfl⟩
      · exact Or.inr ⟨rfl, rfl⟩
    · rintro (⟨e, he, rfl, rfl⟩ | ⟨rfl, rfl⟩)
      · exact ⟨e, Array.mem_push.mpr (Or.inl he), rfl, rfl⟩
      · exact ⟨_, Array.mem_push.mpr (Or.inr rfl), rfl, rfl⟩

end FlowGraph

end BytecodeFlow
