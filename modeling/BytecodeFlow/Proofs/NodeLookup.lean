import BytecodeFlow.Proofs.DependenceRoots
import BytecodeFlow.Proofs.DraftAgreement

/-!
# Nodes by content, by position and by order

The node of an instruction can be looked up by its content, among all nodes, or by its position,
which is read off its order: the entry and the instructions are numbered by their orders, and the
exit comes last (`Numbered`). Instructions are compared by their sites only, but these contain the
orders, and no two nodes have the same. So both ways lead to the same node
(`Numbered.locate_eq_ok_iff`, `Distinct.index?_eq_some_iff`), and no order occurs twice
(`Numbered.nodeAt_eq`). All graphs that are derived from a flow graph keep its nodes.

The position behind the last order is not an order. An instruction of the last order has a node in a
method that is long enough, and is found there by its content, but not by its position.
-/

namespace BytecodeFlow

namespace Instruction

/-- The instructions that the constructors can make: they are placed at an order that is not
reserved, or sentinels, on some line or on none. -/
inductive Constructible : Instruction → Prop
  | of {method : MethodId} {order : Int} {label : String} {operation : Operation}
      {instruction : Instruction}
      (h : Instruction.of method order label operation = .ok instruction) :
      Constructible instruction
  | methodEntry (method : MethodId) : Constructible (methodEntry method)
  | methodExit (method : MethodId) : Constructible (methodExit method)
  | withLine {instruction : Instruction} (h : Constructible instruction) (line : Nat) :
      Constructible (instruction.withLine line)

variable {instruction content other : Instruction}

/-- Only the exit has the order of the exit, and all other orders are at least that of the entry. -/
theorem Constructible.order_spec (h : instruction.Constructible) :
    instruction.isMethodExit = true ∧ instruction.order = methodExitOrder ∨
      instruction.isMethodExit = false ∧ methodEntryOrder ≤ instruction.order := by
  induction h with
  | of h =>
    unfold Instruction.of at h
    split at h
    · cases h
    split at h
    · cases h
    split at h
    · cases h
    rename_i hOrder hSentinel
    cases h
    refine Or.inr ⟨?_, ?_⟩
    · rw [isMethodExit, decide_eq_false_iff_not]
      rintro rfl
      exact hSentinel rfl
    · simp only [methodEntryOrder]
      omega
  | methodEntry => exact Or.inr ⟨rfl, le_rfl⟩
  | methodExit => exact Or.inl ⟨rfl, rfl⟩
  | withLine _ _ ih => exact ih

theorem order_eq_of_beq (h : (content == instruction) = true) :
    content.order = instruction.order :=
  congrArg Site.order (eq_of_beq (a := content.site) h)

end Instruction

namespace Digraph

variable {g : Digraph Instruction} {instruction content : Instruction} {m n node : Nat}

theorem lt_size_of_node? {α : Type} {g : Digraph α} {content : α}
    (h : g.node? node = some content) : node < g.size :=
  (Array.getElem?_eq_some_iff.mp h).1

/-- Where an instruction should stand. -/
def position (g : Digraph Instruction) (instruction : Instruction) : Int :=
  if instruction.isMethodExit then g.size - 1 else nextOrder instruction.order

theorem locate_eq (g : Digraph Instruction) (instruction : Instruction) :
    g.locate instruction =
      if 0 ≤ g.position instruction ∧
          (g.node? (g.position instruction).toNat).any (· == instruction) = true then
        .ok (g.position instruction).toNat
      else .error (.invalidArgument (.unlocated instruction.text instruction.method.text)) := by
  simp only [locate]
  refine if_congr (and_congr_right fun _ => ?_) rfl rfl
  rw [← position]
  cases g.node? (g.position instruction).toNat <;> rfl

theorem locate_eq_ok_iff_position :
    g.locate instruction = .ok n ↔ (n : Int) = g.position instruction ∧
      ∃ content, g.node? n = some content ∧ (content == instruction) = true := by
  rw [locate_eq, ← Option.any_eq_true]
  constructor
  · intro h
    split at h <;> cases h
    rename_i hFound
    exact ⟨Int.toNat_of_nonneg hFound.1, hFound.2⟩
  · rintro ⟨hPosition, hFound⟩
    rw [← hPosition, Int.toNat_natCast]
    exact if_pos ⟨Int.natCast_nonneg n, hFound⟩

theorem locate_eq_error (h : ∀ n, g.locate instruction ≠ .ok n) :
    g.locate instruction =
      .error (.invalidArgument (.unlocated instruction.text instruction.method.text)) := by
  rw [locate_eq] at h ⊢
  exact if_neg fun hFound => h _ (if_pos hFound)

namespace Numbered

theorem congr {h : Digraph Instruction} (hNumbered : g.Numbered) (hNodes : h.nodes = g.nodes) :
    h.Numbered := by
  intro node content hNode
  rw [node?, hNodes] at hNode
  rw [size, hNodes]
  exact hNumbered node content hNode

/-- No two nodes have the same order. -/
theorem eq_of_order_eq {other : Instruction} (h : g.Numbered) (hm : g.node? m = some content)
    (hn : g.node? n = some other) (hOrder : content.order = other.order) : m = n := by
  have hmSize := lt_size_of_node? hm
  have hnSize := lt_size_of_node? hn
  rw [h m content hm, h n other hn] at hOrder
  unfold methodExitOrder at hOrder
  split at hOrder <;> split at hOrder <;> omega

theorem distinct (h : g.Numbered) : g.Distinct :=
  fun _ _ _ _ hm hn hSame => h.eq_of_order_eq hm hn (Instruction.order_eq_of_beq hSame)

/-- An instruction that can be made is found at its position, unless it has the last order. -/
theorem locate_eq_ok_iff (h : g.Numbered) (hMade : instruction.Constructible) :
    g.locate instruction = .ok n ↔ instruction.order < lastOrder ∧
      ∃ content, g.node? n = some content ∧ (content == instruction) = true := by
  rw [locate_eq_ok_iff_position]
  refine and_congr_left ?_
  rintro ⟨content, hNode, hSame⟩
  have hSize := lt_size_of_node? hNode
  have hOrder := Instruction.order_eq_of_beq hSame
  rw [h n content hNode] at hOrder
  unfold position
  unfold methodExitOrder at hOrder
  rcases hMade.order_spec with ⟨hExit, hLast⟩ | ⟨hExit, hLater⟩
  · rw [if_pos hExit]
    unfold methodExitOrder at hLast
    split at hOrder <;> omega
  · rw [if_neg (by simp [hExit])]
    unfold methodEntryOrder at hLater
    unfold nextOrder
    split at hOrder <;> omega

/-- The orders of the nodes are below their number. -/
theorem order_lt (h : g.Numbered) (hNode : g.node? n = some content) :
    content.order + 2 < g.size := by
  have hSize := lt_size_of_node? hNode
  rw [h n content hNode]
  unfold methodExitOrder
  split <;> omega

/-- An order is that of one node at most. -/
theorem nodeAt_eq (h : g.Numbered) (order : Int) :
    ∃ found, g.nodeAt order = .ok found ∧
      ∀ n, found = some n ↔ ∃ content, g.node? n = some content ∧ content.order = order := by
  obtain ⟨nodes, hNodes⟩ : ∃ nodes, nodes = (List.range g.nodes.size).filter fun i =>
    (g.nodes[i]?.map NodeContent.order) == some order := ⟨_, rfl⟩
  have hMem : ∀ n, n ∈ nodes ↔ ∃ content, g.node? n = some content ∧ content.order = order := by
    intro n
    rw [hNodes, List.mem_filter, List.mem_range, beq_iff_eq, Option.map_eq_some_iff]
    exact ⟨fun hn => hn.2, fun hn => ⟨lt_size_of_node? hn.choose_spec.1, hn⟩⟩
  have hNodup : nodes.Nodup := hNodes ▸ List.nodup_range.filter _
  unfold nodeAt findByOrder
  rw [← hNodes]
  match nodes with
  | [] => exact ⟨none, rfl, by simpa using hMem⟩
  | [node] => exact ⟨some node, rfl, by simpa [eq_comm] using hMem⟩
  | first :: second :: rest =>
    -- two nodes with the order would be the same
    obtain ⟨content, hFirst, hOrder⟩ := (hMem first).mp (by simp)
    obtain ⟨other, hSecond, hOther⟩ := (hMem second).mp (by simp)
    have hEq := h.eq_of_order_eq hFirst hSecond (hOrder.trans hOther.symm)
    simp [hEq] at hNodup

end Numbered

end Digraph

namespace FlowGraph

variable {method : MethodId} {instructions : List Instruction} {handlers : List HandlerRange}
  {settings : Settings} {flow : FlowGraph}

/-- The instruction at an order is the content of the node with this order, unless it is the last
order. -/
theorem instruction?_eq_some_iff (hNumbered : flow.graph.Numbered) (hShape : flow.WellShaped)
    {order : Int} {content : Instruction} :
    flow.instruction? order = some content ↔ order < lastOrder ∧
      ∃ n, flow.graph.node? n = some content ∧ content.order = order := by
  have hSize := hShape.size_eq
  unfold instruction? nextOrder?
  constructor
  · intro h
    split at h
    · rename_i hOrder
      refine ⟨?_, _, h, by rw [hNumbered _ _ h, if_pos hSize.symm, hOrder]⟩
      unfold methodExitOrder at hOrder
      omega
    · by_cases hBefore : order < lastOrder
      · rw [if_pos hBefore] at h
        simp only at h
        split at h
        · rename_i hOther hInside
          refine ⟨hBefore, _, h, ?_⟩
          rw [hNumbered _ _ h, if_neg (by omega)]
          omega
        · cases h
      · rw [if_neg hBefore] at h
        cases h
  · rintro ⟨hBefore, n, hNode, hOrder⟩
    have hn := Digraph.lt_size_of_node? hNode
    rw [hNumbered n content hNode] at hOrder
    split at hOrder
    · obtain rfl : n = flow.exit := by omega
      rw [if_pos hOrder.symm, hNode]
    · have hOther : order ≠ methodExitOrder := by
        unfold methodExitOrder
        omega
      rw [if_neg hOther, if_pos hBefore]
      simp only
      rw [if_pos (by omega), ← hNode]
      congr 1
      omega

theorem instruction?_eq_none (hNumbered : flow.graph.Numbered) (hShape : flow.WellShaped)
    {order : Int} (hLast : lastOrder ≤ order) : flow.instruction? order = none := by
  rw [Option.eq_none_iff_forall_ne_some]
  intro content hContent
  have hBefore := ((instruction?_eq_some_iff hNumbered hShape).mp hContent).1
  omega

end FlowGraph

namespace ControlDependence.Derived

variable {flow : FlowGraph} {graph : Digraph Instruction} {tree : PostDominatorTree}
  {dependence : ControlDependence}

theorem nodes_tree (h : Derived flow graph tree dependence) (hShape : flow.WellShaped) :
    tree.graph.nodes = flow.graph.nodes := by
  obtain ⟨_, same, -, hSame, -, -, -, hNodes, -⟩ := hShape.postDominators_ok
  obtain rfl := Except.ok.inj (h.postDominators_eq.symm.trans hSame)
  exact hNodes

theorem nodes_dependence (h : Derived flow graph tree dependence) (hShape : flow.WellShaped) :
    dependence.graph.nodes = flow.graph.nodes :=
  (nodes_ofGraph h.ofGraph_eq).trans (h.nodes_eq hShape)

end ControlDependence.Derived

namespace FlowGraph

variable {method : MethodId} {instructions : List Instruction} {handlers : List HandlerRange}
  {settings : Settings} {flow : FlowGraph}

/-- A graph with the nodes of a flow graph finds the instructions that the flow graph has, below the
last order. -/
theorem instruction?_eq_bind (hNumbered : flow.graph.Numbered) (hShape : flow.WellShaped)
    {g : Digraph Instruction} (hNodes : g.nodes = flow.graph.nodes) {order : Int}
    {found : Option Nat}
    (hFound : ∀ n, found = some n ↔ ∃ content, g.node? n = some content ∧ content.order = order)
    (hBefore : ∀ n, found = some n → order < lastOrder) :
    flow.instruction? order = found.bind g.node? ∧
      (flow.instruction? order = none ↔ found = none) := by
  have hNode : g.node? = flow.graph.node? := by
    funext n
    rw [Digraph.node?, Digraph.node?, hNodes]
  rw [hNode] at hFound ⊢
  cases found with
  | none =>
    have hNone : flow.instruction? order = none := by
      rw [Option.eq_none_iff_forall_ne_some]
      intro content hContent
      obtain ⟨-, n, hn, hOrder⟩ := (instruction?_eq_some_iff hNumbered hShape).mp hContent
      cases (hFound n).mpr ⟨content, hn, hOrder⟩
    simp [hNone]
  | some n =>
    obtain ⟨content, hn, hOrder⟩ := (hFound n).mp rfl
    have hContent := (instruction?_eq_some_iff hNumbered hShape).mpr ⟨hBefore n rfl, n, hn, hOrder⟩
    simp [hContent, hn]

/-- **Instructions are looked up alike.** In the flow graph of a method and in the graphs that are
derived from it, the position of an instruction and its content lead to the same node, or both lead
to none. The index of the draft that a graph was frozen from finds the same. An order is never that
of two nodes, and its node has the instruction that the flow graph has at this order. This holds
below the last order, and for all orders in a method with no more instructions than that; at the
last order nothing is found by position. -/
theorem lookups_agree (hBuild : build method instructions handlers settings = .ok flow) :
    ∃ augmented tree dependence, flow.augmented = .ok augmented ∧
      flow.postDominators = .ok tree ∧ flow.controlDependence = .ok dependence ∧
      ∀ g ∈ [flow.graph, augmented, tree.graph, dependence.graph],
        (∃ draft : IndexedDraft Instruction, draft.Reachable ∧ draft.freeze? = some g ∧
          ∀ instruction, draft.index? instruction = g.index? instruction) ∧
        (∀ n content, g.node? n = some content → g.index? content = some n) ∧
        (∀ instruction : Instruction, instruction.Constructible →
          (instruction.order < lastOrder ∨ instructions.length ≤ lastOrder →
            ∀ n, g.locate instruction = .ok n ↔ g.index? instruction = some n) ∧
          (g.index? instruction = none ∨ lastOrder ≤ instruction.order → g.locate instruction =
            .error (.invalidArgument (.unlocated instruction.text instruction.method.text)))) ∧
        ∀ order : Int, ∃ found, g.nodeAt order = .ok found ∧
          (order < lastOrder ∨ instructions.length ≤ lastOrder →
            flow.instruction? order = found.bind g.node? ∧
            (flow.instruction? order = none ↔ found = none)) ∧
          (lastOrder ≤ order → flow.instruction? order = none) := by
  have hShape := build_wellShaped hBuild
  have hFlow := numbered_graph hBuild
  obtain ⟨augmented, tree, dependence, hDerived⟩ := ControlDependence.exists_derived hShape
  refine ⟨augmented, tree, dependence, hDerived.augmented_eq, hDerived.postDominators_eq,
    hDerived.controlDependence_eq, fun g hg => ?_⟩
  -- no step from one graph to the next adds or moves a node
  have hNodes : g.nodes = flow.graph.nodes := by
    simp only [List.mem_cons, List.not_mem_nil, or_false] at hg
    rcases hg with rfl | rfl | rfl | rfl
    · rfl
    · exact hDerived.nodes_eq hShape
    · exact hDerived.nodes_tree hShape
    · exact hDerived.nodes_dependence hShape
  have hNumbered := hFlow.congr hNodes
  have hDistinct := hNumbered.distinct
  have hSize : g.size = instructions.length + 2 := by
    obtain ⟨-, -, -, -, hConnected⟩ := build_eq_ok hBuild
    rw [Digraph.size, hNodes]
    exact hConnected.size_eq
  -- a node of a short method is below the last order
  have hBelow : ∀ {order : Int}, order < lastOrder ∨ instructions.length ≤ lastOrder →
      ∀ {n content}, g.node? n = some content → content.order = order → order < lastOrder := by
    rintro order (hBefore | hShort) n content hNode rfl
    · exact hBefore
    · have hLess := hNumbered.order_lt hNode
      omega
  have hDrafted : g.Drafted :=
    drafted_graphs hBuild hDerived.augmented_eq hDerived.postDominators_eq
      hDerived.controlDependence_eq g (by
        simp only [List.mem_cons, List.not_mem_nil, or_false] at hg ⊢
        tauto)
  refine ⟨?_, fun n content hNode => ?_,
    fun instruction hMade => ⟨fun hCase n => ?_, fun hCase => ?_⟩, fun order => ?_⟩
  · obtain ⟨draft, hReachable, hFreeze⟩ := hDrafted
    exact ⟨draft, hReachable, hFreeze, hReachable.consistent.index?_eq hFreeze⟩
  · exact hDistinct.index?_eq_some_iff.mpr ⟨content, hNode, beq_self_eq_true content.site⟩
  · rw [hNumbered.locate_eq_ok_iff hMade, hDistinct.index?_eq_some_iff, and_iff_right_iff_imp]
    rintro ⟨content, hNode, hSame⟩
    exact hBelow hCase hNode (Instruction.order_eq_of_beq hSame)
  · refine Digraph.locate_eq_error fun n hn => ?_
    obtain ⟨hBefore, hFound⟩ := (hNumbered.locate_eq_ok_iff hMade).mp hn
    rcases hCase with hNone | hLast
    · rw [← hDistinct.index?_eq_some_iff, hNone] at hFound
      cases hFound
    · omega
  · obtain ⟨found, hAt, hFound⟩ := hNumbered.nodeAt_eq order
    refine ⟨found, hAt, fun hCase => ?_, fun hLast => ?_⟩
    · refine instruction?_eq_bind hFlow hShape hNodes hFound fun n hn => ?_
      obtain ⟨content, hNode, hOrder⟩ := (hFound n).mp hn
      exact hBelow hCase hNode hOrder
    · exact instruction?_eq_none hFlow hShape hLast

/-- The post-dominator tree has the exit of an overload at its last node, since descriptors are not
compared. An exit with a line is at no node. -/
theorem lookups_agree_countdown :
    ∃ flow tree, build ⟨"Loop", "run", "(I)V"⟩ ControlDependence.countdown [] {} = .ok flow ∧
      flow.postDominators = .ok tree ∧
      tree.graph.locate (.methodExit ⟨"Loop", "run", "(J)V"⟩) = .ok 6 ∧
      (∃ error, tree.graph.locate
        ((Instruction.methodExit ⟨"Loop", "run", "(I)V"⟩).withLine 3) = .error error) ∧
      tree.graph.nodeAt 5 = .ok none := by
  have hRun : ((build ⟨"Loop", "run", "(I)V"⟩ ControlDependence.countdown [] {}).bind fun flow =>
      flow.postDominators.map fun tree =>
        (tree.graph.index? (.methodExit ⟨"Loop", "run", "(J)V"⟩),
          tree.graph.index? ((Instruction.methodExit ⟨"Loop", "run", "(I)V"⟩).withLine 3),
          (flow.instruction? 5).isNone)).toOption = some (some 6, none, true) := by
    decide +kernel
  cases hBuild : build ⟨"Loop", "run", "(I)V"⟩ ControlDependence.countdown [] {} with
  | error _ => simp [hBuild, Except.bind, Except.toOption] at hRun
  | ok flow =>
    obtain ⟨_, tree, _, -, hTree, -, hAgree⟩ := lookups_agree hBuild
    simp only [hBuild, hTree, Except.bind, Except.map, Except.toOption, Option.some.injEq,
      Prod.mk.injEq, Option.isNone_iff_eq_none] at hRun
    obtain ⟨hExit, hLine, hOrder⟩ := hRun
    obtain ⟨-, -, hLocate, hAt⟩ := hAgree tree.graph (by simp)
    obtain ⟨found, hFound, hAgrees, -⟩ := hAt 5
    have hNone := (hAgrees (Or.inl (by decide))).2.mp hOrder
    exact ⟨flow, tree, rfl, hTree,
      ((hLocate _ (.methodExit _)).1 (Or.inl (by decide)) 6).mpr hExit,
      ⟨_, (hLocate _ (.withLine (.methodExit _) 3)).2 (Or.inl hLine)⟩, hNone ▸ hFound⟩

/-- A method that does nothing for a number of instructions and returns. -/
def straightLine (method : MethodId) (count : Nat) : List Instruction :=
  (List.range (count + 1)).map fun k : Nat =>
    ⟨method, k, "step", if k < count then .nop else .leave none, none⟩

theorem straightLine_getElem? {count k : Nat} (hk : k ≤ count) :
    (straightLine method count)[k]? =
      some ⟨method, k, "step", if k < count then .nop else .leave none, none⟩ := by
  rw [straightLine, List.getElem?_map, List.getElem?_range (by omega)]
  rfl

theorem length_straightLine (method : MethodId) (count : Nat) :
    (straightLine method count).length = count + 1 := by
  rw [straightLine, List.length_map, List.length_range]

/-- Control comes to every instruction of a straight line. -/
theorem flows_straightLine {count node : Nat} (hNode : node ≤ count + 1) :
    Relation.ReflTransGen (FlowsTo method (straightLine method count) []) 0 node := by
  induction node with
  | zero => exact .refl
  | succ node ih =>
    refine .tail (ih (by omega)) ?_
    cases node with
    | zero =>
      refine ⟨_, [0], rfl, rfl, Or.inr ⟨0, ?_, by simp, rfl⟩⟩
      rw [length_straightLine]
      omega
    | succ k =>
      refine ⟨_, [(k : Int) + 1], straightLine_getElem? (by omega), ?_,
        Or.inr ⟨k + 1, ?_, by simp, rfl⟩⟩
      · rw [if_pos (by omega)]
        rfl
      · rw [length_straightLine]
        omega

/-- A straight line has a flow graph, however long it is, with its last instruction as a node. -/
theorem exists_build_straightLine (method : MethodId) (count : Nat) (settings : Settings) :
    ∃ flow, build method (straightLine method count) [] settings = .ok flow ∧
      flow.graph.node? (count + 1) = some ⟨method, count, "step", .leave none, none⟩ := by
  have hBuild := decides_build method (straightLine method count) [] settings
  have hPlaced : Placed method 0 (straightLine method count) := by
    intro k instruction hInstruction
    have hk : k ≤ count := by
      have hLess := (List.getElem?_eq_some_iff.mp hInstruction).1
      rw [length_straightLine] at hLess
      omega
    rw [straightLine_getElem? hk] at hInstruction
    cases hInstruction
    exact ⟨rfl, by simp⟩
  have hInside : ∀ source ∈ sources method (straightLine method count),
      StaysInside [] (straightLine method count).length source := by
    rw [staysInside_iff, length_straightLine]
    intro _ instruction hInstruction
    rcases List.mem_cons.mp hInstruction with rfl | hInstruction
    · refine ⟨[0], rfl, fun order hOrder => Or.inr ?_⟩
      rw [List.mem_singleton.mp hOrder]
      omega
    · obtain ⟨k, hk⟩ := List.mem_iff_getElem?.mp hInstruction
      have hLess := (List.getElem?_eq_some_iff.mp hk).1
      rw [length_straightLine] at hLess
      rw [straightLine_getElem? (by omega)] at hk
      cases hk
      by_cases hLast : k < count
      · rw [if_pos hLast]
        refine ⟨[(k : Int) + 1], rfl, fun order hOrder => Or.inr ?_⟩
        rw [List.mem_singleton.mp hOrder]
        omega
      · rw [if_neg hLast]
        exact ⟨[], rfl, by simp⟩
  have hCovered : Covered method (straightLine method count) [] settings := by
    unfold Covered
    rw [length_straightLine]
    cases settings.unreachable with
    | reject => exact fun node hNode => flows_straightLine hNode
    | allowHandlerCode => exact fun node hNode => Or.inl (flows_straightLine hNode)
    | allow => trivial
  obtain ⟨flow, hFlow⟩ := hBuild.exists_ok_iff.mpr ⟨hPlaced, by simp, hInside, hCovered⟩
  obtain ⟨-, -, -, -, hConnected⟩ := build_eq_ok hFlow
  refine ⟨flow, hFlow, ?_⟩
  rw [hConnected.node?_eq, List.cons_append, List.getElem?_cons_succ,
    List.getElem?_append_left (by rw [length_straightLine]; omega),
    straightLine_getElem? (Nat.le_refl count), if_neg (Nat.lt_irrefl count)]

/-- In a method with an instruction at the last order, that instruction is found by its content and
by its order, but not by its position. -/
theorem not_lookups_agree_lastOrder :
    ∃ (flow : FlowGraph) (instruction : Instruction) (node : Nat),
      build ⟨"Long", "run", "()V"⟩ (straightLine ⟨"Long", "run", "()V"⟩ lastOrder) [] {} =
        .ok flow ∧
      instruction.Constructible ∧ instruction.order = lastOrder ∧
      flow.graph.index? instruction = some node ∧
      flow.graph.locate instruction =
        .error (.invalidArgument (.unlocated instruction.text instruction.method.text)) ∧
      flow.graph.nodeAt lastOrder = .ok (some node) ∧ flow.instruction? lastOrder = none := by
  obtain ⟨flow, hBuild, hNode⟩ := exists_build_straightLine ⟨"Long", "run", "()V"⟩ lastOrder {}
  have hNumbered := numbered_graph hBuild
  have hDistinct := hNumbered.distinct
  obtain ⟨instruction, hInstruction⟩ : ∃ instruction : Instruction, instruction =
    ⟨⟨"Long", "run", "()V"⟩, lastOrder, "step", .leave none, none⟩ := ⟨_, rfl⟩
  have hOrder : instruction.order = lastOrder := by rw [hInstruction]
  have hMade : instruction.Constructible := by
    have hOf : Instruction.of ⟨"Long", "run", "()V"⟩ lastOrder "step" (.leave none) =
        .ok instruction := by
      rw [hInstruction]
      rfl
    exact .of hOf
  rw [← hInstruction] at hNode
  refine ⟨flow, instruction, lastOrder + 1, hBuild, hMade, hOrder, ?_, ?_, ?_, ?_⟩
  · exact hDistinct.index?_eq_some_iff.mpr
      ⟨instruction, hNode, beq_self_eq_true instruction.site⟩
  · refine Digraph.locate_eq_error fun n hn => ?_
    have hBefore := ((hNumbered.locate_eq_ok_iff hMade).mp hn).1
    omega
  · obtain ⟨found, hAt, hFound⟩ := hNumbered.nodeAt_eq lastOrder
    rw [hAt, (hFound (lastOrder + 1)).mpr ⟨instruction, hNode, hOrder⟩]
  · exact instruction?_eq_none hNumbered (build_wellShaped hBuild) le_rfl

end FlowGraph

end BytecodeFlow
