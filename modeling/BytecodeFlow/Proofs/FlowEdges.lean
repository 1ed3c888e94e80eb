import BytecodeFlow.FlowGraph.Basic
import BytecodeFlow.Proofs.EdgeInsertion
import BytecodeFlow.Proofs.Success

/-!
# The edges behind an instruction

The orders at which control continues behind an instruction are different from each other, and so
are the nodes of different orders. So the edges of an instruction can all be added to a draft that
has no edge behind it yet, unless one of the orders lies outside the method, which is the only fault
that can occur (`decides_addFlows`).

* `flowEdges`: the edges that are added behind a node.
* `mem_flowEdges`: what joins two nodes by such an edge.
-/

namespace BytecodeFlow

/-! ## Ascending orders -/

theorem mem_insertOrder {order x : Int} {orders : List Int} :
    x ∈ insertOrder order orders ↔ x = order ∨ x ∈ orders := by
  induction orders with
  | nil => simp [insertOrder]
  | cons first orders ih =>
    unfold insertOrder
    split
    · simp
    · split
      · rename_i hSame
        simp [hSame]
      · simp only [List.mem_cons, ih, or_left_comm]

theorem pairwise_insertOrder {order : Int} {orders : List Int} (h : orders.Pairwise (· < ·)) :
    (insertOrder order orders).Pairwise (· < ·) := by
  induction orders with
  | nil => simp [insertOrder]
  | cons first orders ih =>
    obtain ⟨hFirst, hRest⟩ := List.pairwise_cons.mp h
    unfold insertOrder
    split
    · refine List.pairwise_cons.mpr ⟨fun x hx => ?_, h⟩
      rcases List.mem_cons.mp hx with rfl | hx
      · assumption
      · have := hFirst x hx
        omega
    · split
      · exact h
      · refine List.pairwise_cons.mpr ⟨fun x hx => ?_, ih hRest⟩
        rcases mem_insertOrder.mp hx with rfl | hx
        · omega
        · exact hFirst x hx

theorem pairwise_ascending (orders : List Int) : (ascending orders).Pairwise (· < ·) := by
  induction orders with
  | nil => exact List.Pairwise.nil
  | cons order orders ih => exact pairwise_insertOrder ih

theorem nodup_ascending (orders : List Int) : (ascending orders).Nodup :=
  (pairwise_ascending orders).imp fun hLess => Int.ne_of_lt hLess

namespace Instruction

/-- Every instruction says where control continues, and names no order twice. -/
theorem successorsIn_ok (instruction : Instruction) (handlers : List HandlerRange) :
    ∃ orders, instruction.successorsIn handlers = .ok orders ∧ orders.Nodup := by
  unfold successorsIn Operation.successorsIn Operation.successors
  cases instruction.operation with
  | methodExit | leave => exact ⟨_, rfl, List.nodup_nil⟩
  | branch | «switch» | returnFromSubroutine | throw => exact ⟨_, rfl, nodup_ascending _⟩
  | _ => exact ⟨_, rfl, List.nodup_singleton _⟩

end Instruction

namespace FlowGraph

variable {handlers : List HandlerRange} {settings : Settings} {count : Nat}

/-! ## The nodes of orders -/

/-- An order at which control may continue in a method of `count` instructions. -/
def Inside (count : Nat) (order : Int) : Prop :=
  order = methodExitOrder ∨ 0 ≤ order ∧ order < count

theorem nodeOfOrder?_eq_some_iff {order : Int} {target : Nat} :
    nodeOfOrder? count order = some target ↔ (order = methodExitOrder ∧ target = count + 1) ∨
      ∃ k, k < count ∧ order = k ∧ target = k + 1 := by
  unfold nodeOfOrder? methodExitOrder
  split
  · rename_i hExit
    rw [Option.some.injEq]
    constructor
    · rintro rfl
      exact Or.inl ⟨hExit, rfl⟩
    · rintro (⟨-, rfl⟩ | ⟨k, -, hOrder, -⟩)
      · rfl
      · omega
  · rename_i hExit
    split
    · rw [Option.some.injEq]
      constructor
      · rintro rfl
        exact Or.inr ⟨order.toNat, by omega, by omega, rfl⟩
      · rintro (⟨hOrder, -⟩ | ⟨k, -, hOrder, rfl⟩)
        · exact absurd hOrder hExit
        · omega
    · constructor
      · intro h
        cases h
      · rintro (⟨hOrder, -⟩ | ⟨k, hk, hOrder, -⟩)
        · exact absurd hOrder hExit
        · omega

theorem nodeOfOrder?_lt {order : Int} {target : Nat} (h : nodeOfOrder? count order = some target) :
    0 < target ∧ target < count + 2 := by
  rcases nodeOfOrder?_eq_some_iff.mp h with ⟨-, rfl⟩ | ⟨k, hk, -, rfl⟩ <;> omega

theorem nodeOfOrder?_inj {left right : Int} {target : Nat}
    (hLeft : nodeOfOrder? count left = some target)
    (hRight : nodeOfOrder? count right = some target) : left = right := by
  rcases nodeOfOrder?_eq_some_iff.mp hLeft with ⟨rfl, rfl⟩ | ⟨k, hk, rfl, rfl⟩ <;>
    rcases nodeOfOrder?_eq_some_iff.mp hRight with ⟨rfl, hEq⟩ | ⟨m, hm, rfl, hEq⟩ <;> omega

theorem inside_iff_exists_node {order : Int} :
    Inside count order ↔ ∃ target, nodeOfOrder? count order = some target := by
  simp only [nodeOfOrder?_eq_some_iff, Inside]
  constructor
  · rintro (hExit | ⟨hLow, hHigh⟩)
    · exact ⟨_, Or.inl ⟨hExit, rfl⟩⟩
    · exact ⟨_, Or.inr ⟨order.toNat, by omega, by omega, rfl⟩⟩
  · rintro ⟨_, ⟨hExit, -⟩ | ⟨k, hk, rfl, -⟩⟩
    · exact Or.inl hExit
    · exact Or.inr ⟨by omega, by omega⟩

/-! ## The edges of one instruction -/

/-- The edges that lead from a node to the nodes of the given orders. -/
def edgesTo (count source : Nat) (orders : List Int) : List Edge :=
  orders.filterMap fun order =>
    (nodeOfOrder? count order).map fun target => ⟨source, target, Edge.plainWeight⟩

/-- The edges behind the instruction at a node. -/
def flowEdges (handlers : List HandlerRange) (count : Nat) (source : Nat × Instruction) :
    List Edge :=
  match source.2.successorsIn handlers with
  | .ok orders =>
    if orders.isEmpty || (count == 0 && source.1 == 0) then
      [⟨source.1, count + 1, Edge.plainWeight⟩]
    else edgesTo count source.1 orders
  | .error _ => []

/-- Control stays in the method behind the instruction at a node. That the entry of an empty method
continues at its first instruction does not count. -/
def StaysInside (handlers : List HandlerRange) (count : Nat) (source : Nat × Instruction) : Prop :=
  ∃ orders, source.2.successorsIn handlers = .ok orders ∧
    ((count = 0 ∧ source.1 = 0) ∨ ∀ order ∈ orders, Inside count order)

theorem mem_edgesTo {source : Nat} {orders : List Int} {e : Edge} :
    e ∈ edgesTo count source orders ↔ ∃ order ∈ orders, ∃ target,
      nodeOfOrder? count order = some target ∧ e = ⟨source, target, Edge.plainWeight⟩ := by
  simp only [edgesTo, List.mem_filterMap, Option.map_eq_some_iff, @eq_comm _ e]

theorem nodup_edgesTo {source : Nat} {orders : List Int} (h : orders.Nodup) :
    (edgesTo count source orders).Nodup := by
  refine List.Nodup.filterMap (fun left right e hLeft hRight => ?_) h
  obtain ⟨target, hTarget, rfl⟩ := Option.map_eq_some_iff.mp (Option.mem_def.mp hLeft)
  obtain ⟨other, hOther, hEdge⟩ := Option.map_eq_some_iff.mp (Option.mem_def.mp hRight)
  obtain rfl : other = target := congrArg Edge.target hEdge
  exact nodeOfOrder?_inj hTarget hOther

theorem mem_flowEdges {source : Nat × Instruction} {e : Edge} :
    e ∈ flowEdges handlers count source ↔ e.source = source.1 ∧ e.weight = Edge.plainWeight ∧
      ∃ orders, source.2.successorsIn handlers = .ok orders ∧
        (e.target = count + 1 ∧ (orders = [] ∨ count = 0 ∧ source.1 = 0) ∨
          (¬ (count = 0 ∧ source.1 = 0) ∧
            ∃ order ∈ orders, nodeOfOrder? count order = some e.target)) := by
  obtain ⟨orders, hOrders, -⟩ := source.2.successorsIn_ok handlers
  have hOnly : ∀ P : List Int → Prop,
      (∃ orders, source.2.successorsIn handlers = .ok orders ∧ P orders) ↔ P orders := by
    intro P
    simp [hOrders]
  rw [hOnly]
  obtain ⟨s, t, w⟩ := e
  simp only [flowEdges, hOrders, Bool.or_eq_true, List.isEmpty_iff, Bool.and_eq_true, beq_iff_eq]
  split
  · rename_i hNone
    rw [List.mem_singleton, Edge.mk.injEq]
    constructor
    · rintro ⟨rfl, rfl, rfl⟩
      exact ⟨rfl, rfl, Or.inl ⟨rfl, hNone⟩⟩
    · rintro ⟨rfl, rfl, ⟨rfl, -⟩ | ⟨hSome, order, hMem, -⟩⟩
      · exact ⟨rfl, rfl, rfl⟩
      · rcases hNone with rfl | hNone
        · cases hMem
        · exact absurd hNone hSome
  · rename_i hSome
    simp only [mem_edgesTo, Edge.mk.injEq]
    constructor
    · rintro ⟨order, hMem, target, hTarget, rfl, rfl, rfl⟩
      exact ⟨rfl, rfl, Or.inr ⟨fun hEmpty => hSome (Or.inr hEmpty), order, hMem, hTarget⟩⟩
    · rintro ⟨rfl, rfl, ⟨-, hNone⟩ | ⟨-, order, hMem, hTarget⟩⟩
      · exact absurd hNone hSome
      · exact ⟨order, hMem, t, hTarget, rfl, rfl, rfl⟩

theorem nodup_flowEdges (source : Nat × Instruction) : (flowEdges handlers count source).Nodup := by
  obtain ⟨orders, hOrders, hNodup⟩ := source.2.successorsIn_ok handlers
  simp only [flowEdges, hOrders]
  split
  · exact List.nodup_singleton _
  · exact nodup_edgesTo hNodup

/-! ## Adding them -/

/-- The draft has the given edges behind those that it had. -/
structure GrownBy (draft : Draft Instruction) (edges : List Edge) (grown : Draft Instruction) :
    Prop where
  nodes_eq : grown.nodes = draft.nodes
  edges_eq : grown.edges.toList = draft.edges.toList ++ edges

theorem GrownBy.trans {draft middle grown : Draft Instruction} {first second : List Edge}
    (hFirst : GrownBy draft first middle) (hSecond : GrownBy middle second grown) :
    GrownBy draft (first ++ second) grown := by
  refine ⟨hSecond.nodes_eq.trans hFirst.nodes_eq, ?_⟩
  rw [hSecond.edges_eq, hFirst.edges_eq, List.append_assoc]

theorem GrownBy.of_extends {draft grown : Draft Instruction} {source target : Nat}
    (h : draft.Extends source target grown) :
    GrownBy draft [⟨source, target, Edge.plainWeight⟩] grown :=
  ⟨h.nodes_eq, by rw [h.edges_eq, Array.toList_push]⟩

/-- Why the flow graph of a method is refused: a part of the method does not fit into it, or control
does not flow as it should. -/
inductive Refusal : Error → Prop
  | precondition (cause : Precondition) : Refusal (.precondition cause)
  | orderCollision (order : Int) : Refusal (.orderCollision order)
  | invariant (cause : Invariant) : Refusal (.invariant cause)

/-- Why a method is refused whose parts fit: control does not flow as it should. -/
inductive BrokenFlow : Error → Prop
  | invariant (cause : Invariant) : BrokenFlow (.invariant cause)

theorem BrokenFlow.refusal {fault : Error} (h : BrokenFlow fault) : Refusal fault := by
  cases h with
  | invariant cause => exact .invariant cause

/-- The edges to different orders are added unless one of the orders lies outside. -/
theorem decides_addFlow {source : Nat} {instruction : Instruction} {orders : List Int}
    {draft : Draft Instruction} (hSize : draft.nodes.size = count + 2) (hSource : source ≤ count)
    (hFresh : ∀ e ∈ draft.edges, e.source ≠ source) (hNodup : orders.Nodup) :
    Decides (∀ order ∈ orders, Inside count order) (GrownBy draft (edgesTo count source orders))
      BrokenFlow (orders.foldlM (addFlow settings handlers count source instruction) draft) := by
  refine Decides.foldlM (I := fun done => GrownBy draft (edgesTo count source done)) ?_
    ⟨rfl, by simp [edgesTo]⟩
  intro done order rest state hSplit hState
  unfold addFlow
  cases hTarget : nodeOfOrder? count order with
  | none =>
    refine .error ?_ (.invariant _)
    rw [inside_iff_exists_node]
    rintro ⟨target, hSome⟩
    rw [hTarget] at hSome
    cases hSome
  | some target =>
    have hNew : order ∉ done := by
      rw [hSplit] at hNodup
      exact fun hMem => (List.nodup_append.mp hNodup).2.2 _ hMem _ List.mem_cons_self rfl
    have hAbsent : ⟨source, target, Edge.plainWeight⟩ ∉ state.edges := by
      rw [← Array.mem_toList_iff, hState.edges_eq, List.mem_append, mem_edgesTo]
      rintro (hOld | ⟨other, hOther, _, hNode, hEdge⟩)
      · exact hFresh _ (Array.mem_toList_iff.mp hOld) rfl
      · obtain rfl := congrArg Edge.target hEdge
        exact hNew (nodeOfOrder?_inj hTarget hNode ▸ hOther)
    have hLt := nodeOfOrder?_lt hTarget
    obtain ⟨next, hNext⟩ := Draft.addEdgeLabelled_ok
      (if settings.labelBranches then (EdgeKind.classify instruction order handlers).label?
        else none)
      (show source < state.nodes.size by rw [hState.nodes_eq]; omega)
      (show target < state.nodes.size by rw [hState.nodes_eq]; omega) hAbsent
    have hGrown := hState.trans (.of_extends (Draft.addEdgeLabelled_eq_ok hNext))
    simp only [hNext]
    refine .ok (inside_iff_exists_node.mpr ⟨target, hTarget⟩) ?_
    simpa [edgesTo, hTarget] using hGrown

/-- The edges behind an instruction are added unless control leaves the method there. -/
theorem decides_addFlows {source : Nat × Instruction} {draft : Draft Instruction}
    (hSize : draft.nodes.size = count + 2) (hSource : source.1 ≤ count)
    (hFresh : ∀ e ∈ draft.edges, e.source ≠ source.1) :
    Decides (StaysInside handlers count source) (GrownBy draft (flowEdges handlers count source))
      BrokenFlow (addFlows settings handlers count draft source) := by
  obtain ⟨orders, hOrders, hNodup⟩ := source.2.successorsIn_ok handlers
  have hStays : (count = 0 ∧ source.1 = 0) ∨ (∀ order ∈ orders, Inside count order) ↔
      StaysInside handlers count source := by
    simp [StaysInside, hOrders]
  refine Decides.congr ?_ hStays
  simp only [addFlows, flowEdges, hOrders, bind, Except.bind]
  split
  · rename_i hNone
    have hAbsent : ⟨source.1, count + 1, Edge.plainWeight⟩ ∉ draft.edges :=
      fun hMem => hFresh _ hMem rfl
    obtain ⟨grown, hAdd⟩ := Draft.addEdgeLabelled_ok none
      (show source.1 < draft.nodes.size by omega) (show count + 1 < draft.nodes.size by omega)
      hAbsent
    rw [hAdd]
    refine .ok ?_ (.of_extends (Draft.addEdgeLabelled_eq_ok hAdd))
    simp only [Bool.or_eq_true, List.isEmpty_iff, Bool.and_eq_true, beq_iff_eq] at hNone
    rcases hNone with rfl | hEmpty
    · exact Or.inr (by simp)
    · exact Or.inl hEmpty
  · rename_i hSome
    have hNot : ¬ (count = 0 ∧ source.1 = 0) := by
      rintro ⟨hCount, hEntry⟩
      simp [hCount, hEntry] at hSome
    exact (decides_addFlow hSize hSource hFresh hNodup).congr (or_iff_right hNot).symm

end FlowGraph

end BytecodeFlow
