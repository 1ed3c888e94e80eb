import BytecodeFlow.Proofs.Paths

/-!
# Adding edges to drafts

An edge of plain weight is added to a draft if both its ends are nodes and it is not there yet, and
then it comes last (`addEdgeLabelled_eq_ok`). So a list of edges can be added if its edges are
different from each other and from those that are there (`foldlM_insert`).
-/

namespace BytecodeFlow

namespace Draft

variable {α : Type}

@[simp] theorem nodes_setLabel (draft : Draft α) (source target : Nat) (label : Option String) :
    (draft.setLabel source target label).nodes = draft.nodes := by
  cases label <;> rfl

@[simp] theorem edges_setLabel (draft : Draft α) (source target : Nat) (label : Option String) :
    (draft.setLabel source target label).edges = draft.edges := by
  cases label <;> rfl

variable [NodeContent α]

/-- The draft has one more edge of plain weight, at the end, and the same nodes. -/
structure Extends (draft : Draft α) (source target : Nat) (extended : Draft α) : Prop where
  fresh : ⟨source, target, Edge.plainWeight⟩ ∉ draft.edges
  nodes_eq : extended.nodes = draft.nodes
  edges_eq : extended.edges = draft.edges.push ⟨source, target, Edge.plainWeight⟩

theorem insertEdge_eq_ok {draft extended : Draft α} {source target : Fin draft.nodes.size}
    {weight : Nat} (h : draft.insertEdge source target weight = .ok extended) :
    ⟨source, target, weight⟩ ∉ draft.edges ∧ extended.nodes = draft.nodes ∧
      extended.edges = draft.edges.push ⟨source, target, weight⟩ ∧
      extended.labels = draft.labels := by
  unfold insertEdge at h
  split at h
  · cases h
  · rename_i hFresh
    cases h
    exact ⟨by simpa using hFresh, rfl, rfl, rfl⟩

theorem addEdgeBetween_eq_ok {draft extended : Draft α} {source target weight : Nat}
    (h : draft.addEdgeBetween source target weight = .ok extended) :
    ⟨source, target, weight⟩ ∉ draft.edges ∧ extended.nodes = draft.nodes ∧
      extended.edges = draft.edges.push ⟨source, target, weight⟩ ∧
      extended.labels = draft.labels := by
  by_cases hSource : source < draft.nodes.size
  · by_cases hTarget : target < draft.nodes.size
    · simp only [addEdgeBetween, checkNode, hSource, hTarget, dite_true, bind, Except.bind] at h
      exact insertEdge_eq_ok h
    · simp only [addEdgeBetween, checkNode, hSource, hTarget, dite_true, dite_false, bind,
        Except.bind] at h
      cases h
  · simp only [addEdgeBetween, checkNode, hSource, dite_false, bind, Except.bind] at h
    cases h

/-- What a labelled edge leaves behind if it is added. -/
theorem addEdgeLabelled_eq_ok {draft extended : Draft α} {source target : Nat}
    {label : Option String} (h : draft.addEdgeLabelled source target label = .ok extended) :
    draft.Extends source target extended := by
  unfold addEdgeLabelled at h
  cases hAdd : draft.addEdgeBetween source target Edge.plainWeight with
  | error error =>
    rw [hAdd] at h
    cases h
  | ok middle =>
    obtain ⟨hFresh, hNodes, hEdges, -⟩ := addEdgeBetween_eq_ok hAdd
    rw [hAdd] at h
    cases label with
    | none =>
      cases h
      exact ⟨hFresh, hNodes, hEdges⟩
    | some text =>
      cases h
      exact ⟨hFresh, by simpa using hNodes, by simpa using hEdges⟩

theorem addEdgeBetween_ok {draft : Draft α} {source target weight : Nat}
    (hSource : source < draft.nodes.size) (hTarget : target < draft.nodes.size)
    (hFresh : ⟨source, target, weight⟩ ∉ draft.edges) :
    ∃ extended, draft.addEdgeBetween source target weight = .ok extended := by
  simp only [addEdgeBetween, checkNode, hSource, hTarget, dite_true, bind, Except.bind,
    insertEdge]
  rw [if_neg (by simpa using hFresh)]
  exact ⟨_, rfl⟩

theorem addEdgeLabelled_ok {draft : Draft α} {source target : Nat} (label : Option String)
    (hSource : source < draft.nodes.size) (hTarget : target < draft.nodes.size)
    (hFresh : ⟨source, target, Edge.plainWeight⟩ ∉ draft.edges) :
    ∃ extended, draft.addEdgeLabelled source target label = .ok extended := by
  obtain ⟨extended, hAdd⟩ := addEdgeBetween_ok hSource hTarget hFresh
  unfold addEdgeLabelled
  rw [hAdd]
  cases label with
  | none => exact ⟨_, rfl⟩
  | some text => exact ⟨_, rfl⟩

theorem addEdgeLabelled_none (draft : Draft α) (source target : Nat) :
    draft.addEdgeLabelled source target none =
      draft.addEdgeBetween source target Edge.plainWeight := by
  unfold addEdgeLabelled
  cases draft.addEdgeBetween source target Edge.plainWeight <;> rfl

/-- A list of labelled edges can be added if no edge of it is there or comes twice. -/
theorem foldlM_insert {β : Type} (source target : β → Nat) (label : β → Option String)
    (items : List β) (draft : Draft α)
    (hLt : ∀ item ∈ items, source item < draft.nodes.size ∧ target item < draft.nodes.size)
    (hNodup : (items.map fun item => (source item, target item)).Nodup)
    (hFresh : ∀ item ∈ items, ⟨source item, target item, Edge.plainWeight⟩ ∉ draft.edges) :
    ∃ extended, items.foldlM (fun draft item =>
        draft.addEdgeLabelled (source item) (target item) (label item)) draft = .ok extended ∧
      extended.nodes = draft.nodes ∧
      extended.edges.toList = draft.edges.toList ++
        items.map fun item => ⟨source item, target item, Edge.plainWeight⟩ := by
  induction items generalizing draft with
  | nil => exact ⟨draft, rfl, rfl, by simp⟩
  | cons item items ih =>
    obtain ⟨hSource, hTarget⟩ := hLt item List.mem_cons_self
    obtain ⟨middle, hAdd⟩ :=
      addEdgeLabelled_ok (label item) hSource hTarget (hFresh item List.mem_cons_self)
    have hExtends := addEdgeLabelled_eq_ok hAdd
    rw [List.map_cons, List.nodup_cons] at hNodup
    have hRest := ih middle ?_ hNodup.2 ?_
    · obtain ⟨extended, hFold, hNodes, hEdges⟩ := hRest
      refine ⟨extended, ?_, hNodes.trans hExtends.nodes_eq, ?_⟩
      · rw [List.foldlM_cons, hAdd]
        exact hFold
      · rw [hEdges, hExtends.edges_eq]
        simp
    · intro other hOther
      rw [hExtends.nodes_eq]
      exact hLt other (List.mem_cons_of_mem _ hOther)
    · intro other hOther hMem
      rw [hExtends.edges_eq, Array.mem_push] at hMem
      rcases hMem with hMem | hEq
      · exact hFresh other (List.mem_cons_of_mem _ hOther) hMem
      · refine hNodup.1 (List.mem_map.mpr ⟨other, hOther, ?_⟩)
        simpa using hEq

end Draft

namespace Digraph

variable {α : Type}

/-- The edges that leave a node of a frozen draft, in the order of the draft. -/
theorem edgesFrom_freeze (draft : Draft α) (node : Nat) :
    draft.freeze.edgesFrom node = draft.edges.toList.filter (·.source == node) :=
  draft.freeze.edgesFrom_eq node

end Digraph

end BytecodeFlow
