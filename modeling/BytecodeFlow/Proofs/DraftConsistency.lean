import BytecodeFlow.Digraph.IndexedDraft
import BytecodeFlow.Proofs.EdgeLabels
import BytecodeFlow.Proofs.InPlace

/-!
# Consistent drafts

The parts of a draft repeat each other, and no step lets them drift apart. In a consistent draft
(`Consistent`) the contents of the nodes are different and the index finds each of them, the edges
are different and are those of the set, they join nodes, and every label stands at a pair that an
edge joins.

Each change of a draft keeps one half of this (`Indexed`, `Listed`) by itself. Only taking edges away
can leave a label without an edge, and what takes edges away puts a new edge in their place or
removes the label. So every step keeps a draft consistent, and so do thawing a graph and taking over
its nodes: all drafts that can be reached are consistent (`Reachable.consistent`).

Steps on one edge are atomic (`atomic_step`). Those on many edges leave what the edges before the
failing one did.
-/

namespace BytecodeFlow

theorem EdgeLabels.find?_reversed (labels : EdgeLabels) (source target : Nat) :
    (EdgeLabels.reversed labels).find? source target = labels.find? target source := by
  unfold reversed find?
  induction labels with
  | nil => rfl
  | cons first rest ih =>
    obtain ⟨⟨s, t⟩, label⟩ := first
    have hPair : ((source, target) == (t, s)) = ((target, source) == (s, t)) := by
      rw [Bool.eq_iff_iff, beq_iff_eq, beq_iff_eq, Prod.mk.injEq, Prod.mk.injEq, and_comm]
    rw [List.map_cons, List.lookup_cons, List.lookup_cons, hPair, ih]

theorem Edge.joins_iff {edge : Edge} {source target : Nat} :
    edge.joins source target = true ↔ edge.source = source ∧ edge.target = target := by
  simp [Edge.joins]

/-- A step that adds or updates many edges in turn. -/
def DraftStep.isPass {α : Type} : DraftStep α → Bool
  | .addEdges _ | .updateEdges _ => true
  | _ => false

namespace IndexedDraft

open InPlace

variable {α : Type}

/-! ## The parts of consistency -/

/-- The edges are different and are those of the set, and they join nodes. -/
structure Listed (draft : IndexedDraft α) : Prop where
  nodup : draft.edges.toList.Nodup
  mem_edgeSet : ∀ edge, edge ∈ draft.edgeSet ↔ edge ∈ draft.edges
  edge_lt : ∀ edge ∈ draft.edges, edge.source < draft.nodes.size ∧ edge.target < draft.nodes.size

/-- The contents are different, and the index finds the node of each of them. -/
structure Indexed [NodeContent α] (draft : IndexedDraft α) : Prop where
  distinct : draft.nodes.toList.Pairwise fun a b => (a == b) = false
  index_iff : ∀ content node, draft.index? content = some node ↔
    ∃ other, draft.nodes[node]? = some other ∧ (content == other) = true

/-- The parts of a draft agree. -/
structure Consistent [NodeContent α] (draft : IndexedDraft α) : Prop
    extends Indexed draft, Listed draft where
  labelled : ∀ source target label, draft.labels.find? source target = some label →
    ∃ edge ∈ draft.edges, edge.source = source ∧ edge.target = target

namespace Listed

variable {draft : IndexedDraft α} {edge : Edge}

theorem pushEdge (h : Listed draft) (hFresh : edge ∉ draft.edgeSet)
    (hLt : edge.source < draft.nodes.size ∧ edge.target < draft.nodes.size) :
    Listed (draft.pushEdge edge) where
  nodup := by
    rw [h.mem_edgeSet, ← Array.mem_toList_iff] at hFresh
    simp only [IndexedDraft.pushEdge, Array.toList_push]
    refine List.nodup_append.mpr ⟨h.nodup, List.nodup_singleton _, ?_⟩
    intro a ha b hb
    rw [List.mem_singleton] at hb
    subst hb
    exact ne_of_mem_of_not_mem ha hFresh
  mem_edgeSet := by
    intro other
    simp [IndexedDraft.pushEdge, h.mem_edgeSet, or_comm]
  edge_lt := by
    intro other hOther
    rcases Array.mem_push.mp hOther with hOther | rfl
    · exact h.edge_lt other hOther
    · exact hLt

theorem detach (h : Listed draft) (source target : Nat) : Listed (draft.detach source target) where
  nodup := by
    simp only [IndexedDraft.detach, Array.toList_filter]
    exact h.nodup.filter _
  mem_edgeSet := by
    intro other
    simp [IndexedDraft.detach, h.mem_edgeSet]
  edge_lt := fun other hOther => h.edge_lt other (Array.mem_filter.mp hOther).1

theorem setLabel (h : Listed draft) (source target : Nat) (label : Option String) :
    Listed (draft.setLabel source target label) := by
  cases label with
  | none => exact ⟨h.nodup, h.mem_edgeSet, h.edge_lt⟩
  | some text => exact ⟨h.nodup, h.mem_edgeSet, h.edge_lt⟩

theorem reverse (h : Listed draft) : Listed draft.reverse where
  nodup := by
    simp only [IndexedDraft.reverse, Array.toList_map]
    refine h.nodup.map_on ?_
    intro a _ b _ hEq
    cases a
    cases b
    simp_all [Edge.reversed]
  mem_edgeSet := by
    intro other
    simp only [IndexedDraft.reverse, ← Array.mem_toList_iff]
    induction (draft.edges.map Edge.reversed).toList with
    | nil => rfl
    | cons first rest ih => simp [ih]
  edge_lt := by
    intro other hOther
    obtain ⟨edge, hEdge, rfl⟩ := Array.mem_map.mp hOther
    exact (h.edge_lt edge hEdge).symm

end Listed

/-! ## Nodes -/

section Nodes

variable [NodeContent α] {draft : IndexedDraft α} {content : α}

/-- A content that is there adds nothing, and one that is not becomes the last node. -/
theorem addNode_cases (draft : IndexedDraft α) (content : α) :
    ((draft.index? content).isSome ∧ (draft.addNode content).2 = draft) ∨
      draft.index? content = none ∧ (draft.addNode content).2 =
        { draft with
          index := (content, draft.nodes.size) :: draft.index
          nodes := draft.nodes.push content } := by
  unfold addNode
  cases draft.index? content with
  | some node => exact Or.inl ⟨rfl, rfl⟩
  | none => exact Or.inr ⟨rfl, rfl⟩

theorem Indexed.lt_size (h : Indexed draft) {node : Nat} (hIndex : draft.index? content = some node) :
    node < draft.nodes.size := by
  obtain ⟨other, hOther, -⟩ := (h.index_iff content node).mp hIndex
  exact (Array.getElem?_eq_some_iff.mp hOther).1

theorem Indexed.beq_eq_false (h : Indexed draft) (hAbsent : draft.index? content = none) {node : Nat}
    {other : α} (hOther : draft.nodes[node]? = some other) : (content == other) = false := by
  by_contra hEqual
  have hIndex := (h.index_iff content node).mpr ⟨other, hOther, by simpa using hEqual⟩
  rw [hAbsent] at hIndex
  cases hIndex

variable [EquivBEq α]

theorem Indexed.push (h : Indexed draft) (hAbsent : draft.index? content = none) :
    Indexed { draft with
      index := (content, draft.nodes.size) :: draft.index
      nodes := draft.nodes.push content } where
  distinct := by
    rw [Array.toList_push, List.pairwise_append]
    refine ⟨h.distinct, List.pairwise_singleton _ _, ?_⟩
    intro a ha b hb
    rw [List.mem_singleton] at hb
    subst hb
    obtain ⟨node, hNode⟩ := List.mem_iff_getElem?.mp ha
    rw [Array.getElem?_toList] at hNode
    rw [BEq.comm]
    exact h.beq_eq_false hAbsent hNode
  index_iff := by
    intro wanted node
    have hOld := h.index_iff wanted node
    simp only [index?, List.lookup_cons, Array.getElem?_push] at hOld ⊢
    by_cases hNode : node = draft.nodes.size
    · rw [if_pos hNode]
      cases hSame : wanted == content with
      | true => exact iff_of_true (by rw [hNode]) ⟨content, rfl, hSame⟩
      | false =>
        have hOutside : draft.nodes[node]? = none := by simp [hNode]
        simp [hOld, hOutside, hSame]
    · rw [if_neg hNode]
      cases hSame : wanted == content with
      | true =>
        -- An old node with an equal content would have been found for the new one.
        refine iff_of_false (fun h => hNode (Option.some.inj h).symm) ?_
        intro hOther
        obtain ⟨other, hOther, hEqual⟩ := hOther
        rw [BEq.congr_left hSame, h.beq_eq_false hAbsent hOther] at hEqual
        cases hEqual
      | false => exact hOld

end Nodes

/-! ## Changes -/

section Changes

variable [NodeContent α] {draft : IndexedDraft α} {source target : Nat}

theorem Indexed.of_eq {other : IndexedDraft α} (h : Indexed draft)
    (hNodes : other.nodes = draft.nodes) (hIndex : other.index = draft.index) : Indexed other := by
  refine ⟨?_, ?_⟩
  · rw [hNodes]
    exact h.distinct
  · intro content node
    rw [hNodes, index?, hIndex]
    exact h.index_iff content node

theorem consistent_empty : Consistent ({} : IndexedDraft α) where
  distinct := List.Pairwise.nil
  index_iff := by simp [index?]
  nodup := List.nodup_nil
  mem_edgeSet := by simp
  edge_lt := by simp
  labelled := by simp [EdgeLabels.find?]

namespace Consistent

theorem pushEdge (h : Consistent draft) {edge : Edge} (hFresh : edge ∉ draft.edgeSet)
    (hLt : edge.source < draft.nodes.size ∧ edge.target < draft.nodes.size) :
    Consistent (draft.pushEdge edge) where
  toIndexed := h.toIndexed.of_eq rfl rfl
  toListed := h.toListed.pushEdge hFresh hLt
  labelled := by
    intro a b label hLabel
    obtain ⟨other, hOther, hEnds⟩ := h.labelled a b label hLabel
    exact ⟨other, Array.mem_push.mpr (Or.inl hOther), hEnds⟩

/-- A label may be set where an edge is, and removed anywhere. -/
theorem setLabel (h : Consistent draft) (label : Option String)
    (hEdge : ∃ edge ∈ draft.edges, edge.source = source ∧ edge.target = target) :
    Consistent (draft.setLabel source target label) := by
  cases label with
  | some text =>
    refine ⟨h.toIndexed.of_eq rfl rfl, h.toListed.setLabel _ _ _, ?_⟩
    intro a b label hLabel
    rw [IndexedDraft.setLabel, EdgeLabels.find?_insert] at hLabel
    split at hLabel
    · rename_i hPair
      cases hPair
      exact hEdge
    · exact h.labelled a b label hLabel
  | none =>
    refine ⟨h.toIndexed.of_eq rfl rfl, h.toListed.setLabel _ _ _, ?_⟩
    intro a b label hLabel
    rw [IndexedDraft.setLabel, EdgeLabels.find?_erase] at hLabel
    split at hLabel
    · cases hLabel
    · exact h.labelled a b label hLabel

/-- The labels of the other pairs keep their edges when those of a pair are taken away. -/
theorem labelled_detach (h : Consistent draft) {a b : Nat} {label : String}
    (hLabel : draft.labels.find? a b = some label) (hOther : (a, b) ≠ (source, target)) :
    ∃ edge ∈ (draft.detach source target).edges, edge.source = a ∧ edge.target = b := by
  obtain ⟨edge, hEdge, rfl, rfl⟩ := h.labelled a b label hLabel
  refine ⟨edge, Array.mem_filter.mpr ⟨hEdge, ?_⟩, rfl, rfl⟩
  rw [Bool.not_eq_true', ← Bool.not_eq_true, Edge.joins_iff]
  intro hEnds
  exact hOther (by rw [hEnds.1, hEnds.2])

/-- Putting one edge in the place of those of a pair. -/
theorem replace (h : Consistent draft) (hSource : source < draft.nodes.size)
    (hTarget : target < draft.nodes.size) (weight : Nat) :
    Consistent ((draft.detach source target).pushEdge ⟨source, target, weight⟩) where
  toIndexed := h.toIndexed.of_eq rfl rfl
  toListed := by
    refine (h.toListed.detach source target).pushEdge ?_ ⟨hSource, hTarget⟩
    simp [IndexedDraft.detach, Edge.joins]
  labelled := by
    intro a b label hLabel
    by_cases hPair : (a, b) = (source, target)
    · cases hPair
      exact ⟨_, Array.mem_push_self, rfl, rfl⟩
    · obtain ⟨edge, hEdge, hEnds⟩ := h.labelled_detach hLabel hPair
      exact ⟨edge, Array.mem_push.mpr (Or.inl hEdge), hEnds⟩

/-- Taking away the edges of a pair and their label. -/
theorem remove (h : Consistent draft) (source target : Nat) :
    Consistent ((draft.detach source target).setLabel source target none) where
  toIndexed := h.toIndexed.of_eq rfl rfl
  toListed := (h.toListed.detach source target).setLabel _ _ _
  labelled := by
    intro a b label hLabel
    rw [IndexedDraft.setLabel, EdgeLabels.find?_erase] at hLabel
    split at hLabel
    · cases hLabel
    · rename_i hPair
      exact h.labelled_detach hLabel hPair

theorem reverse (h : Consistent draft) : Consistent draft.reverse where
  toIndexed := h.toIndexed.of_eq rfl rfl
  toListed := h.toListed.reverse
  labelled := by
    intro a b label hLabel
    rw [IndexedDraft.reverse, EdgeLabels.find?_reversed] at hLabel
    obtain ⟨edge, hEdge, rfl, rfl⟩ := h.labelled b a label hLabel
    exact ⟨edge.reversed, Array.mem_map_of_mem hEdge, rfl, rfl⟩

variable [EquivBEq α]

theorem addNode (h : Consistent draft) (content : α) : Consistent (draft.addNode content).2 := by
  rcases addNode_cases draft content with ⟨-, hSame⟩ | ⟨hAbsent, hPushed⟩
  · rw [hSame]
    exact h
  · rw [hPushed]
    refine ⟨h.toIndexed.push hAbsent, ⟨h.nodup, h.mem_edgeSet, fun edge hEdge => ?_⟩, h.labelled⟩
    have := h.edge_lt edge hEdge
    rw [Array.size_push]
    omega

theorem addNodes (h : Consistent draft) (contents : List α) :
    Consistent (draft.addNodes contents) := by
  induction contents generalizing draft with
  | nil => exact h
  | cons content contents ih => exact ih (h.addNode content)

end Consistent

end Changes

/-! ## Operations in place -/

section InPlace

variable {draft left : IndexedDraft α}

theorem checkNode_eq (role : EdgeEnd) (node : Nat) (draft : IndexedDraft α) :
    checkNode role node draft =
      if draft.nodes.size ≤ node then
        .error (.invalidArgument (.edgeNode role node draft.nodes.size)) draft
      else .ok () draft := by
  change (if draft.nodes.size ≤ node then _ else _ : Drafting α Unit) draft = _
  split <;> rfl

theorem looks_checkNode (role : EdgeEnd) (node : Nat) :
    Looks (checkNode role node : Drafting α Unit) := by
  constructor
  · intro draft error left h
    rw [checkNode_eq] at h
    split at h <;> cases h
    rfl
  · intro draft answer left h
    rw [checkNode_eq] at h
    split at h <;> cases h
    rfl

theorem checkNode_eq_ok {role : EdgeEnd} {node : Nat} {answer : Unit}
    (h : checkNode role node draft = .ok answer left) : node < draft.nodes.size := by
  rw [checkNode_eq] at h
  split at h
  · cases h
  · omega

variable [NodeContent α]

theorem looks_resolve (source target : α) : Looks (resolve source target) := by
  refine looks_get.bind fun draft => ?_
  split
  · exact looks_throw _
  · refine looks_get.bind fun draft => ?_
    split
    · exact looks_throw _
    · exact looks_pure _

theorem resolve_eq_ok {source target : α} {ends : Nat × Nat}
    (h : resolve source target draft = .ok ends left) :
    draft.index? source = some ends.1 ∧ draft.index? target = some ends.2 := by
  obtain ⟨_, hGet, h⟩ := looks_get.bind_eq_ok h
  cases hGet
  cases hSource : draft.index? source with
  | none =>
    rw [hSource] at h
    cases h
  | some s =>
    rw [hSource] at h
    obtain ⟨_, hGet, h⟩ := looks_get.bind_eq_ok h
    cases hGet
    cases hTarget : draft.index? target with
    | none =>
      rw [hTarget] at h
      cases h
    | some t =>
      rw [hTarget] at h
      cases h
      exact ⟨rfl, rfl⟩

theorem insertEdge_eq (edge : Edge) (draft : IndexedDraft α) :
    insertEdge edge draft =
      if draft.edgeSet.contains edge then
        .error (.duplicateEdge (draft.describeNode edge.source) (draft.describeNode edge.target))
          draft
      else .ok () (draft.pushEdge edge) := by
  change (if draft.edgeSet.contains edge = true then _ else _ : Drafting α Unit) draft = _
  split <;> rfl

theorem insertEdge_eq_ok {edge : Edge} {answer : Unit}
    (h : insertEdge edge draft = .ok answer left) :
    edge ∉ draft.edgeSet ∧ left = draft.pushEdge edge := by
  rw [insertEdge_eq] at h
  split at h
  · cases h
  · rename_i hAbsent
    cases h
    exact ⟨by simpa using hAbsent, rfl⟩

theorem atomic_insertEdge (edge : Edge) : Atomic (insertEdge edge : Drafting α Unit) := by
  intro draft error left h
  rw [insertEdge_eq] at h
  split at h
  · cases h
    rfl
  · cases h

/-- No edge is in the way of one that takes the place of all edges of its pair. -/
theorem insertEdge_detach (draft : IndexedDraft α) (source target weight : Nat) :
    insertEdge ⟨source, target, weight⟩ (draft.detach source target) =
      .ok () ((draft.detach source target).pushEdge ⟨source, target, weight⟩) := by
  have hAbsent : ¬ (draft.detach source target).edgeSet.contains ⟨source, target, weight⟩ = true := by
    simp [detach, Edge.joins]
  rw [insertEdge_eq, if_neg hAbsent]

theorem replaceEdge_eq_ok {source target : α} {weight : Nat} {ends : Nat × Nat}
    (h : replaceEdge source target weight draft = .ok ends left) :
    draft.index? source = some ends.1 ∧ draft.index? target = some ends.2 ∧
      left = (draft.detach ends.1 ends.2).pushEdge ⟨ends.1, ends.2, weight⟩ := by
  obtain ⟨⟨s, t⟩, hResolve, h⟩ := (looks_resolve source target).bind_eq_ok h
  obtain ⟨hSource, hTarget⟩ := resolve_eq_ok hResolve
  obtain ⟨_, _, hModify, h⟩ := bind_apply_eq_ok.mp h
  cases hModify
  obtain ⟨_, _, hInsert, h⟩ := bind_apply_eq_ok.mp h
  rw [insertEdge_detach] at hInsert
  cases hInsert
  cases h
  exact ⟨hSource, hTarget, rfl⟩

/-- The edges of a pair are only taken away once their place can be filled. -/
theorem atomic_replaceEdge (source target : α) (weight : Nat) :
    Atomic (replaceEdge source target weight) := by
  refine .bind (looks_resolve source target) fun ends => Total.atomic ?_
  intro draft error left h
  rcases bind_apply_eq_error.mp h with hModify | ⟨_, _, hModify, h⟩
  · cases hModify
  · cases hModify
    rcases bind_apply_eq_error.mp h with hInsert | ⟨_, _, -, h⟩
    · rw [insertEdge_detach] at hInsert
      cases hInsert
    · cases h

theorem atomic_addWeightedEdge (source target : α) (weight : Nat) :
    Atomic (addWeightedEdge source target weight) :=
  .bind (looks_resolve source target) fun _ => atomic_insertEdge _

theorem atomic_addEdgeBetween (source target weight : Nat) :
    Atomic (addEdgeBetween source target weight : Drafting α Unit) :=
  .bind (looks_checkNode _ _) fun _ => .bind (looks_checkNode _ _) fun _ => atomic_insertEdge _

end InPlace

/-! ## Steps -/

section Steps

variable [NodeContent α]

/-- A step that is not a pass over many edges leaves the draft as it was if it fails. -/
theorem atomic_step (call : DraftStep α) (h : call.isPass = false) : Atomic (step call) := by
  cases call with
  | addNode content =>
    refine Atomic.map (Total.atomic ?_)
    intro draft error left hError
    cases hError
  | addNodes contents => exact (total_modify _).atomic.map
  | addEdge source target => exact (atomic_addWeightedEdge _ _ _).map
  | addWeightedEdge source target weight => exact (atomic_addWeightedEdge _ _ _).map
  | addLabelledEdge source target label =>
    refine Atomic.map (.bind (looks_resolve source target) fun _ => ?_)
    exact (atomic_insertEdge _).bind_of_total fun _ => total_modify _
  | addEdgeBetween source target weight => exact (atomic_addEdgeBetween _ _ _).map
  | addLabelledEdgeBetween source target label =>
    exact ((atomic_addEdgeBetween _ _ _).bind_of_total fun _ => total_modify _).map
  | updateEdge source target weight label =>
    exact ((atomic_replaceEdge _ _ _).bind_of_total fun _ => total_modify _).map
  | removeEdge source target =>
    refine Atomic.map (.bind (looks_resolve source target) fun _ => Total.atomic ?_)
    intro draft error left hError
    cases hError
  | reverse => exact (total_modify _).atomic.map
  | addEdges pairs => cases h
  | updateEdges edges => cases h

namespace Consistent

variable {draft left : IndexedDraft α}

theorem insertEdge (h : Consistent draft) {edge : Edge} {answer : Unit}
    (hOk : IndexedDraft.insertEdge edge draft = .ok answer left)
    (hLt : edge.source < draft.nodes.size ∧ edge.target < draft.nodes.size) :
    Consistent left ∧ edge ∈ left.edges := by
  obtain ⟨hFresh, rfl⟩ := insertEdge_eq_ok hOk
  exact ⟨h.pushEdge hFresh hLt, Array.mem_push_self⟩

theorem addWeightedEdge (h : Consistent draft) {source target : α} {weight : Nat} {answer : Unit}
    (hOk : IndexedDraft.addWeightedEdge source target weight draft = .ok answer left) :
    Consistent left := by
  obtain ⟨⟨s, t⟩, hResolve, hInsert⟩ := (looks_resolve source target).bind_eq_ok hOk
  obtain ⟨hSource, hTarget⟩ := resolve_eq_ok hResolve
  exact (h.insertEdge hInsert ⟨h.lt_size hSource, h.lt_size hTarget⟩).1

theorem addLabelledEdge (h : Consistent draft) {source target : α} {label : String}
    {answer : Unit}
    (hOk : IndexedDraft.addLabelledEdge source target label draft = .ok answer left) :
    Consistent left := by
  obtain ⟨⟨s, t⟩, hResolve, hOk⟩ := (looks_resolve source target).bind_eq_ok hOk
  obtain ⟨hSource, hTarget⟩ := resolve_eq_ok hResolve
  obtain ⟨_, middle, hInsert, hOk⟩ := bind_apply_eq_ok.mp hOk
  obtain ⟨hMiddle, hEdge⟩ := h.insertEdge hInsert ⟨h.lt_size hSource, h.lt_size hTarget⟩
  cases hOk
  exact hMiddle.setLabel (some label) ⟨_, hEdge, rfl, rfl⟩

theorem addEdgeBetween (h : Consistent draft) {source target weight : Nat} {answer : Unit}
    (hOk : IndexedDraft.addEdgeBetween source target weight draft = .ok answer left) :
    Consistent left ∧ ⟨source, target, weight⟩ ∈ left.edges := by
  obtain ⟨_, hSource, hOk⟩ := (looks_checkNode .source source).bind_eq_ok hOk
  obtain ⟨_, hTarget, hInsert⟩ := (looks_checkNode .target target).bind_eq_ok hOk
  exact h.insertEdge hInsert ⟨checkNode_eq_ok hSource, checkNode_eq_ok hTarget⟩

theorem replaceEdge (h : Consistent draft) {source target : α} {weight : Nat} {ends : Nat × Nat}
    (hOk : IndexedDraft.replaceEdge source target weight draft = .ok ends left) :
    Consistent left ∧ ⟨ends.1, ends.2, weight⟩ ∈ left.edges := by
  obtain ⟨hSource, hTarget, rfl⟩ := replaceEdge_eq_ok hOk
  exact ⟨h.replace (h.lt_size hSource) (h.lt_size hTarget) weight, Array.mem_push_self⟩

theorem removeEdge (h : Consistent draft) {source target : α} {count : Nat}
    (hOk : IndexedDraft.removeEdge source target draft = .ok count left) : Consistent left := by
  obtain ⟨⟨s, t⟩, -, hOk⟩ := (looks_resolve source target).bind_eq_ok hOk
  cases hOk
  exact h.remove s t

variable [EquivBEq α]

/-- A step that ends keeps a draft consistent. -/
theorem step (h : Consistent draft) {call : DraftStep α} {answer : Option Nat}
    (hOk : IndexedDraft.step call draft = .ok answer left) : Consistent left := by
  cases call with
  | addNode content =>
    cases hOk
    exact h.addNode content
  | addNodes contents =>
    cases hOk
    exact h.addNodes contents
  | addEdge source target =>
    obtain ⟨_, hOk, -⟩ := map_apply_eq_ok.mp hOk
    exact h.addWeightedEdge hOk
  | addWeightedEdge source target weight =>
    obtain ⟨_, hOk, -⟩ := map_apply_eq_ok.mp hOk
    exact h.addWeightedEdge hOk
  | addLabelledEdge source target label =>
    obtain ⟨_, hOk, -⟩ := map_apply_eq_ok.mp hOk
    exact h.addLabelledEdge hOk
  | addEdgeBetween source target weight =>
    obtain ⟨_, hOk, -⟩ := map_apply_eq_ok.mp hOk
    exact (h.addEdgeBetween hOk).1
  | addLabelledEdgeBetween source target label =>
    obtain ⟨_, hOk, -⟩ := map_apply_eq_ok.mp hOk
    obtain ⟨_, middle, hAdd, hOk⟩ := bind_apply_eq_ok.mp hOk
    obtain ⟨hMiddle, hEdge⟩ := h.addEdgeBetween hAdd
    cases hOk
    exact hMiddle.setLabel (some label) ⟨_, hEdge, rfl, rfl⟩
  | addEdges pairs =>
    obtain ⟨_, hOk, -⟩ := map_apply_eq_ok.mp hOk
    exact forM_preserves (fun _ _ _ hDraft hAdd => hDraft.addWeightedEdge hAdd) h hOk
  | updateEdge source target weight label =>
    obtain ⟨_, hOk, -⟩ := map_apply_eq_ok.mp hOk
    obtain ⟨⟨s, t⟩, middle, hReplace, hOk⟩ := bind_apply_eq_ok.mp hOk
    obtain ⟨hMiddle, hEdge⟩ := h.replaceEdge hReplace
    cases hOk
    exact hMiddle.setLabel label ⟨_, hEdge, rfl, rfl⟩
  | updateEdges edges =>
    obtain ⟨_, hOk, -⟩ := map_apply_eq_ok.mp hOk
    refine forM_preserves (fun _ _ _ hDraft hReplace => ?_) h hOk
    obtain ⟨_, hReplace, -⟩ := map_apply_eq_ok.mp hReplace
    exact (hDraft.replaceEdge hReplace).1
  | removeEdge source target =>
    obtain ⟨_, hOk, -⟩ := map_apply_eq_ok.mp hOk
    exact h.removeEdge hOk
  | reverse =>
    cases hOk
    exact h.reverse

end Consistent

/-- Adding edges in turn stops at the first that cannot be added, and has added those before it. -/
theorem addEdges_eq_error {draft left : IndexedDraft α} {pairs : List (α × α)} {error : Error}
    (h : step (.addEdges pairs) draft = .error error left) :
    ∃ before pair rest, pairs = before ++ pair :: rest ∧
      step (.addEdges before) draft = .ok none left ∧
      step (.addEdge pair.1 pair.2) left = .error error left := by
  obtain ⟨before, pair, rest, middle, hPairs, hBefore, hFailed⟩ :=
    forM_eq_error (map_apply_eq_error.mp h)
  obtain rfl := atomic_addWeightedEdge _ _ _ _ _ _ hFailed
  exact ⟨before, pair, rest, hPairs, map_apply_eq_ok.mpr ⟨_, hBefore, rfl⟩,
    map_apply_eq_error.mpr hFailed⟩

/-- Updating edges in turn stops at the first that cannot be updated, and has updated those before
it. -/
theorem updateEdges_eq_error {draft left : IndexedDraft α} {edges : List (α × α × Nat)}
    {error : Error} (h : step (.updateEdges edges) draft = .error error left) :
    ∃ before edge rest, edges = before ++ edge :: rest ∧
      step (.updateEdges before) draft = .ok none left ∧
      step (.updateEdges [edge]) left = .error error left := by
  obtain ⟨before, edge, rest, middle, hEdges, hBefore, hFailed⟩ :=
    forM_eq_error (map_apply_eq_error.mp h)
  obtain rfl := (atomic_replaceEdge _ _ _).map _ _ _ hFailed
  refine ⟨before, edge, rest, hEdges, map_apply_eq_ok.mpr ⟨_, hBefore, rfl⟩, ?_⟩
  exact map_apply_eq_error.mpr (forM_cons_eq_error.mpr (Or.inl hFailed))

end Steps

/-! ## Graphs -/

section Graphs

variable {draft : IndexedDraft α} {g : Digraph α}

theorem Listed.exists_freeze (h : Listed draft) : ∃ g, draft.freeze? = some g :=
  ⟨_, dif_pos h.edge_lt⟩

theorem freeze?_eq_some (h : draft.freeze? = some g) :
    g.nodes = draft.nodes ∧ g.edges = draft.edges ∧ g.labels = draft.labels := by
  unfold freeze? at h
  split at h
  · cases h
    exact ⟨rfl, rfl, rfl⟩
  · cases h

/-- Different edges are taken over in their order. -/
theorem Listed.foldl_includeEdge (h : Listed draft) {edges : List Edge}
    (hNodup : (draft.edges.toList ++ edges).Nodup)
    (hLt : ∀ edge ∈ edges, edge.source < draft.nodes.size ∧ edge.target < draft.nodes.size) :
    Listed (edges.foldl includeEdge draft) ∧
      (edges.foldl includeEdge draft).nodes = draft.nodes ∧
      (edges.foldl includeEdge draft).index = draft.index ∧
      (edges.foldl includeEdge draft).edges.toList = draft.edges.toList ++ edges := by
  induction edges generalizing draft with
  | nil => exact ⟨h, rfl, rfl, by simp⟩
  | cons first edges ih =>
    have hFresh : first ∉ draft.edgeSet := by
      rw [h.mem_edgeSet, ← Array.mem_toList_iff]
      intro hMem
      exact (List.nodup_append.mp hNodup).2.2 first hMem first List.mem_cons_self rfl
    have hPushed := h.pushEdge hFresh (hLt first List.mem_cons_self)
    have hEdges : (draft.pushEdge first).edges.toList = draft.edges.toList ++ [first] := by
      simp [IndexedDraft.pushEdge]
    obtain ⟨hListed, hNodes, hIndex, hAll⟩ := ih hPushed (by simpa [hEdges] using hNodup)
      fun edge hEdge => hLt edge (List.mem_cons_of_mem first hEdge)
    rw [List.foldl_cons, includeEdge, if_neg (by simpa using hFresh)]
    refine ⟨hListed, hNodes, hIndex, ?_⟩
    rw [hAll, hEdges, List.append_assoc, List.singleton_append]

variable [NodeContent α]

theorem edges_addNodes (draft : IndexedDraft α) (contents : List α) :
    (draft.addNodes contents).edges = draft.edges ∧
      (draft.addNodes contents).labels = draft.labels := by
  induction contents generalizing draft with
  | nil => exact ⟨rfl, rfl⟩
  | cons content contents ih =>
    rw [addNodes, List.foldl_cons]
    have hRest := ih (draft.addNode content).2
    rcases addNode_cases draft content with ⟨-, hSame⟩ | ⟨-, hPushed⟩
    · rw [hSame] at hRest ⊢
      exact hRest
    · rw [hPushed] at hRest ⊢
      exact hRest

variable [EquivBEq α]

/-- Different contents become nodes in their order. -/
theorem Indexed.nodes_addNodes (h : Indexed draft) (contents : List α)
    (hDistinct : (draft.nodes.toList ++ contents).Pairwise fun a b => (a == b) = false) :
    (draft.addNodes contents).nodes.toList = draft.nodes.toList ++ contents := by
  induction contents generalizing draft with
  | nil => simp [addNodes]
  | cons content contents ih =>
    have hAbsent : draft.index? content = none := by
      rw [Option.eq_none_iff_forall_ne_some]
      intro node hNode
      obtain ⟨other, hOther, hEqual⟩ := (h.index_iff content node).mp hNode
      have hMem := List.mem_of_getElem? (Array.getElem?_toList ▸ hOther)
      have hApart := (List.pairwise_append.mp hDistinct).2.2 other hMem content List.mem_cons_self
      rw [BEq.comm, hApart] at hEqual
      cases hEqual
    rw [addNodes, List.foldl_cons]
    rcases addNode_cases draft content with ⟨hThere, -⟩ | ⟨-, hPushed⟩
    · rw [hAbsent] at hThere
      cases hThere
    · have hRest := ih (h.push hAbsent) (by simpa using hDistinct)
      rw [hPushed]
      simpa [addNodes] using hRest

theorem consistent_ofNodesOf (g : Digraph α) : Consistent (ofNodesOf g) :=
  consistent_empty.addNodes _

/-- The draft of the nodes of a graph has the nodes of the graph, and no edges. -/
theorem Consistent.ofNodesOf_eq (h : Consistent draft) (hFreeze : draft.freeze? = some g) :
    (ofNodesOf g).nodes = g.nodes ∧ (ofNodesOf g).edges = #[] ∧ (ofNodesOf g).labels = [] := by
  obtain ⟨hEdges, hLabels⟩ := edges_addNodes ({} : IndexedDraft α) g.nodes.toList
  refine ⟨?_, hEdges, hLabels⟩
  rw [← Array.toList_inj, ofNodesOf]
  apply consistent_empty.toIndexed.nodes_addNodes
  rw [(freeze?_eq_some hFreeze).1]
  exact h.distinct

/-- The draft of a graph has the nodes, edges and labels of the graph, and is consistent if the
graph was built from a consistent draft. -/
theorem Consistent.ofGraph_eq (h : Consistent draft) (hFreeze : draft.freeze? = some g) :
    Consistent (ofGraph g) ∧ (ofGraph g).nodes = g.nodes ∧ (ofGraph g).edges = g.edges ∧
      (ofGraph g).labels = g.labels := by
  obtain ⟨hNodes, hEdges, hLabels⟩ := freeze?_eq_some hFreeze
  obtain ⟨hSame, hNone, -⟩ := h.ofNodesOf_eq hFreeze
  have hBase := consistent_ofNodesOf g
  have hLt : ∀ edge ∈ g.edges.toList,
      edge.source < (ofNodesOf g).nodes.size ∧ edge.target < (ofNodesOf g).nodes.size := by
    intro edge hEdge
    rw [hSame]
    exact g.edge_lt edge (Array.mem_toList_iff.mp hEdge)
  have hNodup : ((ofNodesOf g).edges.toList ++ g.edges.toList).Nodup := by
    rw [hNone, hEdges]
    exact h.nodup
  obtain ⟨hListed, hKept, hIndex, hAll⟩ := hBase.toListed.foldl_includeEdge hNodup hLt
  have hTaken : (ofGraph g).edges = g.edges := by
    rw [hNone] at hAll
    exact Array.toList_inj.mp hAll
  refine ⟨⟨hBase.toIndexed.of_eq hKept hIndex, ⟨hListed.nodup, hListed.mem_edgeSet,
    hListed.edge_lt⟩, ?_⟩, hKept.trans hSame, hTaken, rfl⟩
  intro source target label hLabel
  change g.labels.find? source target = some label at hLabel
  rw [hLabels] at hLabel
  rw [hTaken, hEdges]
  exact h.labelled source target label hLabel

end Graphs

/-! ## All drafts -/

section Reachable

variable [NodeContent α]

/-- The draft that a step leaves, whether it fails or not. -/
def after (draft : IndexedDraft α) (call : DraftStep α) : IndexedDraft α :=
  match step call draft with
  | .ok _ left => left
  | .error _ left => left

theorem after_of_ok {draft left : IndexedDraft α} {call : DraftStep α} {answer : Option Nat}
    (h : step call draft = .ok answer left) : draft.after call = left := by
  rw [after, h]

/-- The drafts that can be built: by steps from the empty draft, from a graph that was built, or
from its nodes. -/
inductive Reachable : IndexedDraft α → Prop
  | empty : Reachable {}
  | step {draft : IndexedDraft α} (h : Reachable draft) (call : DraftStep α) :
      Reachable (draft.after call)
  | ofGraph {draft : IndexedDraft α} {g : Digraph α} (h : Reachable draft)
      (hFreeze : draft.freeze? = some g) : Reachable (ofGraph g)
  | ofNodesOf {draft : IndexedDraft α} {g : Digraph α} (h : Reachable draft)
      (hFreeze : draft.freeze? = some g) : Reachable (ofNodesOf g)

variable {draft : IndexedDraft α}

theorem Reachable.run (h : Reachable draft) (calls : List (DraftStep α)) :
    Reachable (calls.foldl IndexedDraft.after draft) := by
  induction calls generalizing draft with
  | nil => exact h
  | cons call calls ih => exact ih (h.step call)

variable [EquivBEq α]

/-- A step keeps a draft consistent, whether it fails or not. -/
theorem Consistent.after (h : Consistent draft) (call : DraftStep α) :
    Consistent (draft.after call) := by
  unfold IndexedDraft.after
  cases hStep : IndexedDraft.step call draft with
  | ok answer left => exact h.step hStep
  | error error left =>
    cases call with
    | addEdges pairs =>
      obtain ⟨before, _, _, -, hBefore, -⟩ := addEdges_eq_error hStep
      exact h.step hBefore
    | updateEdges edges =>
      obtain ⟨before, _, _, -, hBefore, -⟩ := updateEdges_eq_error hStep
      exact h.step hBefore
    | _ =>
      obtain rfl := atomic_step _ rfl _ _ _ hStep
      exact h

theorem Reachable.consistent (h : Reachable draft) : Consistent draft := by
  induction h with
  | empty => exact consistent_empty
  | step _ call ih => exact ih.after call
  | ofGraph _ hFreeze ih => exact (ih.ofGraph_eq hFreeze).1
  | ofNodesOf => exact consistent_ofNodesOf _

/-- Every draft that can be reached is consistent, and so it can be frozen. A step on one edge that
fails leaves it as it was, and one on many edges that fails leaves what the edges before the failing
one did. -/
theorem drafts_stay_consistent (draft : IndexedDraft α) (hReachable : Reachable draft) :
    Consistent draft ∧ (∃ g, draft.freeze? = some g) ∧
    (∀ call error left, call.isPass = false → step call draft = .error error left →
      left = draft) ∧
    (∀ pairs error left, step (.addEdges pairs) draft = .error error left →
      ∃ before pair rest, pairs = before ++ pair :: rest ∧
        step (.addEdges before) draft = .ok none left ∧
        step (.addEdge pair.1 pair.2) left = .error error left) ∧
    (∀ edges error left, step (.updateEdges edges) draft = .error error left →
      ∃ before edge rest, edges = before ++ edge :: rest ∧
        step (.updateEdges before) draft = .ok none left ∧
        step (.updateEdges [edge]) left = .error error left) := by
  have hConsistent := hReachable.consistent
  refine ⟨hConsistent, hConsistent.toListed.exists_freeze, ?_, ?_, ?_⟩
  · intro call error left hCall
    exact atomic_step call hCall draft error left
  · intro pairs error left hError
    exact addEdges_eq_error hError
  · intro edges error left hError
    exact updateEdges_eq_error hError

end Reachable

instance : EquivBEq Instruction where
  rfl := by
    intro a
    exact beq_self_eq_true a.site
  symm := by
    intro a b h
    have hSite : a.site = b.site := eq_of_beq h
    show (b.site == a.site) = true
    rw [hSite, beq_self_eq_true]
  trans := by
    intro a b c hFirst hSecond
    have hSite : a.site = b.site := eq_of_beq hFirst
    show (a.site == c.site) = true
    rw [hSite]
    exact hSecond

/-- The instruction of an endless loop. -/
def spinning (order : Int) : Instruction :=
  ⟨⟨"Loop", "spin", "()V"⟩, order, "nop", .nop, none⟩

/-- The last of these steps fails at the second of its edges, which is there already. -/
def spin : List (DraftStep Instruction) :=
  [.addNodes [spinning 0, spinning 1], .addLabelledEdge (spinning 0) (spinning 1) "next",
    .addEdges [(spinning 1, spinning 0), (spinning 0, spinning 1), (spinning 1, spinning 1)]]

theorem drafts_stay_consistent_spin :
    Reachable (spin.foldl after {}) ∧ Consistent (spin.foldl after {}) ∧
      (spin.foldl after {}).edges = #[⟨0, 1, Edge.plainWeight⟩, ⟨1, 0, Edge.plainWeight⟩] := by
  have hReachable : Reachable (spin.foldl after {}) := Reachable.empty.run spin
  exact ⟨hReachable, (drafts_stay_consistent _ hReachable).1, by decide +kernel⟩

end IndexedDraft

end BytecodeFlow
