import BytecodeFlow.Digraph.Ancestor
import Mathlib.Logic.Relation
import Mathlib.Tactic

/-!
# Ancestor chains

Parents that have a smaller rank than their children form a forest. If every rank is below the
bound on the steps, the bound is never met: the chain of a node is the node and the chain of its
parent (`Ranked.ancestors_eq`), it ends at a root, and it holds the ancestors of the node
(`Ranked.mem_ancestors_iff`).
-/

namespace BytecodeFlow

/-- Parents rank below their children, and every rank is below the bound on the steps. -/
structure Ranked (parent : Nat → Option Nat) (rank : Nat → Nat) (fuel : Nat) : Prop where
  parent_lt : ∀ {node above : Nat}, parent node = some above → rank above < rank node
  lt_fuel : ∀ node : Nat, rank node < fuel

/-- `above` is `node`, its parent, the parent of that, and so on. -/
abbrev IsAncestor (parent : Nat → Option Nat) (node above : Nat) : Prop :=
  Relation.ReflTransGen (fun a b => parent a = some b) node above

namespace Ranked

variable {parent : Nat → Option Nat} {rank : Nat → Nat} {fuel : Nat}

theorem ancestors_congr (h : Ranked parent rank fuel) {fuel₁ fuel₂ node : Nat}
    (h₁ : rank node < fuel₁) (h₂ : rank node < fuel₂) :
    ancestors parent fuel₁ node = ancestors parent fuel₂ node := by
  induction fuel₁ generalizing fuel₂ node with
  | zero => omega
  | succ fuel₁ ih =>
    cases fuel₂ with
    | zero => omega
    | succ fuel₂ =>
      rw [ancestors, ancestors]
      cases hParent : parent node with
      | none => rfl
      | some above =>
        have hLt := h.parent_lt hParent
        simp only
        rw [ih (by omega) (by omega : rank above < fuel₂)]

/-- The chain of a node is the node and the chain of its parent. -/
theorem ancestors_eq (h : Ranked parent rank fuel) (node : Nat) :
    ancestors parent fuel node = node :: match parent node with
      | some above => ancestors parent fuel above
      | none => [] := by
  obtain ⟨steps, rfl⟩ : ∃ steps, fuel = steps + 1 :=
    ⟨fuel - 1, by have := h.lt_fuel node; omega⟩
  rw [ancestors]
  cases hParent : parent node with
  | none => rfl
  | some above =>
    have hLt := h.parent_lt hParent
    have hNode := h.lt_fuel node
    simp only
    rw [h.ancestors_congr (by omega : rank above < steps) (h.lt_fuel above)]

theorem ancestors_of_some (h : Ranked parent rank fuel) {node above : Nat}
    (hParent : parent node = some above) :
    ancestors parent fuel node = node :: ancestors parent fuel above := by
  rw [h.ancestors_eq node, hParent]

theorem ancestors_of_none (h : Ranked parent rank fuel) {node : Nat}
    (hParent : parent node = none) : ancestors parent fuel node = [node] := by
  rw [h.ancestors_eq node, hParent]

theorem self_mem_ancestors (h : Ranked parent rank fuel) (node : Nat) :
    node ∈ ancestors parent fuel node := by
  rw [h.ancestors_eq node]
  exact List.mem_cons_self

/-- Going up from a node by induction on its rank. -/
theorem induction_up (h : Ranked parent rank fuel) {P : Nat → Prop}
    (hRoot : ∀ node, parent node = none → P node)
    (hStep : ∀ node above, parent node = some above → P above → P node) (node : Nat) :
    P node := by
  generalize hk : rank node = k
  induction k using Nat.strong_induction_on generalizing node with
  | _ k ih =>
    cases hParent : parent node with
    | none => exact hRoot node hParent
    | some above =>
      exact hStep node above hParent (ih (rank above) (hk ▸ h.parent_lt hParent) above rfl)

/-- A chain from one of its nodes on is the chain of that node. -/
theorem ancestors_of_split (h : Ranked parent rank fuel) {node above : Nat} {below rest : List Nat}
    (hSplit : ancestors parent fuel node = below ++ above :: rest) :
    ancestors parent fuel above = above :: rest := by
  induction below generalizing node with
  | nil =>
    rw [List.nil_append] at hSplit
    have hNode : node = above := by
      rw [h.ancestors_eq node] at hSplit
      exact (List.cons.inj hSplit).1
    rw [← hNode, hSplit, hNode]
  | cons first below ih =>
    rw [List.cons_append] at hSplit
    cases hParent : parent node with
    | none =>
      rw [h.ancestors_of_none hParent] at hSplit
      simp at hSplit
    | some next =>
      rw [h.ancestors_of_some hParent] at hSplit
      exact ih (List.cons.inj hSplit).2

theorem ancestors_suffix (h : Ranked parent rank fuel) {node above : Nat}
    (hMem : above ∈ ancestors parent fuel node) :
    ∃ below, ancestors parent fuel node = below ++ ancestors parent fuel above := by
  obtain ⟨below, rest, hSplit⟩ := List.append_of_mem hMem
  exact ⟨below, by rw [hSplit, h.ancestors_of_split hSplit]⟩

theorem mem_ancestors_iff (h : Ranked parent rank fuel) {node above : Nat} :
    above ∈ ancestors parent fuel node ↔ IsAncestor parent node above := by
  constructor
  · intro hMem
    induction node using h.induction_up with
    | hRoot node hParent =>
      rw [h.ancestors_of_none hParent, List.mem_singleton] at hMem
      exact hMem ▸ .refl
    | hStep node next hParent ih =>
      rw [h.ancestors_of_some hParent] at hMem
      rcases List.mem_cons.mp hMem with rfl | hMem
      · exact .refl
      · exact .head hParent (ih hMem)
  · intro hSteps
    induction hSteps using Relation.ReflTransGen.head_induction_on with
    | refl => exact h.self_mem_ancestors above
    | head hParent _ ih =>
      rw [h.ancestors_of_some hParent]
      exact List.mem_cons_of_mem _ ih

theorem rank_le_of_mem (h : Ranked parent rank fuel) {node above : Nat}
    (hMem : above ∈ ancestors parent fuel node) : rank above ≤ rank node := by
  have hSteps := h.mem_ancestors_iff.mp hMem
  induction hSteps using Relation.ReflTransGen.head_induction_on with
  | refl => exact le_refl _
  | head hParent hRest ih =>
    exact (ih (h.mem_ancestors_iff.mpr hRest)).trans (h.parent_lt hParent).le

theorem nodup_ancestors (h : Ranked parent rank fuel) (node : Nat) :
    (ancestors parent fuel node).Nodup := by
  induction node using h.induction_up with
  | hRoot node hParent =>
    rw [h.ancestors_of_none hParent]
    exact List.nodup_singleton node
  | hStep node above hParent ih =>
    rw [h.ancestors_of_some hParent]
    refine List.nodup_cons.mpr ⟨fun hMem => ?_, ih⟩
    have hLe := h.rank_le_of_mem hMem
    have hLt := h.parent_lt hParent
    omega

/-- What stands before a node in a chain is what comes before the node is met. -/
theorem takeWhile_ancestors (h : Ranked parent rank fuel) {node above : Nat} {below : List Nat}
    (hSplit : ancestors parent fuel node = below ++ ancestors parent fuel above) :
    (ancestors parent fuel node).takeWhile (· != above) = below := by
  have hRest := h.ancestors_eq above
  have hNodup := h.nodup_ancestors node
  rw [hSplit, hRest] at hNodup
  rw [hSplit, hRest, List.takeWhile_append_of_pos, List.takeWhile_cons_of_neg (by simp),
    List.append_nil]
  intro x hx
  rw [bne_iff_ne]
  rintro rfl
  exact (List.nodup_append.mp hNodup).2.2 x hx x List.mem_cons_self rfl

/-- Two nodes that are ancestors of each other are the same. -/
theorem ancestors_antisymm (h : Ranked parent rank fuel) {a b : Nat}
    (hab : b ∈ ancestors parent fuel a) (hba : a ∈ ancestors parent fuel b) : a = b := by
  cases hParent : parent a with
  | none =>
    rw [h.ancestors_of_none hParent, List.mem_singleton] at hab
    exact hab.symm
  | some above =>
    rw [h.ancestors_of_some hParent] at hab
    rcases List.mem_cons.mp hab with rfl | hab
    · rfl
    · have hUp := h.rank_le_of_mem hab
      have hDown := h.rank_le_of_mem hba
      have hLt := h.parent_lt hParent
      omega

/-- If a single node has no parent, every chain ends there. -/
theorem getLast?_ancestors (h : Ranked parent rank fuel) {root : Nat} {P : Nat → Prop}
    (hRoot : ∀ node, P node → parent node = none → node = root)
    (hUp : ∀ node above, P node → parent node = some above → P above) {node : Nat}
    (hNode : P node) : (ancestors parent fuel node).getLast? = some root := by
  induction node using h.induction_up with
  | hRoot node hParent =>
    rw [h.ancestors_of_none hParent, hRoot node hNode hParent]
    rfl
  | hStep node above hParent ih =>
    rw [h.ancestors_of_some hParent, List.getLast?_cons, ih (hUp node above hNode hParent)]
    rfl

end Ranked

end BytecodeFlow
