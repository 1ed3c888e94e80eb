import BytecodeFlow.Digraph.Traversal
import BytecodeFlow.Proofs.Paths

/-!
# Traversals visit what is reachable

All searches run on a step bound, so their theorems start with the fact that the bound is never
met: a step takes a node from the agenda that was never taken before, and all nodes are numbers
below the size of the graph. What a search with an agenda lists does not depend on the place where
it puts new nodes (`Traversal.Searches`), so that there is one argument for both of them.

* `mem_breadthFirst_iff`, `mem_depthFirst_iff`: the breadth-first search and the depth-first search
  list the nodes that the start reaches.
* `mem_reachableFrom_iff`: the same from several starts.
* `reversePostorder_spec`: the finishing order lists each reachable node once, and a node other
  than the start comes behind one of its predecessors.
-/

namespace BytecodeFlow

namespace Traversal

variable {next : Nat → List Nat}

/-! ## Nodes that are not seen yet -/

theorem mem_unseen {seen nodes : List Nat} {x : Nat} :
    x ∈ unseen seen nodes ↔ x ∈ nodes ∧ x ∉ seen := by
  induction nodes generalizing seen with
  | nil => simp [unseen]
  | cons node nodes ih =>
    unfold unseen
    split
    · rename_i hSeen
      rw [List.contains_iff_mem] at hSeen
      rw [ih, List.mem_cons]
      constructor
      · exact fun ⟨hx, hNot⟩ => ⟨Or.inr hx, hNot⟩
      · rintro ⟨rfl | hx, hNot⟩
        · exact absurd hSeen hNot
        · exact ⟨hx, hNot⟩
    · rename_i hSeen
      rw [List.contains_iff_mem] at hSeen
      simp only [List.mem_cons, ih, not_or]
      by_cases hEq : x = node
      · subst hEq
        simp [hSeen]
      · simp [hEq]

theorem mem_unseen_reverse {seen nodes : List Nat} {x : Nat} :
    x ∈ unseen seen nodes.reverse ↔ x ∈ nodes ∧ x ∉ seen := by
  rw [mem_unseen, List.mem_reverse]

theorem nodup_unseen {seen nodes : List Nat} : (unseen seen nodes).Nodup := by
  induction nodes generalizing seen with
  | nil => simp [unseen]
  | cons node nodes ih =>
    unfold unseen
    split
    · exact ih
    · refine List.nodup_cons.mpr ⟨?_, ih⟩
      intro h
      exact (mem_unseen.mp h).2 List.mem_cons_self

/-- Distinct numbers below a bound are not more than the bound. -/
theorem length_le_of_nodup {nodes : List Nat} {bound : Nat} (hNodup : nodes.Nodup)
    (hLt : ∀ x ∈ nodes, x < bound) : nodes.length ≤ bound := by
  have hSub : nodes ⊆ List.range bound := fun x hx => List.mem_range.mpr (hLt x hx)
  simpa using (hNodup.subperm hSub).length_le

/-- In a list without repetition, what stands before an occurrence of a node stands in the part of
the list before it. -/
theorem mem_of_sublist_pair {u x : Nat} {before behind : List Nat}
    (hNodup : (before ++ x :: behind).Nodup) (hSub : [u, x].Sublist (before ++ x :: behind)) :
    u ∈ before := by
  induction before with
  | nil =>
    rw [List.nil_append] at hNodup hSub
    have hNot := (List.nodup_cons.mp hNodup).1
    cases hSub with
    | cons _ h => exact absurd (h.subset (by simp)) hNot
    | cons_cons _ h => exact absurd (h.subset (by simp)) hNot
  | cons y before ih =>
    rw [List.cons_append] at hNodup hSub
    cases hSub with
    | cons _ h => exact List.mem_cons_of_mem _ (ih (List.nodup_cons.mp hNodup).2 h)
    | cons_cons _ h => exact List.mem_cons_self

/-- A table with a value for each node, after the value of a node is written. -/
theorem getD_setIfInBounds {β : Type} {table : Array β} {node : Nat} (h : node < table.size)
    (value default : β) (x : Nat) :
    (table.setIfInBounds node value)[x]?.getD default =
      if x = node then value else table[x]?.getD default := by
  rw [Array.getElem?_setIfInBounds]
  by_cases hx : x = node
  · simp [hx, h]
  · simp [hx, Ne.symm hx]

theorem getD_replicate {β : Type} (size : Nat) (value : β) (x : Nat) :
    (Array.replicate size value)[x]?.getD value = value := by
  rw [Array.getElem?_replicate]
  split <;> rfl

/-- The marks of a table are those of the nodes of a list. -/
structure Marks (bound : Nat) (marks : Array Bool) (nodes : List Nat) : Prop where
  size_eq : marks.size = bound
  marked_iff : ∀ x, marks[x]?.getD false = true ↔ x ∈ nodes

theorem marks_replicate (bound : Nat) : Marks bound (Array.replicate bound false) [] :=
  ⟨Array.size_replicate, fun x => by simp [getD_replicate]⟩

theorem Marks.lt_bound {bound : Nat} {marks : Array Bool} {nodes : List Nat}
    (h : Marks bound marks nodes) : ∀ x ∈ nodes, x < bound := by
  intro x hx
  by_contra hNot
  have hMark := (h.marked_iff x).mpr hx
  rw [Array.getElem?_eq_none (by rw [h.size_eq]; omega)] at hMark
  cases hMark

theorem Marks.mark {bound node : Nat} {marks : Array Bool} {nodes : List Nat}
    (h : Marks bound marks nodes) (hNode : node < bound) :
    Marks bound (marks.setIfInBounds node true) (node :: nodes) := by
  refine ⟨Array.size_setIfInBounds.trans h.size_eq, fun x => ?_⟩
  rw [getD_setIfInBounds (h.size_eq ▸ hNode), List.mem_cons, ← h.marked_iff]
  by_cases hx : x = node
  · simp [hx]
  · rw [if_neg hx, or_iff_right hx]

theorem Marks.congr {bound : Nat} {marks : Array Bool} {nodes nodes' : List Nat}
    (h : Marks bound marks nodes) (hSame : ∀ x, x ∈ nodes ↔ x ∈ nodes') :
    Marks bound marks nodes' :=
  ⟨h.size_eq, fun x => (h.marked_iff x).trans (hSame x)⟩

/-! ## Searches with an agenda -/

/-- The list of a search that takes the first node of its agenda and puts the unseen neighbours of
that node on the agenda, in whatever place. -/
inductive Searches (next : Nat → List Nat) : Nat → List Nat → List Nat → List Nat → Prop
  | stopped (agenda seen : List Nat) : Searches next 0 agenda seen []
  | done (fuel : Nat) (seen : List Nat) : Searches next fuel [] seen []
  | take {fuel node : Nat} {agenda seen fresh later listed : List Nat} (hNodup : fresh.Nodup)
      (hFresh : ∀ x, x ∈ fresh ↔ x ∈ next node ∧ x ∉ seen) (hLater : later.Perm (agenda ++ fresh))
      (hRest : Searches next fuel later (fresh ++ seen) listed) :
      Searches next (fuel + 1) (node :: agenda) seen (node :: listed)

theorem searches_breadthFirst (fuel : Nat) (agenda seen : List Nat) :
    Searches next fuel agenda seen (breadthFirst next fuel agenda seen) := by
  induction fuel generalizing agenda seen with
  | zero =>
    rw [breadthFirst]
    exact .stopped _ _
  | succ fuel ih =>
    cases agenda with
    | nil => exact .done _ _
    | cons node agenda =>
      exact .take nodup_unseen (fun _ => mem_unseen) (List.Perm.refl _) (ih _ _)

theorem perm_reverse_append (fresh agenda : List Nat) :
    (fresh.reverse ++ agenda).Perm (agenda ++ fresh) :=
  List.perm_append_comm.trans ((List.reverse_perm fresh).append_left agenda)

theorem searches_depthFirst (fuel : Nat) (agenda seen : List Nat) :
    Searches next fuel agenda seen (depthFirst next fuel agenda seen) := by
  induction fuel generalizing agenda seen with
  | zero =>
    rw [depthFirst]
    exact .stopped _ _
  | succ fuel ih =>
    cases agenda with
    | nil => exact .done _ _
    | cons node agenda =>
      exact .take nodup_unseen (fun _ => mem_unseen_reverse) (perm_reverse_append _ _) (ih _ _)

/-- What holds between two steps of a search: the agenda is a part of the seen nodes, none of
which was seen twice, and the steps that are left are enough for the nodes not taken yet. -/
structure Fair (bound fuel : Nat) (agenda seen : List Nat) : Prop where
  agenda_sub : ∀ x ∈ agenda, x ∈ seen
  agenda_nodup : agenda.Nodup
  seen_nodup : seen.Nodup
  seen_lt : ∀ x ∈ seen, x < bound
  enough : bound + agenda.length ≤ fuel + seen.length

theorem Fair.start {bound : Nat} {roots : List Nat} (hNodup : roots.Nodup)
    (hLt : ∀ x ∈ roots, x < bound) : Fair bound bound roots roots :=
  ⟨fun _ => id, hNodup, hNodup, hLt, le_refl _⟩

theorem Fair.agenda_eq_nil {bound : Nat} {agenda seen : List Nat}
    (h : Fair bound 0 agenda seen) : agenda = [] := by
  have hSeen := length_le_of_nodup h.seen_nodup h.seen_lt
  have hEnough := h.enough
  exact List.eq_nil_of_length_eq_zero (by omega)

theorem Fair.step {bound fuel node : Nat} {agenda seen fresh later : List Nat}
    (hNext : ∀ x, ∀ y ∈ next x, y < bound) (hNodup : fresh.Nodup)
    (hFresh : ∀ x, x ∈ fresh ↔ x ∈ next node ∧ x ∉ seen) (hLater : later.Perm (agenda ++ fresh))
    (h : Fair bound (fuel + 1) (node :: agenda) seen) : Fair bound fuel later (fresh ++ seen) := by
  have hDisjoint : ∀ x ∈ fresh, x ∉ seen := fun x hx => ((hFresh x).mp hx).2
  have hAgenda : ∀ x ∈ agenda, x ∈ seen := fun x hx => h.agenda_sub x (List.mem_cons_of_mem _ hx)
  refine ⟨?_, ?_, ?_, ?_, ?_⟩
  · intro x hx
    rcases List.mem_append.mp (hLater.mem_iff.mp hx) with hx | hx
    · exact List.mem_append_right _ (hAgenda x hx)
    · exact List.mem_append_left _ hx
  · refine hLater.nodup_iff.mpr
      (List.nodup_append.mpr ⟨(List.nodup_cons.mp h.agenda_nodup).2, hNodup, ?_⟩)
    rintro x hx _ hy rfl
    exact hDisjoint x hy (hAgenda x hx)
  · refine List.nodup_append.mpr ⟨hNodup, h.seen_nodup, ?_⟩
    rintro x hx _ hy rfl
    exact hDisjoint x hx hy
  · intro x hx
    rcases List.mem_append.mp hx with hx | hx
    · exact hNext node x ((hFresh x).mp hx).1
    · exact h.seen_lt x hx
  · have hEnough := h.enough
    simp only [hLater.length_eq, List.length_append, List.length_cons] at hEnough ⊢
    omega

namespace Searches

variable {bound fuel : Nat} {agenda seen listed : List Nat} {x : Nat}

/-- Everything the search lists is reached from its agenda. -/
theorem sound (h : Searches next fuel agenda seen listed) (hx : x ∈ listed) :
    ∃ a ∈ agenda, Relation.ReflTransGen (fun u v => v ∈ next u) a x := by
  induction h with
  | stopped => cases hx
  | done => cases hx
  | @take _ node _ _ _ _ _ _ hFresh hLater _ ih =>
    rcases List.mem_cons.mp hx with rfl | hx
    · exact ⟨x, List.mem_cons_self, .refl⟩
    · obtain ⟨a, ha, hSteps⟩ := ih hx
      rcases List.mem_append.mp (hLater.mem_iff.mp ha) with ha | ha
      · exact ⟨a, List.mem_cons_of_mem _ ha, hSteps⟩
      · exact ⟨node, List.mem_cons_self, .head ((hFresh a).mp ha).1 hSteps⟩

/-- The search lists its agenda, and what follows a listed node is listed or was seen before. -/
theorem closed (h : Searches next fuel agenda seen listed)
    (hNext : ∀ x, ∀ y ∈ next x, y < bound) (hFair : Fair bound fuel agenda seen) :
    (∀ x ∈ agenda, x ∈ listed) ∧ ∀ x ∈ listed, ∀ y ∈ next x, y ∈ seen ∨ y ∈ listed := by
  induction h with
  | stopped =>
    obtain rfl := hFair.agenda_eq_nil
    simp
  | done => simp
  | @take _ node _ seen fresh _ listed hNodup hFresh hLater _ ih =>
    obtain ⟨hAgenda, hClosed⟩ := ih (hFair.step hNext hNodup hFresh hLater)
    constructor
    · intro x hx
      rcases List.mem_cons.mp hx with rfl | hx
      · exact List.mem_cons_self
      · exact List.mem_cons_of_mem _
          (hAgenda x (hLater.mem_iff.mpr (List.mem_append_left _ hx)))
    · intro x hx y hy
      -- a fresh node is on the agenda of the rest of the search
      have hOld : y ∈ fresh ++ seen ∨ y ∈ listed → y ∈ seen ∨ y ∈ node :: listed := by
        rintro (hy | hy)
        · rcases List.mem_append.mp hy with hy | hy
          · exact Or.inr (List.mem_cons_of_mem _
              (hAgenda y (hLater.mem_iff.mpr (List.mem_append_right _ hy))))
          · exact Or.inl hy
        · exact Or.inr (List.mem_cons_of_mem _ hy)
      rcases List.mem_cons.mp hx with rfl | hx
      · by_cases hSeen : y ∈ seen
        · exact Or.inl hSeen
        · exact hOld (Or.inl (List.mem_append_left _ ((hFresh y).mpr ⟨hy, hSeen⟩)))
      · exact hOld (hClosed x hx y hy)

/-- From the given starts, the search lists what they lead to. -/
theorem mem_iff {roots : List Nat} (h : Searches next bound roots roots listed)
    (hNext : ∀ x, ∀ y ∈ next x, y < bound) (hNodup : roots.Nodup) (hLt : ∀ x ∈ roots, x < bound) :
    x ∈ listed ↔ ∃ root ∈ roots, Relation.ReflTransGen (fun u v => v ∈ next u) root x := by
  obtain ⟨hRoots, hClosed⟩ := h.closed hNext (Fair.start hNodup hLt)
  refine ⟨h.sound, ?_⟩
  rintro ⟨root, hRoot, hSteps⟩
  induction hSteps with
  | refl => exact hRoots root hRoot
  | tail _ hStep ih =>
    rcases hClosed _ ih _ hStep with hy | hy
    · exact hRoots _ hy
    · exact hy

/-- From one start, the search lists what the start leads to. -/
theorem mem_iff_of_root {root : Nat} (h : Searches next bound [root] [root] listed)
    (hNext : ∀ x, ∀ y ∈ next x, y < bound) (hRoot : root < bound) :
    x ∈ listed ↔ Relation.ReflTransGen (fun u v => v ∈ next u) root x := by
  rw [h.mem_iff hNext (List.nodup_singleton root) (by simpa using hRoot)]
  simp

end Searches

/-! ## Finishing order -/

/-- What a part of the recursive search adds to its state: the nodes `fresh` are entered and
finished, and the search of `roots` is complete. A fresh node that is no root stands behind one
that leads to it. What follows a fresh node is finished before it, unless it was entered already or
leads back to that node. -/
structure Grown (next : Nat → List Nat) (roots fresh : List Nat) (before after : Finished) :
    Prop where
  done_eq : after.done = fresh ++ before.done
  entered_iff : ∀ x, x ∈ after.entered ↔ x ∈ fresh ∨ x ∈ before.entered
  fresh_nodup : fresh.Nodup
  fresh_not : ∀ x ∈ fresh, x ∉ before.entered
  roots_entered : ∀ x ∈ roots, x ∈ after.entered
  closed : ∀ x ∈ fresh, ∀ y ∈ next x, y ∈ after.entered
  ordered : ∀ x ∈ fresh, x ∈ roots ∨ ∃ u, x ∈ next u ∧ [u, x].Sublist fresh
  reached : ∀ x ∈ fresh, ∃ root ∈ roots, Relation.ReflTransGen (fun u v => v ∈ next u) root x
  finishes : ∀ x ∈ fresh, ∀ y ∈ next x, y ∈ before.entered ∨ [x, y].Sublist fresh ∨
    Relation.ReflTransGen (fun u v => v ∈ next u) y x

theorem Grown.refl {roots : List Nat} {state : Finished}
    (h : ∀ x ∈ roots, x ∈ state.entered) : Grown next roots [] state state :=
  ⟨rfl, by simp, by simp, by simp, h, by simp, by simp, by simp, by simp⟩

theorem Grown.trans {roots₁ roots₂ fresh₁ fresh₂ : List Nat} {before middle after : Finished}
    (h₁ : Grown next roots₁ fresh₁ before middle) (h₂ : Grown next roots₂ fresh₂ middle after) :
    Grown next (roots₁ ++ roots₂) (fresh₂ ++ fresh₁) before after := by
  have hKeep : ∀ x ∈ middle.entered, x ∈ after.entered := fun x hx =>
    (h₂.entered_iff x).mpr (Or.inr hx)
  refine ⟨?_, ?_, ?_, ?_, ?_, ?_, ?_, ?_, ?_⟩
  · rw [h₂.done_eq, h₁.done_eq, List.append_assoc]
  · intro x
    rw [h₂.entered_iff, h₁.entered_iff, List.mem_append, or_assoc]
  · refine List.nodup_append.mpr ⟨h₂.fresh_nodup, h₁.fresh_nodup, ?_⟩
    rintro x hx _ hy rfl
    exact h₂.fresh_not x hx ((h₁.entered_iff x).mpr (Or.inl hy))
  · intro x hx hBefore
    rcases List.mem_append.mp hx with hx | hx
    · exact h₂.fresh_not x hx ((h₁.entered_iff x).mpr (Or.inr hBefore))
    · exact h₁.fresh_not x hx hBefore
  · intro x hx
    rcases List.mem_append.mp hx with hx | hx
    · exact hKeep x (h₁.roots_entered x hx)
    · exact h₂.roots_entered x hx
  · intro x hx y hy
    rcases List.mem_append.mp hx with hx | hx
    · exact h₂.closed x hx y hy
    · exact hKeep y (h₁.closed x hx y hy)
  · intro x hx
    rcases List.mem_append.mp hx with hx | hx
    · rcases h₂.ordered x hx with hRoot | ⟨u, hStep, hSub⟩
      · exact Or.inl (List.mem_append_right _ hRoot)
      · exact Or.inr ⟨u, hStep, hSub.trans (List.sublist_append_left _ _)⟩
    · rcases h₁.ordered x hx with hRoot | ⟨u, hStep, hSub⟩
      · exact Or.inl (List.mem_append_left _ hRoot)
      · exact Or.inr ⟨u, hStep, hSub.trans (List.sublist_append_right _ _)⟩
  · intro x hx
    rcases List.mem_append.mp hx with hx | hx
    · obtain ⟨root, hRoot, hSteps⟩ := h₂.reached x hx
      exact ⟨root, List.mem_append_right _ hRoot, hSteps⟩
    · obtain ⟨root, hRoot, hSteps⟩ := h₁.reached x hx
      exact ⟨root, List.mem_append_left _ hRoot, hSteps⟩
  · intro x hx y hy
    rcases List.mem_append.mp hx with hx | hx
    · rcases h₂.finishes x hx y hy with hMiddle | hSub | hBack
      · rcases (h₁.entered_iff y).mp hMiddle with hFresh | hBefore
        · exact Or.inr (Or.inl ((List.singleton_sublist.mpr hx).append
            (List.singleton_sublist.mpr hFresh)))
        · exact Or.inl hBefore
      · exact Or.inr (Or.inl (hSub.trans (List.sublist_append_left _ _)))
      · exact Or.inr (Or.inr hBack)
    · rcases h₁.finishes x hx y hy with hBefore | hSub | hBack
      · exact Or.inl hBefore
      · exact Or.inr (Or.inl (hSub.trans (List.sublist_append_right _ _)))
      · exact Or.inr (Or.inr hBack)

/-- Finishing a node behind all that its successors lead to. -/
theorem Grown.finish {node : Nat} {fresh : List Nat} {before inner : Finished}
    (hNode : node ∉ before.entered)
    (h : Grown next (next node) fresh { before with entered := node :: before.entered } inner) :
    Grown next [node] (node :: fresh) before { inner with done := node :: inner.done } := by
  have hEntered : ∀ x, x ∈ inner.entered ↔ x ∈ fresh ∨ x = node ∨ x ∈ before.entered := by
    intro x
    rw [h.entered_iff, List.mem_cons]
  have hReached : ∀ x ∈ fresh, Relation.ReflTransGen (fun u v => v ∈ next u) node x := by
    intro x hx
    obtain ⟨root, hRoot, hSteps⟩ := h.reached x hx
    exact .head hRoot hSteps
  refine ⟨?_, ?_, ?_, ?_, ?_, ?_, ?_, ?_, ?_⟩
  · simp only [h.done_eq, List.cons_append]
  · intro x
    simp only [hEntered, List.mem_cons]
    tauto
  · refine List.nodup_cons.mpr ⟨fun hx => ?_, h.fresh_nodup⟩
    exact h.fresh_not node hx List.mem_cons_self
  · intro x hx
    rcases List.mem_cons.mp hx with rfl | hx
    · exact hNode
    · exact fun hBefore => h.fresh_not x hx (List.mem_cons_of_mem _ hBefore)
  · intro x hx
    obtain rfl := List.mem_singleton.mp hx
    exact (hEntered x).mpr (Or.inr (Or.inl rfl))
  · intro x hx y hy
    rcases List.mem_cons.mp hx with rfl | hx
    · exact h.roots_entered y hy
    · exact h.closed x hx y hy
  · intro x hx
    rcases List.mem_cons.mp hx with rfl | hx
    · exact Or.inl List.mem_cons_self
    · rcases h.ordered x hx with hRoot | ⟨u, hStep, hSub⟩
      · refine Or.inr ⟨node, hRoot, ?_⟩
        exact List.cons_sublist_cons.mpr (List.singleton_sublist.mpr hx)
      · exact Or.inr ⟨u, hStep, hSub.cons _⟩
  · intro x hx
    refine ⟨node, List.mem_cons_self, ?_⟩
    rcases List.mem_cons.mp hx with rfl | hx
    · exact .refl
    · exact hReached x hx
  · intro x hx y hy
    rcases List.mem_cons.mp hx with rfl | hInner
    · rcases (hEntered y).mp (h.roots_entered y hy) with hFresh | rfl | hBefore
      · exact Or.inr (Or.inl (List.cons_sublist_cons.mpr (List.singleton_sublist.mpr hFresh)))
      · exact Or.inr (Or.inr .refl)
      · exact Or.inl hBefore
    · -- what was entered already is the node itself, which leads to all fresh nodes, or older
      rcases h.finishes x hInner y hy with hOld | hSub | hBack
      · rcases List.mem_cons.mp hOld with rfl | hBefore
        · exact Or.inr (Or.inr (hReached x hInner))
        · exact Or.inl hBefore
      · exact Or.inr (Or.inl (hSub.cons _))
      · exact Or.inr (Or.inr hBack)

/-- The depth that is left is enough for the nodes that are not entered yet. -/
structure Room (bound fuel : Nat) (state : Finished) : Prop where
  nodup : state.entered.Nodup
  lt : ∀ x ∈ state.entered, x < bound
  enough : bound ≤ fuel + state.entered.length

/-- Without depth left every node is entered. -/
theorem Room.entered_of_zero {bound x : Nat} {state : Finished} (h : Room bound 0 state)
    (hx : x < bound) : x ∈ state.entered := by
  by_contra hNot
  have hLength : (x :: state.entered).length ≤ bound :=
    length_le_of_nodup (List.nodup_cons.mpr ⟨hNot, h.nodup⟩) (by simpa using ⟨hx, h.lt⟩)
  have hEnough := h.enough
  simp only [List.length_cons] at hLength
  omega

theorem Room.enter {bound fuel node : Nat} {state : Finished} (h : Room bound (fuel + 1) state)
    (hLt : node < bound) (hNode : node ∉ state.entered) :
    Room bound fuel { state with entered := node :: state.entered } := by
  refine ⟨List.nodup_cons.mpr ⟨hNode, h.nodup⟩, ?_, ?_⟩
  · simpa using ⟨hLt, h.lt⟩
  · have hEnough := h.enough
    simp only [List.length_cons]
    omega

/-- The search of a list of nodes is the search of one after the other. -/
theorem foldl_finish_spec {bound fuel : Nat}
    (hFinish : ∀ state node, node < bound → Room bound fuel state →
      ∃ fresh, Grown next [node] fresh state (finish next fuel state node) ∧
        Room bound fuel (finish next fuel state node) ∧
        state.entered.length ≤ (finish next fuel state node).entered.length)
    (nodes : List Nat) (state : Finished) (hNodes : ∀ x ∈ nodes, x < bound)
    (hRoom : Room bound fuel state) :
    ∃ fresh, Grown next nodes fresh state (nodes.foldl (finish next fuel) state) ∧
      Room bound fuel (nodes.foldl (finish next fuel) state) ∧
      state.entered.length ≤ (nodes.foldl (finish next fuel) state).entered.length := by
  induction nodes generalizing state with
  | nil => exact ⟨[], Grown.refl (by simp), hRoom, le_refl _⟩
  | cons node nodes ih =>
    obtain ⟨fresh₁, hGrown₁, hRoom₁, hLength₁⟩ :=
      hFinish state node (hNodes node List.mem_cons_self) hRoom
    obtain ⟨fresh₂, hGrown₂, hRoom₂, hLength₂⟩ := ih (finish next fuel state node)
      (fun x hx => hNodes x (List.mem_cons_of_mem _ hx)) hRoom₁
    rw [List.foldl_cons]
    exact ⟨fresh₂ ++ fresh₁, hGrown₁.trans hGrown₂, hRoom₂, hLength₁.trans hLength₂⟩

/-- The search of a node enters and finishes what it leads to and was not entered before. -/
theorem finish_spec {bound : Nat} (hNext : ∀ x, ∀ y ∈ next x, y < bound) (fuel : Nat)
    (state : Finished) (node : Nat) (hNode : node < bound) (hRoom : Room bound fuel state) :
    ∃ fresh, Grown next [node] fresh state (finish next fuel state node) ∧
      Room bound fuel (finish next fuel state node) ∧
      state.entered.length ≤ (finish next fuel state node).entered.length := by
  induction fuel generalizing state node with
  | zero =>
    refine ⟨[], Grown.refl ?_, hRoom, le_refl _⟩
    intro x hx
    obtain rfl := List.mem_singleton.mp hx
    exact hRoom.entered_of_zero hNode
  | succ fuel ih =>
    rw [finish]
    split
    · rename_i hEntered
      rw [List.contains_iff_mem] at hEntered
      refine ⟨[], Grown.refl ?_, hRoom, le_refl _⟩
      intro x hx
      obtain rfl := List.mem_singleton.mp hx
      exact hEntered
    · rename_i hEntered
      rw [List.contains_iff_mem] at hEntered
      obtain ⟨fresh, hGrown, hInner, hLength⟩ := foldl_finish_spec ih (next node)
        { state with entered := node :: state.entered } (hNext node) (hRoom.enter hNode hEntered)
      refine ⟨node :: fresh, hGrown.finish hEntered, ?_, ?_⟩
      · refine ⟨hInner.nodup, hInner.lt, ?_⟩
        have hEnough := hInner.enough
        simp only at hEnough ⊢
        omega
      · simp only [List.length_cons] at hLength ⊢
        omega

end Traversal

namespace Digraph

variable {α : Type} {g : Digraph α}

theorem successors_lt (g : Digraph α) (x : Nat) : ∀ y ∈ g.successors x, y < g.size :=
  fun _ hy => (mem_successors.mp hy).target_lt

theorem reflTransGen_successors {s t : Nat} :
    Relation.ReflTransGen (fun u v => v ∈ g.successors u) s t ↔
      Relation.ReflTransGen g.Adj s t := by
  simp only [mem_successors]

/-- A search along the edges lists the nodes that its start reaches. -/
theorem mem_searched_iff {start x : Nat} {listed : List Nat}
    (h : Traversal.Searches g.successors g.size [start] [start] listed) :
    x ∈ (if start < g.size then listed else []) ↔ g.Reaches start x := by
  rw [Reaches.iff_reflTransGen]
  split
  · rename_i hStart
    rw [h.mem_iff_of_root g.successors_lt hStart, reflTransGen_successors]
    exact ⟨fun hSteps => ⟨hStart, hSteps⟩, And.right⟩
  · rename_i hStart
    simp [hStart]

theorem mem_breadthFirst_iff {start x : Nat} :
    x ∈ g.breadthFirst start ↔ g.Reaches start x :=
  mem_searched_iff (Traversal.searches_breadthFirst _ _ _)

theorem mem_depthFirst_iff {start x : Nat} :
    x ∈ g.depthFirst start ↔ g.Reaches start x :=
  mem_searched_iff (Traversal.searches_depthFirst _ _ _)

theorem hasPath_iff {source target : Nat} :
    g.hasPath source target = true ↔ g.Reaches source target := by
  rw [hasPath, List.contains_iff_mem, mem_depthFirst_iff]

/-- Searching from several starts in turn lists what any of them reaches. -/
theorem mem_reachableFrom_iff {starts : List Nat} {x : Nat} :
    x ∈ g.reachableFrom starts ↔ ∃ s ∈ starts, g.Reaches s x := by
  -- what is listed already is closed under reachability, so a listed start adds nothing
  have hFold : ∀ seen : List Nat, (∀ u ∈ seen, ∀ v, g.Reaches u v → v ∈ seen) →
      ∀ x, x ∈ starts.foldl (fun seen start =>
        if seen.contains start then seen else seen ++ g.breadthFirst start) seen ↔
        x ∈ seen ∨ ∃ s ∈ starts, g.Reaches s x := by
    induction starts with
    | nil => simp
    | cons start starts ih =>
      intro seen hClosed x
      rw [List.foldl_cons]
      split
      · rename_i hSeen
        rw [List.contains_iff_mem] at hSeen
        rw [ih seen hClosed, List.exists_mem_cons_iff]
        constructor
        · rintro (hx | hx)
          · exact Or.inl hx
          · exact Or.inr (Or.inr hx)
        · rintro (hx | hx | hx)
          · exact Or.inl hx
          · exact Or.inl (hClosed start hSeen x hx)
          · exact Or.inr hx
      · have hAppend : ∀ u ∈ seen ++ g.breadthFirst start, ∀ v, g.Reaches u v →
            v ∈ seen ++ g.breadthFirst start := by
          intro u hu v hv
          rcases List.mem_append.mp hu with hu | hu
          · exact List.mem_append_left _ (hClosed u hu v hv)
          · exact List.mem_append_right _
              (mem_breadthFirst_iff.mpr ((mem_breadthFirst_iff.mp hu).trans hv))
        rw [ih _ hAppend, List.exists_mem_cons_iff, List.mem_append, mem_breadthFirst_iff,
          or_assoc]
  rw [reachableFrom, hFold [] (by simp) x]
  simp

theorem reachable_iff {starts : List Nat} {x : Nat} :
    (g.reachable starts)[x]?.getD false = true ↔ ∃ s ∈ starts, g.Reaches s x := by
  rw [← mem_reachableFrom_iff]
  unfold reachable
  by_cases hx : x < g.size
  · simp [hx]
  · simp only [Array.getElem?_ofFn, hx, dite_false, Option.getD_none, Bool.false_eq_true, false_iff]
    intro hMem
    obtain ⟨s, -, nodes, hPath⟩ := mem_reachableFrom_iff.mp hMem
    exact hx hPath.target_lt

/-- The finishing order is what the search from its start adds to nothing. -/
theorem grown_reversePostorder {start : Nat} (hStart : start < g.size) :
    Traversal.Grown g.successors [start] (g.reversePostorder start) ⟨[], []⟩
      (Traversal.finish g.successors g.size ⟨[], []⟩ start) := by
  obtain ⟨fresh, hGrown, -, -⟩ := Traversal.finish_spec g.successors_lt g.size ⟨[], []⟩ start
    hStart ⟨by simp, by simp, by simp⟩
  have hList : g.reversePostorder start = fresh := by
    unfold reversePostorder
    rw [if_pos hStart, hGrown.done_eq, List.append_nil]
  rw [hList]
  exact hGrown

/-- The finishing order from a node of the graph lists each node that it reaches once. Every listed
node but the start stands behind a predecessor. -/
theorem reversePostorder_spec {start : Nat} (hStart : start < g.size) :
    (g.reversePostorder start).Nodup ∧
      (∀ x, x ∈ g.reversePostorder start ↔ g.Reaches start x) ∧
      ∀ x ∈ g.reversePostorder start, x = start ∨
        ∃ u, g.Adj u x ∧ [u, x].Sublist (g.reversePostorder start) := by
  have hGrown := grown_reversePostorder hStart
  have hEntered : ∀ x, x ∈ (Traversal.finish g.successors g.size ⟨[], []⟩ start).entered ↔
      x ∈ g.reversePostorder start := by
    intro x
    rw [hGrown.entered_iff]
    simp
  refine ⟨hGrown.fresh_nodup, fun x => ⟨fun hx => ?_, fun hReach => ?_⟩, fun x hx => ?_⟩
  · obtain ⟨root, hRoot, hSteps⟩ := hGrown.reached x hx
    obtain rfl := List.mem_singleton.mp hRoot
    exact Reaches.iff_reflTransGen.mpr ⟨hStart, reflTransGen_successors.mp hSteps⟩
  · have hSteps := (Reaches.iff_reflTransGen.mp hReach).2
    induction hSteps with
    | refl => exact (hEntered start).mp (hGrown.roots_entered start List.mem_cons_self)
    | @tail y z hPrefix hAdj ih =>
      have hy := ih (Reaches.iff_reflTransGen.mpr ⟨hStart, hPrefix⟩)
      exact (hEntered z).mp (hGrown.closed y hy z (mem_successors.mpr hAdj))
  · rcases hGrown.ordered x hx with hRoot | ⟨u, hStep, hSub⟩
    · exact Or.inl (List.mem_singleton.mp hRoot)
    · exact Or.inr ⟨u, mem_successors.mp hStep, hSub⟩

end Digraph

end BytecodeFlow
