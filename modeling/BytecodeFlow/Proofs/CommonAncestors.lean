import BytecodeFlow.Digraph.SearchStack
import BytecodeFlow.PostDominators
import BytecodeFlow.Proofs.AncestorChains

/-!
# The lowest common ancestor

Two walks go up along the parents, step by step and side by side, until one of them comes to a node
that the other has been at. A walk at the end of its chain waits for the other one.

After some number of steps, each walk is at the ancestor of its start that lies that many parents
above it (`Gone`), and no two nodes that the walks have left are the same: of two places on the
chains, the farther one was reached when the nearer one was known already. So the first meeting is
below every other common ancestor (`Gone.isLowest`), and if the walks wait at the ends of their
chains without having met, the chains have no node in common (`Gone.disjoint`). Neither needs any
assumption about the parents.

If all chains end, so does the loop, and it finds what `commonAncestor?` finds on the chains
(`Ranked.exists_loops`). So the chains of two nodes join at what `commonAncestor?` finds, and below
it they have no node in common (`Ranked.commonAncestor?_spec`).
-/

namespace BytecodeFlow

/-- `meeting` is a common ancestor of two nodes, and all others are above it. -/
structure IsLowestCommonAncestor (parent : Nat → Option Nat) (left right meeting : Nat) : Prop where
  left_to : IsAncestor parent left meeting
  right_to : IsAncestor parent right meeting
  below : ∀ above, IsAncestor parent left above → IsAncestor parent right above →
    IsAncestor parent meeting above

/-- The parent of a node, or the node itself at the end of a chain. -/
def parentOrSelf (parent : Nat → Option Nat) (node : Nat) : Nat :=
  (parent node).getD node

section

variable {parent : Nat → Option Nat}

theorem isAncestor_parentOrSelf (node : Nat) :
    IsAncestor parent node (parentOrSelf parent node) := by
  unfold parentOrSelf
  cases hParent : parent node with
  | none => exact .refl
  | some above => exact .single hParent

/-- The ancestors of a node are the nodes that some number of steps leads to. -/
theorem isAncestor_iff {node above : Nat} :
    IsAncestor parent node above ↔ ∃ steps, (parentOrSelf parent)^[steps] node = above := by
  constructor
  · intro h
    induction h with
    | refl => exact ⟨0, rfl⟩
    | tail _ hParent ih =>
      obtain ⟨steps, rfl⟩ := ih
      refine ⟨steps + 1, ?_⟩
      rw [Function.iterate_succ_apply', parentOrSelf, hParent, Option.getD_some]
  · intro h
    obtain ⟨steps, rfl⟩ := h
    induction steps with
    | zero => exact .refl
    | succ steps ih =>
      rw [Function.iterate_succ_apply']
      exact ih.trans (isAncestor_parentOrSelf _)

/-- Behind the end of a chain there are no further nodes. -/
theorem iterate_min {node steps : Nat}
    (hEnd : parent ((parentOrSelf parent)^[steps] node) = none) (count : Nat) :
    (parentOrSelf parent)^[min count steps] node = (parentOrSelf parent)^[count] node := by
  rcases Nat.le_total count steps with hLe | hLe
  · rw [Nat.min_eq_left hLe]
  · obtain ⟨more, rfl⟩ := Nat.exists_eq_add_of_le' hLe
    have hStays : parentOrSelf parent ((parentOrSelf parent)^[steps] node) =
        (parentOrSelf parent)^[steps] node := by
      rw [parentOrSelf, hEnd, Option.getD_none]
    rw [Nat.min_eq_right hLe, Function.iterate_add_apply, Function.iterate_fixed hStays]

end

namespace PairedWalk

variable {parent : Nat → Option Nat} {left right steps : Nat} {walk next last : PairedWalk}

theorem met?_eq (walk : PairedWalk) : walk.met? =
    if walk.right ∈ walk.left :: walk.passedLeft then some walk.right
    else if walk.left ∈ walk.right :: walk.passedRight then some walk.left
    else none := by
  simp only [met?, List.contains_iff_mem]

theorem met?_eq_some {meeting : Nat} (h : walk.met? = some meeting) :
    meeting ∈ walk.left :: walk.passedLeft ∧ meeting ∈ walk.right :: walk.passedRight := by
  rw [met?_eq] at h
  split at h
  · rename_i hRight
    cases h
    exact ⟨hRight, List.mem_cons_self⟩
  · split at h
    · rename_i hLeft
      cases h
      exact ⟨List.mem_cons_self, hLeft⟩
    · cases h

theorem met?_eq_none_iff : walk.met? = none ↔
    walk.right ∉ walk.left :: walk.passedLeft ∧ walk.left ∉ walk.right :: walk.passedRight := by
  rw [met?_eq]
  split
  · rename_i hRight
    exact iff_of_false (by simp) fun h => h.1 hRight
  · rename_i hRight
    split
    · rename_i hLeft
      exact iff_of_false (by simp) fun h => h.2 hLeft
    · rename_i hLeft
      exact iff_of_true rfl ⟨hRight, hLeft⟩

/-- A step is taken where the walks have not met and one of them can go on. -/
theorem step_eq_some (h : step parent walk = some next) : walk.met? = none ∧
    (parent walk.left ≠ none ∨ parent walk.right ≠ none) ∧
    next = ⟨parentOrSelf parent walk.left, parentOrSelf parent walk.right,
      walk.left :: walk.passedLeft, walk.right :: walk.passedRight⟩ := by
  unfold step at h
  split at h
  · cases h
  · rename_i hOn
    cases h
    rw [Bool.or_eq_true, not_or, Option.not_isSome_iff_eq_none, Bool.and_eq_true, not_and_or,
      Option.isNone_iff_eq_none, Option.isNone_iff_eq_none] at hOn
    exact ⟨hOn.1, hOn.2, rfl⟩

/-- No step is taken where the walks have met or are both at an end. -/
theorem step_eq_none (h : step parent walk = none) :
    walk.met? ≠ none ∨ parent walk.left = none ∧ parent walk.right = none := by
  unfold step at h
  split at h
  · rename_i hOff
    rwa [Bool.or_eq_true, ← Option.ne_none_iff_isSome, Bool.and_eq_true,
      Option.isNone_iff_eq_none, Option.isNone_iff_eq_none] at hOff
  · cases h

/-! ## After some steps -/

/-- The walks from two nodes have gone a number of steps, and before the last of them no node of one
walk was a node of the other. -/
structure Gone (parent : Nat → Option Nat) (left right steps : Nat) (walk : PairedWalk) : Prop where
  left_eq : walk.left = (parentOrSelf parent)^[steps] left
  right_eq : walk.right = (parentOrSelf parent)^[steps] right
  passedLeft_iff : ∀ x, x ∈ walk.passedLeft ↔ ∃ i < steps, (parentOrSelf parent)^[i] left = x
  passedRight_iff : ∀ x, x ∈ walk.passedRight ↔ ∃ i < steps, (parentOrSelf parent)^[i] right = x
  apart : ∀ i < steps, ∀ j < steps,
    (parentOrSelf parent)^[i] left ≠ (parentOrSelf parent)^[j] right

/-- The nodes that a walk has been at, with the one where it is. -/
theorem mem_cons_iff {node x : Nat} {passed : List Nat}
    (h : ∀ x, x ∈ passed ↔ ∃ i < steps, (parentOrSelf parent)^[i] node = x) :
    x ∈ (parentOrSelf parent)^[steps] node :: passed ↔
      ∃ i < steps + 1, (parentOrSelf parent)^[i] node = x := by
  rw [List.mem_cons, h]
  constructor
  · intro hx
    rcases hx with rfl | ⟨i, hi, hx⟩
    · exact ⟨steps, Nat.lt_succ_self steps, rfl⟩
    · exact ⟨i, Nat.lt_succ_of_lt hi, hx⟩
  · intro hx
    obtain ⟨i, hi, hx⟩ := hx
    rcases Nat.lt_succ_iff_lt_or_eq.mp hi with hi | rfl
    · exact Or.inr ⟨i, hi, hx⟩
    · exact Or.inl hx.symm

namespace Gone

theorem start (parent : Nat → Option Nat) (left right : Nat) :
    Gone parent left right 0 (.start left right) where
  left_eq := rfl
  right_eq := rfl
  passedLeft_iff := by simp [PairedWalk.start]
  passedRight_iff := by simp [PairedWalk.start]
  apart := by simp

theorem mem_left_iff (h : Gone parent left right steps walk) {x : Nat} :
    x ∈ walk.left :: walk.passedLeft ↔
      ∃ i < steps + 1, (parentOrSelf parent)^[i] left = x := by
  rw [h.left_eq]
  exact mem_cons_iff h.passedLeft_iff

theorem mem_right_iff (h : Gone parent left right steps walk) {x : Nat} :
    x ∈ walk.right :: walk.passedRight ↔
      ∃ j < steps + 1, (parentOrSelf parent)^[j] right = x := by
  rw [h.right_eq]
  exact mem_cons_iff h.passedRight_iff

/-- If the walks have not met, none of the nodes that one was at or is at is one of the other. -/
theorem apart_succ (h : Gone parent left right steps walk) (hMet : walk.met? = none) :
    ∀ i < steps + 1, ∀ j < steps + 1,
      (parentOrSelf parent)^[i] left ≠ (parentOrSelf parent)^[j] right := by
  obtain ⟨hRight, hLeft⟩ := met?_eq_none_iff.mp hMet
  rw [h.mem_left_iff, h.right_eq] at hRight
  rw [h.mem_right_iff, h.left_eq] at hLeft
  intro i hi j hj hSame
  rcases Nat.lt_succ_iff_lt_or_eq.mp hj with hj' | rfl
  · rcases Nat.lt_succ_iff_lt_or_eq.mp hi with hi' | rfl
    · exact h.apart i hi' j hj' hSame
    · exact hLeft ⟨j, hj, hSame.symm⟩
  · exact hRight ⟨i, hi, hSame⟩

theorem step (h : Gone parent left right steps walk) (hStep : walk.step parent = some next) :
    Gone parent left right (steps + 1) next := by
  obtain ⟨hMet, -, rfl⟩ := step_eq_some hStep
  refine ⟨?_, ?_, fun x => h.mem_left_iff, fun x => h.mem_right_iff, h.apart_succ hMet⟩
  · rw [Function.iterate_succ_apply', h.left_eq]
  · rw [Function.iterate_succ_apply', h.right_eq]

/-- Where the loop ends, the walks have gone some number of steps, and there is no other. -/
theorem loops (h : Gone parent left right steps walk)
    (hLoops : Loops (PairedWalk.step parent) walk last) :
    (∃ count, Gone parent left right count last) ∧ last.step parent = none := by
  induction hLoops generalizing steps with
  | stop hStop => exact ⟨⟨steps, h⟩, hStop⟩
  | next hStep _ ih => exact ih (h.step hStep)

/-- Where the walks meet, a common ancestor that is not above the meeting would have been met
before: both walks would have left it behind. -/
theorem isLowest (h : Gone parent left right steps walk) {meeting : Nat}
    (hMet : walk.met? = some meeting) :
    IsLowestCommonAncestor parent left right meeting := by
  obtain ⟨hLeft, hRight⟩ := met?_eq_some hMet
  obtain ⟨i, hi, hFromLeft⟩ := h.mem_left_iff.mp hLeft
  obtain ⟨j, hj, hFromRight⟩ := h.mem_right_iff.mp hRight
  refine ⟨isAncestor_iff.mpr ⟨i, hFromLeft⟩, isAncestor_iff.mpr ⟨j, hFromRight⟩, ?_⟩
  intro above hLeftAbove hRightAbove
  obtain ⟨p, hp⟩ := isAncestor_iff.mp hLeftAbove
  obtain ⟨q, hq⟩ := isAncestor_iff.mp hRightAbove
  rw [isAncestor_iff]
  rcases Nat.lt_or_ge p i with hBelow | hAbove
  · rcases Nat.lt_or_ge q j with hBelow' | hAbove'
    · exact absurd (hp.trans hq.symm) (h.apart p (by omega) q (by omega))
    · refine ⟨q - j, ?_⟩
      rw [← hFromRight, ← Function.iterate_add_apply, Nat.sub_add_cancel hAbove', hq]
  · refine ⟨p - i, ?_⟩
    rw [← hFromLeft, ← Function.iterate_add_apply, Nat.sub_add_cancel hAbove, hp]

/-- If the walks have come to the ends of the chains without meeting, the chains have no node in
common. -/
theorem disjoint (h : Gone parent left right steps walk) (hMet : walk.met? = none)
    (hStop : walk.step parent = none) {above : Nat} (hLeft : IsAncestor parent left above) :
    ¬ IsAncestor parent right above := by
  intro hRight
  have hEnds := (step_eq_none hStop).resolve_left (not_not_intro hMet)
  rw [h.left_eq, h.right_eq] at hEnds
  obtain ⟨p, rfl⟩ := isAncestor_iff.mp hLeft
  obtain ⟨q, hSame⟩ := isAncestor_iff.mp hRight
  rw [← iterate_min hEnds.1 p, ← iterate_min hEnds.2 q] at hSame
  exact h.apart_succ hMet _ (by omega) _ (by omega) hSame.symm

end Gone

/-! ## At the end -/

theorem isLowest_of_loops {meeting : Nat}
    (hLoops : Loops (step parent) (.start left right) last) (hMet : last.met? = some meeting) :
    IsLowestCommonAncestor parent left right meeting := by
  obtain ⟨⟨_, hGone⟩, -⟩ := (Gone.start parent left right).loops hLoops
  exact hGone.isLowest hMet

theorem disjoint_of_loops (hLoops : Loops (step parent) (.start left right) last)
    (hMet : last.met? = none) {above : Nat} (hLeft : IsAncestor parent left above) :
    ¬ IsAncestor parent right above := by
  obtain ⟨⟨_, hGone⟩, hStop⟩ := (Gone.start parent left right).loops hLoops
  exact hGone.disjoint hMet hStop hLeft

theorem answer_eq_ok {meeting : Nat} (h : last.met? = some meeting) :
    last.answer left right = .ok meeting := by
  rw [answer, h]

theorem answer_eq_error {error : Error} (h : last.answer left right = .error error) :
    last.met? = none ∧ error = .invariant (.noCommonAncestor left right) := by
  unfold answer at h
  split at h
  · cases h
  · rename_i hMet
    cases h
    exact ⟨hMet, rfl⟩

end PairedWalk

/-! ## Chains that end -/

/-- Where a walk at `node` goes on: at the rest of its chain, or it stays at the end of it. -/
def onward (node : Nat) (rest : List Nat) : List Nat :=
  if rest = [] then [node] else rest

/-- One step of both walks, unless one of them meets what the other has passed. -/
theorem meetInStep_cons (x y : Nat) (left right passedLeft passedRight : List Nat) :
    meetInStep (x :: left) (y :: right) passedLeft passedRight =
      if y ∈ x :: passedLeft then some y
      else if x ∈ y :: passedRight then some x
      else if left = [] ∧ right = [] then none
      else meetInStep (onward x left) (onward y right) (x :: passedLeft) (y :: passedRight) := by
  rw [meetInStep.eq_def]
  simp only [List.contains_iff_mem]
  cases left <;> cases right <;> simp [onward]

namespace Ranked

variable {parent : Nat → Option Nat} {rank : Nat → Nat} {fuel : Nat}

theorem ancestors_ne_nil (h : Ranked parent rank fuel) (node : Nat) :
    ancestors parent fuel node ≠ [] :=
  List.ne_nil_of_mem (h.self_mem_ancestors node)

/-- The chain of the next node of a walk is the rest of the chain, or the end of it again. -/
theorem ancestors_parentOrSelf (h : Ranked parent rank fuel) (node : Nat) :
    ancestors parent fuel (parentOrSelf parent node) =
      onward node (ancestors parent fuel node).tail := by
  unfold parentOrSelf onward
  cases hParent : parent node with
  | none => simp [h.ancestors_of_none hParent]
  | some above => simp [h.ancestors_of_some hParent, h.ancestors_ne_nil above]

theorem tail_ancestors_eq_nil_iff (h : Ranked parent rank fuel) {node : Nat} :
    (ancestors parent fuel node).tail = [] ↔ parent node = none := by
  cases hParent : parent node with
  | none => simp [h.ancestors_of_none hParent]
  | some above => simp [h.ancestors_of_some hParent, h.ancestors_ne_nil above]

/-- A step takes one of the walks up, and none of them down. -/
theorem rank_step_lt (h : Ranked parent rank fuel) {walk next : PairedWalk}
    (hStep : walk.step parent = some next) :
    rank next.left + rank next.right < rank walk.left + rank walk.right := by
  have hLe : ∀ node, rank (parentOrSelf parent node) ≤ rank node := fun node =>
    h.rank_le_of_mem (h.mem_ancestors_iff.mpr (isAncestor_parentOrSelf node))
  have hLt : ∀ node, parent node ≠ none → rank (parentOrSelf parent node) < rank node := by
    intro node hParent
    obtain ⟨above, hAbove⟩ := Option.ne_none_iff_exists'.mp hParent
    rw [parentOrSelf, hAbove]
    exact h.parent_lt hAbove
  obtain ⟨-, hLeft | hRight, rfl⟩ := PairedWalk.step_eq_some hStep
  · exact Nat.add_lt_add_of_lt_of_le (hLt _ hLeft) (hLe _)
  · exact Nat.add_lt_add_of_le_of_lt (hLe _) (hLt _ hRight)

/-- A step of the loop is a step along the chains. -/
theorem meetInStep_ancestors (h : Ranked parent rank fuel) (walk : PairedWalk) :
    meetInStep (ancestors parent fuel walk.left) (ancestors parent fuel walk.right)
        walk.passedLeft walk.passedRight =
      match walk.step parent with
      | none => walk.met?
      | some next => meetInStep (ancestors parent fuel next.left)
          (ancestors parent fuel next.right) next.passedLeft next.passedRight := by
  have hCons : ∀ node, ancestors parent fuel node = node :: (ancestors parent fuel node).tail := by
    intro node
    rw [h.ancestors_eq node, List.tail_cons]
  rw [hCons walk.left, hCons walk.right, meetInStep_cons, ← h.ancestors_parentOrSelf,
    ← h.ancestors_parentOrSelf]
  simp only [h.tail_ancestors_eq_nil_iff]
  cases hStep : walk.step parent with
  | some next =>
    obtain ⟨hMet, hOn, rfl⟩ := PairedWalk.step_eq_some hStep
    obtain ⟨hRight, hLeft⟩ := PairedWalk.met?_eq_none_iff.mp hMet
    rw [if_neg hRight, if_neg hLeft, if_neg (not_and_or.mpr hOn)]
  | none =>
    rw [PairedWalk.met?_eq]
    rcases PairedWalk.step_eq_none hStep with hMet | hEnds
    · rw [Ne, PairedWalk.met?_eq_none_iff, not_and_or, not_not, not_not] at hMet
      split
      · rfl
      · rename_i hRight
        rw [if_pos (hMet.resolve_left hRight), if_pos (hMet.resolve_left hRight)]
    · rw [if_pos hEnds]

/-- Where all chains end, the loop ends too, and finds what the walk along the chains finds. -/
theorem exists_loops (h : Ranked parent rank fuel) (walk : PairedWalk) :
    ∃ last, Loops (PairedWalk.step parent) walk last ∧ last.met? =
      meetInStep (ancestors parent fuel walk.left) (ancestors parent fuel walk.right)
        walk.passedLeft walk.passedRight := by
  generalize hSum : rank walk.left + rank walk.right = sum
  induction sum using Nat.strong_induction_on generalizing walk with
  | _ sum ih =>
    rw [h.meetInStep_ancestors walk]
    cases hStep : walk.step parent with
    | none => exact ⟨walk, .stop hStep, rfl⟩
    | some next =>
      obtain ⟨last, hLoops, hMet⟩ := ih _ (hSum ▸ h.rank_step_lt hStep) next rfl
      exact ⟨last, .next hStep hLoops, hMet⟩

/-- Two chains with a common node join at the first one that they share: the walk in step finds
it, behind it the chains agree, and before it they have no node in common. -/
theorem commonAncestor?_spec (h : Ranked parent rank fuel) {left right : Nat}
    (hMeet : ∃ x, x ∈ ancestors parent fuel left ∧ x ∈ ancestors parent fuel right) :
    ∃ meeting sideLeft sideRight,
      commonAncestor? (ancestors parent fuel) left right = some meeting ∧
      ancestors parent fuel left = sideLeft ++ ancestors parent fuel meeting ∧
      ancestors parent fuel right = sideRight ++ ancestors parent fuel meeting ∧
      ∀ x ∈ sideRight, x ∉ ancestors parent fuel left := by
  obtain ⟨last, hLoops, hFound⟩ := h.exists_loops (.start left right)
  cases hMet : last.met? with
  | none =>
    obtain ⟨x, hxLeft, hxRight⟩ := hMeet
    rw [h.mem_ancestors_iff] at hxLeft hxRight
    exact absurd hxRight (PairedWalk.disjoint_of_loops hLoops hMet hxLeft)
  | some meeting =>
    have hLowest := PairedWalk.isLowest_of_loops hLoops hMet
    obtain ⟨sideLeft, hLeft⟩ := h.ancestors_suffix (h.mem_ancestors_iff.mpr hLowest.left_to)
    obtain ⟨sideRight, hRight⟩ := h.ancestors_suffix (h.mem_ancestors_iff.mpr hLowest.right_to)
    refine ⟨meeting, sideLeft, sideRight, hFound.symm.trans hMet, hLeft, hRight, ?_⟩
    intro x hx hxLeft
    -- a node that both chains have is above the meeting, and a chain has it once
    have hxRight : x ∈ ancestors parent fuel right := hRight ▸ List.mem_append_left _ hx
    rw [h.mem_ancestors_iff] at hxLeft hxRight
    have hAbove := h.mem_ancestors_iff.mpr (hLowest.below x hxLeft hxRight)
    have hNodup := h.nodup_ancestors right
    rw [hRight, List.nodup_append] at hNodup
    exact hNodup.2.2 x hx x hAbove rfl

end Ranked

/-- A chain that ends does not come back to where it was. -/
theorem not_transGen_self {parent : Nat → Option Nat} {node root : Nat}
    (hChain : IsAncestor parent node root) (hRoot : parent root = none) :
    ¬ Relation.TransGen (fun a b => parent a = some b) node node := by
  induction hChain using Relation.ReflTransGen.head_induction_on with
  | refl =>
    intro hCycle
    obtain ⟨above, hAbove, -⟩ := Relation.TransGen.head'_iff.mp hCycle
    rw [hRoot] at hAbove
    cases hAbove
  | head hParent _ ih =>
    intro hCycle
    obtain ⟨above, hAbove, hBack⟩ := Relation.TransGen.head'_iff.mp hCycle
    rw [hParent] at hAbove
    cases hAbove
    exact ih (.tail' hBack hParent)

/-- If all chains of a finite table end, the nodes can be ranked by the number of their ancestors in
the table. -/
theorem exists_ranked {parent : Nat → Option Nat} {size : Nat}
    (hInside : ∀ node above, parent node = some above → node < size)
    (hEnds : ∀ node < size, ∃ root, IsAncestor parent node root ∧ parent root = none) :
    ∃ rank, Ranked parent rank (size + 1) := by
  classical
  refine ⟨fun node => ((Finset.range size).filter (IsAncestor parent node)).card, ?_, ?_⟩
  · intro node above hParent
    have hNode := hInside node above hParent
    obtain ⟨root, hChain, hRoot⟩ := hEnds node hNode
    apply Finset.card_lt_card
    refine ⟨fun x hx => ?_, fun hBack => ?_⟩
    · rw [Finset.mem_filter] at hx ⊢
      exact ⟨hx.1, .head hParent hx.2⟩
    · -- the node is an ancestor of itself, but not of its parent
      have hSelf := hBack (Finset.mem_filter.mpr ⟨Finset.mem_range.mpr hNode, .refl⟩)
      exact not_transGen_self hChain hRoot (.head' hParent (Finset.mem_filter.mp hSelf).2)
  · intro node
    have hLe := Finset.card_filter_le (Finset.range size) (IsAncestor parent node)
    rw [Finset.card_range] at hLe
    exact Nat.lt_succ_of_le hLe

/-! ## Trees -/

namespace PostDominatorTree

/-- All chains of the tree end. -/
def ChainsEnd (tree : PostDominatorTree) : Prop :=
  ∀ node < tree.parents.size, ∃ root,
    IsAncestor tree.parent? node root ∧ tree.parent? root = none

/-- All chains of the tree end at the root. -/
structure RootedAt (tree : PostDominatorTree) (root : Nat) : Prop where
  parent?_root : tree.parent? root = none
  isAncestor_root : ∀ node < tree.parents.size, IsAncestor tree.parent? node root

variable {tree : PostDominatorTree}

theorem RootedAt.chainsEnd {root : Nat} (h : tree.RootedAt root) : tree.ChainsEnd :=
  fun node hNode => ⟨root, h.isAncestor_root node hNode, h.parent?_root⟩

theorem lt_of_parent?_eq_some {node above : Nat} (h : tree.parent? node = some above) :
    node < tree.parents.size := by
  by_contra hOutside
  rw [parent?, Array.getElem?_eq_none (Nat.le_of_not_lt hOutside)] at h
  cases h

/-- The loop along the parents ends and finds what the walk along the chains finds. -/
theorem ChainsEnd.exists_loops (h : tree.ChainsEnd) (left right : Nat) :
    ∃ last, Loops (PairedWalk.step tree.parent?) (.start left right) last ∧
      last.met? = commonAncestor? tree.chain left right := by
  obtain ⟨rank, hRanked⟩ := exists_ranked (fun _ _ => lt_of_parent?_eq_some) h
  exact hRanked.exists_loops (.start left right)

/-- **The walk in step finds the lowest common ancestor.** If all chains end at one root, the loop
from any two nodes ends, with the common ancestor of them that is below all others. If the chains
end anywhere, the loop and the walk along the chains find the same. And whatever the parents are,
the loop fails only if the chains of the two nodes have no node in common. -/
theorem walk_meets_lowest (tree : PostDominatorTree) (left right : Nat) :
    (∀ root, tree.RootedAt root → left < tree.parents.size → right < tree.parents.size →
      ∃ last meeting, Loops (PairedWalk.step tree.parent?) (.start left right) last ∧
        last.answer left right = .ok meeting ∧
        commonAncestor? tree.chain left right = some meeting ∧
        IsLowestCommonAncestor tree.parent? left right meeting) ∧
    (tree.ChainsEnd → ∃ last, Loops (PairedWalk.step tree.parent?) (.start left right) last ∧
      last.met? = commonAncestor? tree.chain left right) ∧
    (∀ last error, Loops (PairedWalk.step tree.parent?) (.start left right) last →
      last.answer left right = .error error →
      error = .invariant (.noCommonAncestor left right) ∧
      ∀ above, IsAncestor tree.parent? left above → ¬ IsAncestor tree.parent? right above) := by
  refine ⟨fun root hRooted hLeft hRight => ?_, fun hEnds => hEnds.exists_loops left right,
    fun last error hLoops hError => ?_⟩
  · obtain ⟨last, hLoops, hFound⟩ := hRooted.chainsEnd.exists_loops left right
    have hLeftRoot := hRooted.isAncestor_root left hLeft
    have hRightRoot := hRooted.isAncestor_root right hRight
    cases hMet : last.met? with
    | none => exact absurd hRightRoot (PairedWalk.disjoint_of_loops hLoops hMet hLeftRoot)
    | some meeting =>
      exact ⟨last, meeting, hLoops, PairedWalk.answer_eq_ok hMet, hFound.symm.trans hMet,
        PairedWalk.isLowest_of_loops hLoops hMet⟩
  · obtain ⟨hMet, hCause⟩ := PairedWalk.answer_eq_error hError
    exact ⟨hCause, fun _ => PairedWalk.disjoint_of_loops hLoops hMet⟩

/-- A long branch and two short ones, which leave it at different heights. -/
def longBranch : PostDominatorTree where
  graph := Draft.freeze { nodes := #[], edges := #[], edge_lt := by decide }
  root := 0
  parents := #[none, some 0, some 1, some 2, some 3, some 1, some 0]

/-- Two trees side by side. -/
def twoTrees : PostDominatorTree where
  graph := Draft.freeze { nodes := #[], edges := #[], edge_lt := by decide }
  root := 0
  parents := #[none, some 0, none, some 2]

/-- The walk up the long branch comes to node 1 when the other one waits at the root. In two trees
the walks do not meet. -/
theorem walk_meets_lowest_longBranch :
    (longBranch.RootedAt 0 ∧ IsLowestCommonAncestor longBranch.parent? 4 5 1 ∧
        ∃ last, Loops (PairedWalk.step longBranch.parent?) (.start 4 5) last ∧
          last.answer 4 5 = .ok 1) ∧
      twoTrees.ChainsEnd ∧
        ∃ last, Loops (PairedWalk.step twoTrees.parent?) (.start 1 3) last ∧
          last.answer 1 3 = .error (.invariant (.noCommonAncestor 1 3)) ∧
          ¬ IsAncestor twoTrees.parent? 3 0 := by
  have hRooted : longBranch.RootedAt 0 := by
    have hUp : ∀ node < 7, (parentOrSelf longBranch.parent?)^[4] node = 0 := by decide
    exact ⟨rfl, fun node hNode => isAncestor_iff.mpr ⟨4, hUp node hNode⟩⟩
  have hEnds : twoTrees.ChainsEnd := by
    have hUp : ∀ node < 4, twoTrees.parent? (parentOrSelf twoTrees.parent? node) = none := by decide
    exact fun node hNode => ⟨_, isAncestor_parentOrSelf node, hUp node hNode⟩
  obtain ⟨last, meeting, hLoops, hAnswer, hFound, hLowest⟩ :=
    (walk_meets_lowest longBranch 4 5).1 0 hRooted (by decide) (by decide)
  have hMeeting : commonAncestor? longBranch.chain 4 5 = some 1 := by decide +kernel
  rw [hMeeting] at hFound
  cases hFound
  obtain ⟨-, hSame, hFails⟩ := walk_meets_lowest twoTrees 1 3
  obtain ⟨other, hOther, hMet⟩ := hSame hEnds
  have hNone : commonAncestor? twoTrees.chain 1 3 = none := by decide +kernel
  have hError : other.answer 1 3 = .error (.invariant (.noCommonAncestor 1 3)) := by
    rw [PairedWalk.answer, hMet, hNone]
  exact ⟨⟨hRooted, hLowest, last, hLoops, hAnswer⟩, hEnds, other, hOther, hError,
    (hFails other _ hOther hError).2 0 (.single rfl)⟩

end PostDominatorTree

end BytecodeFlow
