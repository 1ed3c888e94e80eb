import BytecodeFlow.Proofs.SearchTree

/-!
# The forest of the dominator search

The nodes with numbers above a bound are linked into a forest, along the search tree. Each of them
knows a node above it, and which node up to there has the least semidominator (`Covers`). Path
compression goes further up and keeps this (`Forest.shorten`), so that `evaluate` finds the node
with the least semidominator up to the first node that is not linked (`Forest.evaluate`). The loop
that goes up the forest ends since numbers get smaller on the way (`Forest.loops_passedFrom`).
-/

namespace BytecodeFlow.DominatorSearch

variable {α : Type} {g : Digraph α} {root : Nat} {tree : SearchTree} {search : DominatorSearch}
  {bound node above best x : Nat}

/-- The nodes from `node` up to `above`, which is left out, are linked, and of these `best` has the
semidominator with the least number. -/
structure Covers (tree : SearchTree) (bound : Nat) (search : DominatorSearch)
    (node above best : Nat) : Prop where
  up : IsAncestor tree.parent? node above
  lt : tree.number above < tree.number node
  linked : ∀ {x}, IsAncestor tree.parent? node x → tree.number above < tree.number x →
    bound < tree.number x
  between : IsAncestor tree.parent? node best
  below : tree.number above < tree.number best
  least : ∀ {x}, IsAncestor tree.parent? node x → tree.number above < tree.number x →
    tree.number (search.semiOf best) ≤ tree.number (search.semiOf x)

/-- The nodes with numbers above a bound are linked, and the others are not. -/
structure Forest (g : Digraph α) (tree : SearchTree) (bound : Nat) (search : DominatorSearch) :
    Prop where
  above_size : search.above.size = g.size
  best_size : search.best.size = g.size
  free : ∀ {x}, tree.number x ≤ bound → search.above? x = none ∧ search.bestOf x = x
  linked : ∀ {x}, bound < tree.number x → ∃ above, search.above? x = some above ∧
    Covers tree bound search x above (search.bestOf x)

/-- Two states of the search that differ in the forest only. -/
structure SameOutside (search other : DominatorSearch) : Prop where
  semi : other.semi = search.semi
  immediate : other.immediate = search.immediate
  buckets : other.buckets = search.buckets

namespace SameOutside

theorem refl (search : DominatorSearch) : SameOutside search search :=
  ⟨rfl, rfl, rfl⟩

theorem trans {first second third : DominatorSearch} (h : SameOutside first second)
    (h' : SameOutside second third) : SameOutside first third :=
  ⟨h'.semi.trans h.semi, h'.immediate.trans h.immediate, h'.buckets.trans h.buckets⟩

theorem semiOf_eq {other : DominatorSearch} (h : SameOutside search other) (x : Nat) :
    other.semiOf x = search.semiOf x := by
  rw [semiOf, semiOf, h.semi]

end SameOutside

namespace Covers

theorem best_linked (h : Covers tree bound search node above best) : bound < tree.number best :=
  h.linked h.between h.below

/-- Only the semidominators of linked nodes count. -/
theorem congr {other : DominatorSearch} (h : Covers tree bound search node above best)
    (hSemi : ∀ x, bound < tree.number x → other.semiOf x = search.semiOf x) :
    Covers tree bound other node above best :=
  ⟨h.up, h.lt, h.linked, h.between, h.below, fun hx hLt => by
    rw [hSemi _ h.best_linked, hSemi _ (h.linked hx hLt)]
    exact h.least hx hLt⟩

/-- Two stretches of the way up make one, with the better of their nodes. -/
theorem trans (hTree : GrowingTree g root tree.number tree.parent?) {higher other : Nat}
    (h : Covers tree bound search node above best)
    (hUp : Covers tree bound search above higher other) (hNode : 0 < tree.number node) :
    Covers tree bound search node higher
      (if tree.number (search.semiOf other) < tree.number (search.semiOf best) then other
        else best) := by
  have hSplit : ∀ {x}, IsAncestor tree.parent? node x → tree.number higher < tree.number x →
      tree.number above < tree.number x ∨ IsAncestor tree.parent? above x := by
    intro x hx hLt
    by_cases hAbove : tree.number above < tree.number x
    · exact Or.inl hAbove
    · exact Or.inr (hTree.ancestor_of_le hx h.up hNode (not_lt.mp hAbove))
  refine ⟨h.up.trans hUp.up, lt_trans hUp.lt h.lt, fun hx hLt => ?_, ?_, ?_, fun {x} hx hLt => ?_⟩
  · rcases hSplit hx hLt with hAbove | hAbove
    · exact h.linked hx hAbove
    · exact hUp.linked hAbove hLt
  · split
    · exact h.up.trans hUp.between
    · exact h.between
  · split
    · exact hUp.below
    · exact lt_trans hUp.lt h.below
  · have hEither : tree.number (search.semiOf best) ≤ tree.number (search.semiOf x) ∨
        tree.number (search.semiOf other) ≤ tree.number (search.semiOf x) :=
      (hSplit hx hLt).imp (h.least hx) fun hAbove => hUp.least hAbove hLt
    split <;> omega

end Covers

/-! ## Cutting out the node above -/

section Shorten

variable (tree) (hAbove : search.above? node = some above)

include hAbove

theorem shorten_eq : search.shorten tree node =
    { search with
      best := search.best.setIfInBounds node
        (if tree.number (search.semiOf (search.bestOf above)) <
            tree.number (search.semiOf (search.bestOf node)) then search.bestOf above
          else search.bestOf node)
      above := search.above.setIfInBounds node (search.above? above) } := by
  rw [shorten, hAbove]

theorem above?_shorten (hNode : node < search.above.size) (x : Nat) :
    (search.shorten tree node).above? x =
      if x = node then search.above? above else search.above? x := by
  rw [shorten_eq tree hAbove]
  exact Traversal.getD_setIfInBounds hNode _ _ x

theorem bestOf_shorten (hNode : node < search.best.size) (x : Nat) :
    (search.shorten tree node).bestOf x =
      if x = node then
        if tree.number (search.semiOf (search.bestOf above)) <
            tree.number (search.semiOf (search.bestOf node)) then search.bestOf above
        else search.bestOf node
      else search.bestOf x := by
  rw [shorten_eq tree hAbove]
  exact Traversal.getD_setIfInBounds hNode _ _ x

theorem sameOutside_shorten : SameOutside search (search.shorten tree node) := by
  rw [shorten_eq tree hAbove]
  exact ⟨rfl, rfl, rfl⟩

end Shorten

namespace Forest

/-- Only linked nodes have a node above them. -/
theorem lt_of_above (h : Forest g tree bound search) (hAbove : search.above? node = some above) :
    bound < tree.number node := by
  by_contra hLe
  rw [(h.free (not_lt.mp hLe)).1] at hAbove
  cases hAbove

theorem le_of_root (h : Forest g tree bound search) (hNone : search.above? node = none) :
    tree.number node ≤ bound := by
  by_contra hLt
  obtain ⟨above, hAbove, -⟩ := h.linked (not_le.mp hLt)
  rw [hNone] at hAbove
  cases hAbove

theorem covers (h : Forest g tree bound search) (hAbove : search.above? node = some above) :
    Covers tree bound search node above (search.bestOf node) := by
  obtain ⟨other, hOther, hCovers⟩ := h.linked (h.lt_of_above hAbove)
  rw [hAbove] at hOther
  cases hOther
  exact hCovers

/-- A node moves up to what is above the node above it, and the forest stays one. -/
theorem shorten (h : Forest g tree bound search)
    (hTree : GrowingTree g root tree.number tree.parent?)
    {higher : Nat} (hAbove : search.above? node = some above)
    (hHigher : search.above? above = some higher) :
    Forest g tree bound (search.shorten tree node) := by
  have hNode := h.lt_of_above hAbove
  have hSize : node < g.size := hTree.lt_size (Nat.zero_lt_of_lt hNode)
  have hSame : SameOutside search (search.shorten tree node) := sameOutside_shorten tree hAbove
  have hUp := above?_shorten tree hAbove (h.above_size ▸ hSize)
  have hBest := bestOf_shorten tree hAbove (h.best_size ▸ hSize)
  refine ⟨?_, ?_, fun {x} hx => ?_, fun {x} hx => ?_⟩
  · rw [shorten_eq tree hAbove, Array.size_setIfInBounds]
    exact h.above_size
  · rw [shorten_eq tree hAbove, Array.size_setIfInBounds]
    exact h.best_size
  · have hNe : x ≠ node := by
      rintro rfl
      omega
    rw [hUp, hBest, if_neg hNe, if_neg hNe]
    exact h.free hx
  · rw [hUp, hBest]
    by_cases hEq : x = node
    · subst hEq
      rw [if_pos rfl, if_pos rfl]
      refine ⟨higher, hHigher, Covers.congr ?_ fun z _ => hSame.semiOf_eq z⟩
      exact (h.covers hAbove).trans hTree (h.covers hHigher) (Nat.zero_lt_of_lt hNode)
    · rw [if_neg hEq, if_neg hEq]
      obtain ⟨other, hOther, hCovers⟩ := h.linked hx
      exact ⟨other, hOther, hCovers.congr fun z _ => hSame.semiOf_eq z⟩

/-- The semidominators of nodes that are not linked may change. -/
theorem congr {other : DominatorSearch} (h : Forest g tree bound search)
    (hAbove : other.above = search.above) (hBest : other.best = search.best)
    (hSemi : ∀ x, bound < tree.number x → other.semiOf x = search.semiOf x) :
    Forest g tree bound other := by
  have hUp : ∀ x, other.above? x = search.above? x := fun x => by rw [above?, above?, hAbove]
  have hBestOf : ∀ x, other.bestOf x = search.bestOf x := fun x => by rw [bestOf, bestOf, hBest]
  refine ⟨hAbove ▸ h.above_size, hBest ▸ h.best_size, fun hx => ?_, fun hx => ?_⟩
  · rw [hUp, hBestOf]
    exact h.free hx
  · obtain ⟨above, hSome, hCovers⟩ := h.linked hx
    rw [hUp, hBestOf]
    exact ⟨above, hSome, hCovers.congr hSemi⟩

/-- The node with the largest number that is not linked is put below its parent. -/
theorem link (h : Forest g tree (bound + 1) search)
    (hTree : GrowingTree g root tree.number tree.parent?) (hNode : tree.number node = bound + 1)
    {parent : Nat} (hParent : tree.parent? node = some parent) :
    Forest g tree bound (search.link node parent) := by
  have hLt := (hTree.number_parent hParent).2
  have hSize : node < search.above.size := by
    rw [h.above_size]
    exact hTree.lt_size (by omega)
  have hUp : ∀ x, (search.link node parent).above? x =
      if x = node then some parent else search.above? x :=
    Traversal.getD_setIfInBounds hSize _ _
  -- nothing is linked above the node, so that it is the only one up to its parent
  have hOnly : ∀ {x}, IsAncestor tree.parent? node x → tree.number parent < tree.number x →
      x = node := by
    intro x hx hxLt
    by_contra hNe
    have := hTree.number_le (IsAncestor.of_parent hx hParent hNe)
    omega
  refine ⟨?_, h.best_size, fun {x} hx => ?_, fun {x} hx => ?_⟩
  · rw [DominatorSearch.link, Array.size_setIfInBounds]
    exact h.above_size
  · have hNe : x ≠ node := by
      rintro rfl
      omega
    rw [hUp, if_neg hNe]
    exact h.free (by omega)
  · rw [hUp]
    by_cases hEq : x = node
    · subst hEq
      have hBest : (search.link x parent).bestOf x = x := (h.free hNode.le).2
      rw [if_pos rfl, hBest]
      refine ⟨parent, rfl, .single hParent, hLt, fun hz hzLt => ?_, .refl, hLt, fun hz hzLt => ?_⟩
      · rw [hOnly hz hzLt]
        exact hx
      · rw [hOnly hz hzLt]
    · obtain ⟨above, hAbove, hCovers⟩ := h.linked (hTree.succ_lt hNode hx hEq)
      rw [if_neg hEq]
      exact ⟨above, hAbove, hCovers.up, hCovers.lt,
        fun hz hzLt => Nat.lt_of_succ_lt (hCovers.linked hz hzLt), hCovers.between,
        hCovers.below, hCovers.least⟩

end Forest

/-! ## Going up -/

/-- What a step up the forest does. -/
theorem climb_cases {up : Nat → Option Nat} {passed : List Nat} {after : Nat × List Nat}
    (h : climb up (node, passed) = some after) :
    ∃ next higher, up node = some next ∧ up next = some higher ∧
      after = (next, node :: passed) := by
  rw [climb] at h
  split at h
  · cases h
  · rename_i next hNext
    split at h
    · rename_i hSome
      obtain ⟨higher, hHigher⟩ := Option.isSome_iff_exists.mp hSome
      exact ⟨next, higher, hNext, hHigher, (Option.some.inj h).symm⟩
    · cases h

/-- Where the way up ends, the next node is a root. -/
theorem climb_eq_none {up : Nat → Option Nat} {passed : List Nat}
    (h : climb up (node, passed) = none) (hUp : up node = some above) : up above = none := by
  simp only [climb, hUp] at h
  split at h
  · cases h
  · rename_i hNone
    simpa using hNone

/-- The forest of `search` after the way up from `node` was compressed: `node` is right below a
root, and nodes with larger numbers are left alone. -/
structure Compressed (g : Digraph α) (tree : SearchTree) (bound : Nat) (search : DominatorSearch)
    (node : Nat) (result : DominatorSearch) : Prop where
  forest : Forest g tree bound result
  same : SameOutside search result
  top : ∃ top, result.above? node = some top ∧ tree.number top ≤ bound
  rest : ∀ x, tree.number node < tree.number x → result.above? x = search.above? x

namespace Forest

/-- The numbers get smaller on the way up, so that the loop comes to its end. -/
theorem loops_passedFrom (h : Forest g tree bound search) (hNumber : tree.number node ≤ g.size) :
    ∃ last, Loops (climb search.above?) (node, []) (last, search.passedFrom node) := by
  have hLoops : Loops (climb search.above?) (node, [])
      (runSteps (climb search.above?) search.above.size (node, [])) := by
    refine loops_runSteps (fun _ => True) (fun state => tree.number state.1) ?_ trivial ?_
    · rintro ⟨x, passed⟩ after - hStep
      obtain ⟨next, _, hNext, -, rfl⟩ := climb_cases hStep
      exact ⟨trivial, (h.covers hNext).lt⟩
    · exact h.above_size ▸ hNumber
  exact ⟨_, hLoops⟩

/-- One more node is shortened after the way up from the node above it. -/
theorem compressed_snoc (h : Forest g tree bound search)
    (hTree : GrowingTree g root tree.number tree.parent?) {result : DominatorSearch}
    (hAbove : search.above? node = some above) (hUp : Compressed g tree bound search above result) :
    Compressed g tree bound search node (result.shorten tree node) := by
  obtain ⟨top, hTop, hBound⟩ := hUp.top
  have hLt := (h.covers hAbove).lt
  have hKept : result.above? node = some above := (hUp.rest node hLt).trans hAbove
  have hSize : node < result.above.size := by
    rw [hUp.forest.above_size]
    exact hTree.lt_size (Nat.zero_lt_of_lt (h.lt_of_above hAbove))
  refine ⟨hUp.forest.shorten hTree hKept hTop, hUp.same.trans (sameOutside_shorten tree hKept),
    ⟨top, ?_, hBound⟩, fun x hx => ?_⟩
  · rw [above?_shorten tree hKept hSize, if_pos rfl, hTop]
  · have hNe : x ≠ node := by
      rintro rfl
      exact lt_irrefl _ hx
    rw [above?_shorten tree hKept hSize, if_neg hNe]
    exact hUp.rest x (lt_trans hLt hx)

/-- The nodes passed on the way up are shortened from the top, which compresses the way. -/
theorem compressed_foldl (h : Forest g tree bound search)
    (hTree : GrowingTree g root tree.number tree.parent?) {first final : Nat × List Nat}
    (hLoops : Loops (climb search.above?) first final) (hNode : bound < tree.number first.1) :
    ∃ new, final.2 = new ++ first.2 ∧
      Compressed g tree bound search first.1 (new.foldl (DominatorSearch.shorten tree) search) := by
  induction hLoops with
  | @stop state hStop =>
    obtain ⟨above, hAbove, -⟩ := h.linked hNode
    exact ⟨[], rfl, h, .refl search,
      ⟨above, hAbove, h.le_of_root (climb_eq_none hStop hAbove)⟩, fun _ _ => rfl⟩
  | @next state after final hStep _ ih =>
    obtain ⟨above, _, hAbove, hHigher, rfl⟩ := climb_cases hStep
    obtain ⟨new, hNew, hUp⟩ := ih (h.lt_of_above hHigher)
    refine ⟨new ++ [state.1], ?_, ?_⟩
    · rw [hNew, List.append_assoc, List.singleton_append]
    · rw [List.foldl_append]
      exact h.compressed_snoc hTree hAbove hUp

theorem compress (h : Forest g tree bound search)
    (hTree : GrowingTree g root tree.number tree.parent?) (hNode : bound < tree.number node)
    (hNumber : tree.number node ≤ g.size) :
    Compressed g tree bound search node (search.compress tree node) := by
  obtain ⟨last, hLoops⟩ := h.loops_passedFrom hNumber
  obtain ⟨new, hNew, hCompressed⟩ := h.compressed_foldl hTree hLoops hNode
  have hPassed : search.passedFrom node = new := hNew.trans (List.append_nil new)
  rw [DominatorSearch.compress, hPassed]
  exact hCompressed

/-- What `evaluate` gives: a node that is not linked stands for itself; for a linked one, the node
with the least semidominator up to the first node that is not linked. -/
theorem evaluate (h : Forest g tree bound search)
    (hTree : GrowingTree g root tree.number tree.parent?) (hNumber : tree.number node ≤ g.size) :
    Forest g tree bound (search.evaluate tree node).2 ∧
      SameOutside search (search.evaluate tree node).2 ∧
      (tree.number node ≤ bound → (search.evaluate tree node).1 = node) ∧
      (bound < tree.number node → ∃ top, tree.number top ≤ bound ∧
        Covers tree bound search node top (search.evaluate tree node).1) := by
  rw [DominatorSearch.evaluate]
  by_cases hNode : bound < tree.number node
  · obtain ⟨above, hAbove, -⟩ := h.linked hNode
    have hCompressed := h.compress hTree hNode hNumber
    obtain ⟨top, hTop, hBound⟩ := hCompressed.top
    rw [if_neg (by rw [hAbove]; simp)]
    refine ⟨hCompressed.forest, hCompressed.same, fun hLe => absurd hNode (not_lt.mpr hLe),
      fun _ => ⟨top, hBound, ?_⟩⟩
    exact (hCompressed.forest.covers hTop).congr fun x _ => (hCompressed.same.semiOf_eq x).symm
  · rw [if_pos (by rw [(h.free (not_lt.mp hNode)).1]; rfl)]
    exact ⟨h, .refl search, fun _ => rfl, fun hLt => absurd hLt hNode⟩

end Forest

end BytecodeFlow.DominatorSearch
