import BytecodeFlow.Proofs.LinkedForest
import BytecodeFlow.Proofs.Semidominators

/-!
# The dominator search finds the immediate dominators

The nodes are taken in descending order of their numbers. `Pass` says what is known once the nodes
with numbers above a bound were taken: their semidominators, and for each of them the relative
dominator, unless the node still waits in the bucket of its semidominator for the path between the
two, or is among those that are just taken out of a bucket. `Examined` says the same in the midst of
a node, whose predecessors are looked at one after the other. When all nodes were taken no bucket
holds a node any more, and the last pass turns relative dominators into immediate ones in ascending
order (`Resolved`). `exists_immediate_run` is the result.
-/

namespace BytecodeFlow.DominatorSearch

variable {α : Type} {g : Digraph α} {root : Nat} {tree : SearchTree} {search : DominatorSearch}
  {bound node x : Nat}

/-- What the passes take from the depth-first search. -/
structure Numbered (g : Digraph α) (root : Nat) (tree : SearchTree) : Prop extends
    IsSearchTree g root tree.number tree.parent? where
  number_root : tree.number root = 1
  number_le_size : ∀ x, tree.number x ≤ g.size
  order_iff : ∀ i x, tree.order[i]? = some x ↔ tree.number x = i + 1

namespace Numbered

variable {count : Nat} {nodes : List Nat}

/-- The nodes behind the first ones in the order have the next numbers. -/
theorem of_drop_eq_cons (h : Numbered g root tree)
    (hNodes : tree.order.toList.drop count = node :: nodes) :
    tree.number node = count + 1 ∧ tree.order.toList.drop (count + 1) = nodes := by
  constructor
  · rw [← h.order_iff, ← Array.getElem?_toList, ← List.head?_drop, hNodes, List.head?_cons]
  · rw [← List.tail_drop, hNodes, List.tail_cons]

theorem number_le_of_drop_eq_nil (h : Numbered g root tree)
    (hNodes : tree.order.toList.drop count = []) (x : Nat) : tree.number x ≤ count := by
  rcases Nat.eq_zero_or_pos (tree.number x) with hZero | hPos
  · omega
  · have hGet := (h.order_iff (tree.number x - 1) x).mpr (by omega)
    have hLt := (Array.getElem?_eq_some_iff.mp hGet).1
    have hLength := List.drop_eq_nil_iff.mp hNodes
    rw [Array.length_toList] at hLength
    omega

theorem one_lt_iff (h : Numbered g root tree) :
    1 < tree.number x ↔ 0 < tree.number x ∧ x ≠ root := by
  constructor
  · intro hLt
    exact ⟨by omega, h.ne_root h.root_visited (h.number_root ▸ hLt)⟩
  · rintro ⟨hPos, hNe⟩
    refine lt_of_le_of_ne hPos fun hOne => hNe ?_
    exact h.injective hPos (hOne.symm.trans h.number_root.symm)

end Numbered

/-- What is known of the semidominators once the nodes with numbers above a bound were taken. -/
structure Semis (g : Digraph α) (tree : SearchTree) (bound : Nat) (search : DominatorSearch) :
    Prop where
  size : search.semi.size = g.size
  taken : ∀ {x}, bound < tree.number x → IsSemidominator g tree.number x (search.semiOf x)
  free : ∀ {x}, tree.number x ≤ bound → search.semiOf x = x

/-! ## The semidominator of a node -/

/-- Some of the predecessors of the node with the number `bound` were looked at: `semiOf node` is
the best start of a high path that they have shown. -/
structure Examined (g : Digraph α) (tree : SearchTree) (bound node : Nat) (first : DominatorSearch)
    (done : List Nat) (search : DominatorSearch) : Prop where
  immediate : search.immediate = first.immediate
  buckets : search.buckets = first.buckets
  forest : Forest g tree bound search
  size : search.semi.size = g.size
  taken : ∀ {x}, bound < tree.number x → IsSemidominator g tree.number x (search.semiOf x)
  free : ∀ {x}, tree.number x ≤ bound → x ≠ node → search.semiOf x = x
  high : search.semiOf node = node ∨
    0 < tree.number (search.semiOf node) ∧ HighPath g tree.number node (search.semiOf node)
  le_node : tree.number (search.semiOf node) ≤ tree.number node
  low : ∀ p ∈ done, 0 < tree.number p → tree.number p ≤ tree.number node →
    tree.number (search.semiOf node) ≤ tree.number p
  upper : ∀ p ∈ done, tree.number node < tree.number p → ∀ x s, IsAncestor tree.parent? p x →
    tree.number node < tree.number x → IsSemidominator g tree.number x s →
    tree.number (search.semiOf node) ≤ tree.number s

namespace Examined

variable {first : DominatorSearch} {done : List Nat} {predecessor : Nat}

/-- The best start of a high path that a predecessor shows. -/
theorem candidate (h : Examined g tree bound node first done search) (hTree : Numbered g root tree)
    (hNode : tree.number node = bound) (hAdj : g.Adj predecessor node)
    (hVisited : 0 < tree.number predecessor) (hNe : predecessor ≠ node) :
    let semi := search.semiOf (search.evaluate tree predecessor).1
    0 < tree.number semi ∧ HighPath g tree.number node semi ∧
      (tree.number predecessor ≤ tree.number node → tree.number semi ≤ tree.number predecessor) ∧
      (tree.number node < tree.number predecessor → ∀ x s,
        IsAncestor tree.parent? predecessor x → tree.number node < tree.number x →
        IsSemidominator g tree.number x s → tree.number semi ≤ tree.number s) := by
  obtain ⟨-, -, hFree, hLinked⟩ :=
    h.forest.evaluate hTree.toGrowingTree (hTree.number_le_size predecessor)
  by_cases hLt : bound < tree.number predecessor
  · obtain ⟨top, hTop, hCovers⟩ := hLinked hLt
    have hBest := h.taken hCovers.best_linked
    refine ⟨hBest.visited, ?_, fun hLe => by omega, fun _ x s hx hxLt hs => ?_⟩
    · exact hTree.high_of_predecessor hAdj hVisited hCovers.between
        (hNode ▸ hCovers.best_linked) hBest
    · have hxTaken := h.taken (hNode ▸ hxLt)
      rw [hxTaken.unique hTree.toGrowingTree hs]
      exact hCovers.least hx (by omega)
  · have hSelf : search.semiOf (search.evaluate tree predecessor).1 = predecessor := by
      rw [hFree (not_lt.mp hLt)]
      exact h.free (not_lt.mp hLt) hNe
    simp only [hSelf]
    exact ⟨hVisited, .edge hAdj, fun _ => le_refl _, fun hUpper => by omega⟩

/-- Compressing the forest changes nothing else. -/
theorem congr (h : Examined g tree bound node first done search) {other : DominatorSearch}
    (hForest : Forest g tree bound other) (hSame : SameOutside search other) :
    Examined g tree bound node first done other := by
  have hSemi := hSame.semiOf_eq
  refine ⟨hSame.immediate.trans h.immediate, hSame.buckets.trans h.buckets, hForest,
    hSame.semi ▸ h.size, ?_, ?_, ?_, ?_, ?_, ?_⟩
  all_goals simp only [hSemi]
  · exact h.taken
  · exact h.free
  · exact h.high
  · exact h.le_node
  · exact h.low
  · exact h.upper

/-- A smaller start of a high path takes the place of the one that was known. -/
theorem lower (h : Examined g tree bound node first done search) (hNode : tree.number node = bound)
    (hSize : node < g.size) {semi : Nat} (hPos : 0 < tree.number semi)
    (hHigh : HighPath g tree.number node semi) :
    Examined g tree bound node first done (search.lower tree node semi) ∧
      tree.number ((search.lower tree node semi).semiOf node) ≤ tree.number semi := by
  rw [DominatorSearch.lower]
  by_cases hLt : tree.number semi < tree.number (search.semiOf node)
  · rw [if_pos hLt]
    have hSemi : ∀ x, ({ search with semi := search.semi.setIfInBounds node semi } :
        DominatorSearch).semiOf x = if x = node then semi else search.semiOf x := fun x =>
      Traversal.getD_setIfInBounds (h.size ▸ hSize) _ _ x
    have hOther : ∀ x, bound < tree.number x → ({ search with
        semi := search.semi.setIfInBounds node semi } : DominatorSearch).semiOf x =
          search.semiOf x := by
      intro x hx
      rw [hSemi, if_neg]
      rintro rfl
      omega
    refine ⟨⟨h.immediate, h.buckets, h.forest.congr rfl rfl hOther, ?_, fun hx => ?_,
      fun hx hNe => ?_, ?_, ?_, ?_, ?_⟩, ?_⟩
    · rw [Array.size_setIfInBounds]
      exact h.size
    · rw [hOther _ hx]
      exact h.taken hx
    · rw [hSemi, if_neg hNe]
      exact h.free hx hNe
    all_goals rw [hSemi, if_pos rfl]
    · exact Or.inr ⟨hPos, hHigh⟩
    · exact hLt.le.trans h.le_node
    · exact fun p hp hVisited hLe => hLt.le.trans (h.low p hp hVisited hLe)
    · exact fun p hp hUpper x s hx hxLt hs => hLt.le.trans (h.upper p hp hUpper x s hx hxLt hs)
  · rw [if_neg hLt]
    exact ⟨h, not_lt.mp hLt⟩

/-- One more predecessor was looked at and has nothing better to show. -/
theorem add (h : Examined g tree bound node first done search)
    (hLow : 0 < tree.number predecessor → tree.number predecessor ≤ tree.number node →
      tree.number (search.semiOf node) ≤ tree.number predecessor)
    (hUpper : tree.number node < tree.number predecessor → ∀ x s,
      IsAncestor tree.parent? predecessor x → tree.number node < tree.number x →
      IsSemidominator g tree.number x s → tree.number (search.semiOf node) ≤ tree.number s) :
    Examined g tree bound node first (predecessor :: done) search := by
  refine { h with low := fun p hp => ?_, upper := fun p hp => ?_ }
  · rcases List.mem_cons.mp hp with rfl | hp
    · exact hLow
    · exact h.low p hp
  · rcases List.mem_cons.mp hp with rfl | hp
    · exact hUpper
    · exact h.upper p hp

theorem step (h : Examined g tree bound node first done search) (hTree : Numbered g root tree)
    (hNode : tree.number node = bound) (hAdj : g.Adj predecessor node) :
    Examined g tree bound node first (predecessor :: done)
      (search.examine tree node predecessor) := by
  by_cases hVisited : tree.number predecessor = 0
  · rw [examine, if_pos hVisited]
    exact h.add (fun hPos => by omega) fun hUpper => by omega
  simp only [examine, if_neg hVisited]
  obtain ⟨hForest, hSame, hFree, -⟩ :=
    h.forest.evaluate hTree.toGrowingTree (hTree.number_le_size predecessor)
  have hFound := h.congr hForest hSame
  by_cases hEq : predecessor = node
  · -- an edge from the node to itself shows nothing new
    have hSelf : (search.evaluate tree predecessor).1 = node := by
      rw [hFree (hEq ▸ hNode.le), hEq]
    rw [hSelf, DominatorSearch.lower, if_neg (lt_irrefl _)]
    exact hFound.add (fun _ _ => hEq ▸ hFound.le_node) fun hUpper =>
      absurd hUpper (hEq ▸ lt_irrefl _)
  · obtain ⟨hPos, hHigh, hLow, hUpper⟩ :=
      h.candidate hTree hNode hAdj (Nat.pos_of_ne_zero hVisited) hEq
    rw [← hSame.semiOf_eq] at hPos hHigh hLow hUpper
    obtain ⟨hLower, hLe⟩ := hFound.lower hNode hAdj.target_lt hPos hHigh
    exact hLower.add (fun _ hp => hLe.trans (hLow hp)) fun hp x s hx hxLt hs =>
      hLe.trans (hUpper hp x s hx hxLt hs)

theorem foldl (h : Examined g tree bound node first done search) (hTree : Numbered g root tree)
    (hNode : tree.number node = bound) {predecessors : List Nat}
    (hAdj : ∀ p ∈ predecessors, g.Adj p node) :
    Examined g tree bound node first (predecessors.reverse ++ done)
      (predecessors.foldl (examine tree node) search) := by
  induction predecessors generalizing done search with
  | nil => exact h
  | cons predecessor rest ih =>
    rw [List.reverse_cons, List.append_assoc, List.singleton_append]
    exact ih (h.step hTree hNode (hAdj predecessor List.mem_cons_self)) fun p hp =>
      hAdj p (List.mem_cons_of_mem _ hp)

/-- When all predecessors were looked at, the semidominator of the node is found. -/
theorem isSemidominator (h : Examined g tree bound node first (g.predecessors node).reverse search)
    (hTree : Numbered g root tree) (hNode : 0 < tree.number node) (hNe : node ≠ root) :
    IsSemidominator g tree.number node (search.semiOf node) := by
  have hDone : ∀ p, g.Adj p node → p ∈ (g.predecessors node).reverse := fun p hAdj =>
    List.mem_reverse.mpr (Digraph.mem_predecessors.mpr hAdj)
  exact hTree.isSemidominator_of_predecessors hNode hNe h.high
    (fun p hAdj => h.low p (hDone p hAdj))
    fun p x s hAdj hLt => h.upper p (hDone p hAdj) hLt x s

/-- With its semidominator found, the node counts as taken. -/
theorem semis (h : Examined g tree (bound + 1) node first done search)
    (hTree : Numbered g root tree) (hNode : tree.number node = bound + 1)
    (hSemi : IsSemidominator g tree.number node (search.semiOf node)) :
    Semis g tree bound search := by
  refine ⟨h.size, fun {x} hx => ?_, fun {x} hx => h.free (by omega) ?_⟩
  · by_cases hEq : x = node
    · exact hEq ▸ hSemi
    · exact h.taken (hTree.succ_lt hNode hx hEq)
  · rintro rfl
    omega

end Examined

/-! ## Buckets -/

/-- What is known once the nodes with numbers above a bound were taken, while the nodes of `rest`
are taken out of a bucket. A node that waits in the bucket of `above` is below a child of `above`
that was not taken yet. -/
structure Pass (g : Digraph α) (tree : SearchTree) (bound : Nat) (rest : List Nat)
    (search : DominatorSearch) : Prop extends Semis g tree bound search where
  forest : Forest g tree bound search
  immediate_size : search.immediate.size = g.size
  buckets_size : search.buckets.size = g.size
  waiting : ∀ {x above}, x ∈ search.bucketOf above → bound < tree.number x ∧
    search.semiOf x = above ∧ ∃ child, tree.parent? child = some above ∧
      IsAncestor tree.parent? x child ∧ tree.number child ≤ bound
  settled : ∀ {x}, bound < tree.number x → x ∈ search.bucketOf (search.semiOf x) ∨ x ∈ rest ∨
    ∃ relative, search.immediate? x = some relative ∧
      IsRelativeDominator g tree.number tree.parent? x relative

namespace Pass

variable {rest : List Nat} {parent : Nat}

/-- The way from a node up to its semidominator is linked once a child of the semidominator was
taken that comes before the node: the first node that is not linked is the semidominator or above
it. -/
theorem top_le (hTree : Numbered g root tree) {child top : Nat}
    (hChild : tree.number child = bound + 1) (hParent : tree.parent? child = some parent)
    (hx : bound < tree.number x) (hTop : IsAncestor tree.parent? x top)
    (hLe : tree.number top ≤ bound) : tree.number top ≤ tree.number parent := by
  have hPos := hTree.visited hTop (Nat.zero_lt_of_lt hx)
  have hUp : IsAncestor tree.parent? child top :=
    hTree.ancestor_between hTop hPos (by omega) (by omega)
  refine hTree.number_le (IsAncestor.of_parent hUp hParent ?_)
  rintro rfl
  omega

/-- The relative dominator of a node that has waited for the way to its semidominator. -/
theorem isRelativeDominator (h : Semis g tree bound search) (hTree : Numbered g root tree)
    {child top best : Nat} (hChild : tree.number child = bound + 1)
    (hParent : tree.parent? child = some parent) (hSemi : search.semiOf node = parent)
    (hNode : bound < tree.number node) (hTop : tree.number top ≤ bound)
    (hCovers : Covers tree bound search node top best) :
    IsRelativeDominator g tree.number tree.parent? node
      (if search.semiOf best = search.semiOf node then parent else best) := by
  have hLe := top_le hTree hChild hParent hNode hCovers.up hTop
  have hLt := (hTree.number_parent hParent).2
  have hBest := hCovers.best_linked
  refine ⟨parent, best, search.semiOf best, ⟨hSemi ▸ h.taken hNode, hCovers.between, by omega,
    h.taken hBest, fun {x s} hx hxLt hs => ?_⟩, by rw [hSemi]⟩
  have hxLinked := hCovers.linked hx (by omega)
  rw [(h.taken hxLinked).unique hTree.toGrowingTree hs]
  exact hCovers.least hx (by omega)

/-- Compressing the forest changes nothing else. -/
theorem congr (h : Pass g tree bound rest search) {other : DominatorSearch}
    (hForest : Forest g tree bound other) (hSame : SameOutside search other) :
    Pass g tree bound rest other := by
  have hSemi := hSame.semiOf_eq
  have hBucket : ∀ x, other.bucketOf x = search.bucketOf x := fun x => by
    rw [bucketOf, bucketOf, hSame.buckets]
  have hImmediate : ∀ x, other.immediate? x = search.immediate? x := fun x => by
    rw [immediate?, immediate?, hSame.immediate]
  refine ⟨⟨hSame.semi ▸ h.size, ?_, ?_⟩, hForest, hSame.immediate ▸ h.immediate_size,
    hSame.buckets ▸ h.buckets_size, ?_, ?_⟩
  all_goals simp only [hSemi, hBucket, hImmediate]
  · exact h.taken
  · exact h.free
  · exact h.waiting
  · exact h.settled

/-- A node is settled by its relative dominator. -/
theorem setImmediate (h : Pass g tree bound (node :: rest) search) (hSize : node < g.size)
    {relative : Nat} (hRelative : IsRelativeDominator g tree.number tree.parent? node relative) :
    Pass g tree bound rest (search.setImmediate node (some relative)) := by
  have hImmediate : ∀ x, (search.setImmediate node (some relative)).immediate? x =
      if x = node then some relative else search.immediate? x :=
    Traversal.getD_setIfInBounds (h.immediate_size ▸ hSize) _ _
  refine ⟨⟨h.size, h.taken, h.free⟩, h.forest.congr rfl rfl fun _ _ => rfl, ?_, h.buckets_size,
    h.waiting, fun {x} hx => ?_⟩
  · exact Array.size_setIfInBounds.trans h.immediate_size
  · rw [hImmediate]
    by_cases hEq : x = node
    · rw [if_pos hEq]
      exact Or.inr (Or.inr ⟨relative, rfl, hEq ▸ hRelative⟩)
    · rw [if_neg hEq]
      rcases h.settled hx with hWaiting | hRest | hSettled
      · exact Or.inl hWaiting
      · exact Or.inr (Or.inl ((List.mem_cons.mp hRest).resolve_left hEq))
      · exact Or.inr (Or.inr hSettled)

/-- A node is taken out of the bucket that is being emptied. -/
theorem settle (h : Pass g tree bound (node :: rest) search) (hTree : Numbered g root tree)
    {child : Nat} (hChild : tree.number child = bound + 1)
    (hParent : tree.parent? child = some parent) (hNode : bound < tree.number node)
    (hSemi : search.semiOf node = parent) :
    Pass g tree bound rest (search.settle tree parent node) ∧
      ∀ x, (search.settle tree parent node).semiOf x = search.semiOf x := by
  obtain ⟨hForest, hSame, -, hLinked⟩ :=
    h.forest.evaluate hTree.toGrowingTree (hTree.number_le_size node)
  obtain ⟨top, hTop, hCovers⟩ := hLinked hNode
  have hFound := h.congr hForest hSame
  refine ⟨hFound.setImmediate (hTree.lt_size (Nat.zero_lt_of_lt hNode)) ?_, hSame.semiOf_eq⟩
  exact isRelativeDominator hFound.toSemis hTree hChild hParent ((hSame.semiOf_eq node).trans hSemi)
    hNode hTop (hCovers.congr fun x _ => hSame.semiOf_eq x)

theorem foldl_settle (h : Pass g tree bound rest search) (hTree : Numbered g root tree)
    {child : Nat} (hChild : tree.number child = bound + 1)
    (hParent : tree.parent? child = some parent)
    (hRest : ∀ x ∈ rest, bound < tree.number x ∧ search.semiOf x = parent) :
    Pass g tree bound [] (rest.foldl (DominatorSearch.settle tree parent) search) := by
  induction rest generalizing search with
  | nil => exact h
  | cons node rest ih =>
    obtain ⟨hNode, hSemi⟩ := hRest node List.mem_cons_self
    obtain ⟨hSettled, hSame⟩ := h.settle hTree hChild hParent hNode hSemi
    refine ih hSettled fun x hx => ?_
    rw [hSame]
    exact hRest x (List.mem_cons_of_mem _ hx)

/-- The search for the semidominator of the next node. -/
theorem examined (h : Pass g tree bound [] search) (hTree : Numbered g root tree)
    (hNode : tree.number node = bound) :
    Examined g tree bound node search (g.predecessors node).reverse
      ((g.predecessors node).foldl (examine tree node) search) := by
  have hSelf : search.semiOf node = node := h.free hNode.le
  have hFirst : Examined g tree bound node search [] search :=
    { immediate := rfl
      buckets := rfl
      forest := h.forest
      size := h.size
      taken := h.taken
      free := fun hx _ => h.free hx
      high := Or.inl hSelf
      le_node := hSelf.symm ▸ le_refl _
      low := fun p hp => absurd hp List.not_mem_nil
      upper := fun p hp => absurd hp List.not_mem_nil }
  simpa using hFirst.foldl hTree hNode fun p hp => Digraph.mem_predecessors.mp hp

end Pass

theorem mem_bucketOf_file (hSize : search.semiOf node < search.buckets.size) {above : Nat} :
    x ∈ (search.file node).bucketOf above ↔
      x ∈ search.bucketOf above ∨ x = node ∧ above = search.semiOf node := by
  have hBucket : (search.file node).bucketOf above = if above = search.semiOf node then
      search.bucketOf (search.semiOf node) ++ [node] else search.bucketOf above :=
    Traversal.getD_setIfInBounds hSize _ _ above
  rw [hBucket]
  by_cases hEq : above = search.semiOf node
  · simp [hEq]
  · simp [hEq]

theorem mem_bucketOf_clear (hSize : node < search.buckets.size) {above : Nat} :
    x ∈ (search.clear node).bucketOf above ↔ above ≠ node ∧ x ∈ search.bucketOf above := by
  have hBucket : (search.clear node).bucketOf above =
      if above = node then [] else search.bucketOf above :=
    Traversal.getD_setIfInBounds hSize _ _ above
  rw [hBucket]
  by_cases hEq : above = node
  · simp [hEq]
  · simp [hEq]

namespace Pass

variable {rest : List Nat} {parent : Nat}

/-- A node that is taken waits below a child of its semidominator that was not taken yet, unless its
parent is its semidominator. -/
theorem exists_child (hTree : Numbered g root tree) (hNode : tree.number node = bound + 1)
    (hParent : tree.parent? node = some parent) {semi : Nat}
    (hSemi : IsSemidominator g tree.number node semi) (hNe : semi ≠ parent) :
    ∃ child, tree.parent? child = some semi ∧ IsAncestor tree.parent? node child ∧
      tree.number child ≤ bound := by
  have hRoot : node ≠ root := by
    rintro rfl
    rw [hTree.parent_root] at hParent
    cases hParent
  have hUp := hTree.semidominator_ancestor (by omega) hRoot hSemi
  have hLt := hTree.semidominator_lt (by omega) hRoot hSemi
  rcases Relation.ReflTransGen.cases_tail hUp with rfl | ⟨child, hChild, hChildParent⟩
  · exact absurd hLt (lt_irrefl _)
  · refine ⟨child, hChildParent, hChild, ?_⟩
    have hChildNe : child ≠ node := by
      rintro rfl
      rw [hParent] at hChildParent
      exact hNe (Option.some.inj hChildParent).symm
    have := hTree.number_lt hChild (by omega) hChildNe
    omega

/-- A node that has waited for a child other than the one that is taken goes on waiting. -/
theorem child_le (hTree : Numbered g root tree) (hNode : tree.number node = bound + 1)
    (hParent : tree.parent? node = some parent) {child above : Nat}
    (hChild : tree.parent? child = some above) (hLe : tree.number child ≤ bound + 1)
    (hNe : above ≠ parent) : tree.number child ≤ bound := by
  have hChildNe : tree.number child ≠ bound + 1 := by
    intro hEq
    obtain rfl := hTree.injective (by omega) (hEq.trans hNode.symm)
    rw [hParent] at hChild
    exact hNe (Option.some.inj hChild).symm
  omega

section File

variable {done : List Nat} {found : DominatorSearch} (h : Pass g tree (bound + 1) [] search)
  (hTree : Numbered g root tree) (hNode : tree.number node = bound + 1)
  (hFound : Examined g tree (bound + 1) node search done found)
  (hSemi : IsSemidominator g tree.number node (found.semiOf node))

include h hTree hFound

/-- What was taken before keeps its semidominator. -/
theorem semiOf_examined (hx : bound + 1 < tree.number x) : found.semiOf x = search.semiOf x :=
  (h.taken hx).unique hTree.toGrowingTree (hFound.taken hx)

include hSemi

/-- The node is added to the bucket of its semidominator. -/
theorem mem_bucketOf_examined {above : Nat} : x ∈ (found.file node).bucketOf above ↔
    x ∈ search.bucketOf above ∨ x = node ∧ above = found.semiOf node := by
  have hSize : found.semiOf node < found.buckets.size := by
    rw [hFound.buckets, h.buckets_size]
    exact hTree.lt_size hSemi.visited
  rw [mem_bucketOf_file hSize, bucketOf, bucketOf, hFound.buckets]

include hNode

/-- Whatever is in a bucket then was taken and has the owner of the bucket as its semidominator. It
waits for a child of the owner, unless the owner is the parent of the node. -/
theorem waiting_file (hParent : tree.parent? node = some parent) {above : Nat}
    (hx : x ∈ (found.file node).bucketOf above) :
    bound < tree.number x ∧ found.semiOf x = above ∧
      (above ≠ parent → ∃ child, tree.parent? child = some above ∧
        IsAncestor tree.parent? x child ∧ tree.number child ≤ bound) := by
  rcases (h.mem_bucketOf_examined hTree hFound hSemi).mp hx with hOld | ⟨rfl, rfl⟩
  · obtain ⟨hLt, hSame, child, hChild, hUp, hLe⟩ := h.waiting hOld
    exact ⟨by omega, (h.semiOf_examined hTree hFound hLt).trans hSame, fun hNe =>
      ⟨child, hChild, hUp, child_le hTree hNode hParent hChild hLe hNe⟩⟩
  · exact ⟨by omega, rfl, exists_child hTree hNode hParent hSemi⟩

/-- Whatever was taken is in the bucket of its semidominator then, or has its relative dominator. -/
theorem settled_file (hx : bound < tree.number x) :
    x ∈ (found.file node).bucketOf (found.semiOf x) ∨
      ∃ relative, found.immediate? x = some relative ∧
        IsRelativeDominator g tree.number tree.parent? x relative := by
  rw [h.mem_bucketOf_examined hTree hFound hSemi]
  by_cases hEq : x = node
  · exact Or.inl (Or.inr ⟨hEq, by rw [hEq]⟩)
  · have hLater : bound + 1 < tree.number x := hTree.succ_lt hNode hx hEq
    rw [h.semiOf_examined hTree hFound hLater, immediate?, hFound.immediate]
    rcases h.settled hLater with hMem | hMem | hSettled
    · exact Or.inl (Or.inl hMem)
    · cases hMem
    · exact Or.inr hSettled

/-- A node whose semidominator was found is put into its bucket and below its parent, and the bucket
of the parent is taken out. -/
theorem file (hParent : tree.parent? node = some parent) :
    Pass g tree bound ((found.file node).bucketOf parent)
      (((found.file node).link node parent).clear parent) ∧
    ∀ x ∈ (found.file node).bucketOf parent,
      bound < tree.number x ∧ found.semiOf x = parent := by
  have hSemis := hFound.semis hTree hNode hSemi
  have hSize : ((found.file node).link node parent).buckets.size = g.size := by
    simpa [DominatorSearch.file, DominatorSearch.link, hFound.buckets] using h.buckets_size
  have hCleared : ∀ {x above},
      x ∈ (((found.file node).link node parent).clear parent).bucketOf above ↔
        above ≠ parent ∧ x ∈ (found.file node).bucketOf above :=
    mem_bucketOf_clear (hSize ▸ hTree.lt_size (hTree.number_parent hParent).1)
  refine ⟨⟨⟨hSemis.size, hSemis.taken, hSemis.free⟩, ?_, ?_, ?_, fun hx => ?_,
    fun {x} hx => ?_⟩, fun x hx => ?_⟩
  · have hForest : Forest g tree (bound + 1) (found.file node) :=
      hFound.forest.congr rfl rfl fun _ _ => rfl
    exact (hForest.link hTree.toGrowingTree hNode hParent).congr rfl rfl fun _ _ => rfl
  · exact (congrArg Array.size hFound.immediate).trans h.immediate_size
  · exact Array.size_setIfInBounds.trans hSize
  · obtain ⟨hNe, hx⟩ := hCleared.mp hx
    obtain ⟨hLt, hSame, hWaiting⟩ := h.waiting_file hTree hNode hFound hSemi hParent hx
    exact ⟨hLt, hSame, hWaiting hNe⟩
  · rcases h.settled_file hTree hNode hFound hSemi hx with hMem | hSettled
    · -- a node in a bucket is in the one that is taken out, or still in a bucket
      by_cases hEq : found.semiOf x = parent
      · exact Or.inr (Or.inl (hEq ▸ hMem))
      · exact Or.inl (hCleared.mpr ⟨hEq, hMem⟩)
    · exact Or.inr (Or.inr hSettled)
  · obtain ⟨hLt, hSame, -⟩ := h.waiting_file hTree hNode hFound hSemi hParent hx
    exact ⟨hLt, hSame⟩

end File

/-- What is known before a node is taken is known of one more node after it. -/
theorem take (h : Pass g tree (bound + 1) [] search) (hTree : Numbered g root tree)
    (hBound : 0 < bound) (hNode : tree.number node = bound + 1) :
    Pass g tree bound [] (search.take g tree node) := by
  obtain ⟨hPos, hRoot⟩ := hTree.one_lt_iff.mp (by omega : 1 < tree.number node)
  obtain ⟨parent, hParent⟩ := hTree.exists_parent hPos hRoot
  have hFound := h.examined hTree hNode
  have hSemi := hFound.isSemidominator hTree hPos hRoot
  obtain ⟨hFiled, hRest⟩ := h.file hTree hNode hFound hSemi hParent
  simp only [DominatorSearch.take, hParent]
  exact hFiled.foldl_settle hTree hNode hParent hRest

/-- Before any node is taken. -/
theorem start (g : Digraph α) (hBound : ∀ x, tree.number x ≤ bound) :
    Pass g tree bound [] (.start g.size) := by
  have hRange : ∀ x : Nat, (Array.range g.size)[x]?.getD x = x := by
    intro x
    by_cases hx : x < g.size
    · simp [hx]
    · simp [not_lt.mp hx]
  have hNot : ∀ {x}, ¬ bound < tree.number x := fun {x} => not_lt.mpr (hBound x)
  exact
    { size := Array.size_range
      taken := fun hx => absurd hx hNot
      free := fun _ => hRange _
      forest :=
        { above_size := Array.size_replicate
          best_size := Array.size_range
          free := fun _ => ⟨Traversal.getD_replicate _ _ _, hRange _⟩
          linked := fun hx => absurd hx hNot }
      immediate_size := Array.size_replicate
      buckets_size := Array.size_replicate
      waiting := fun {x above} hx => by
        rw [bucketOf, DominatorSearch.start, Traversal.getD_replicate] at hx
        cases hx
      settled := fun hx => absurd hx hNot }

/-- The nodes behind the first ones in the order are taken from the end on. -/
theorem foldr_take (hTree : Numbered g root tree) {count : Nat} {nodes : List Nat}
    (hNodes : tree.order.toList.drop count = nodes) (hCount : 0 < count) :
    Pass g tree count [] (nodes.foldr (fun node search => search.take g tree node)
      (.start g.size)) := by
  induction nodes generalizing count with
  | nil => exact start g (hTree.number_le_of_drop_eq_nil hNodes)
  | cons node nodes ih =>
    obtain ⟨hNumber, hRest⟩ := hTree.of_drop_eq_cons hNodes
    exact (ih hRest (by omega)).take hTree hCount hNumber

/-- At the end no node waits any more: its bucket would belong to a node above a child that was not
taken, and only the root was not. -/
theorem exists_relative (h : Pass g tree 1 [] search) (hTree : Numbered g root tree)
    (hx : 1 < tree.number x) : ∃ relative, search.immediate? x = some relative ∧
      IsRelativeDominator g tree.number tree.parent? x relative := by
  rcases h.settled hx with hWaiting | hNone | hSettled
  · obtain ⟨-, -, child, hChild, -, hLe⟩ := h.waiting hWaiting
    have := hTree.number_parent hChild
    omega
  · cases hNone
  · exact hSettled

end Pass

/-! ## The last pass -/

/-- The nodes with numbers up to `count` have their immediate dominators, the others their relative
ones. -/
structure Resolved (g : Digraph α) (root : Nat) (tree : SearchTree) (count : Nat)
    (search : DominatorSearch) : Prop where
  size : search.immediate.size = g.size
  semi : ∀ {x}, 1 < tree.number x → IsSemidominator g tree.number x (search.semiOf x)
  done : ∀ {x}, 1 < tree.number x → tree.number x ≤ count →
    ∃ above, search.immediate? x = some above ∧ g.IsImmediateDominator root above x
  left : ∀ {x}, 1 < tree.number x → count < tree.number x →
    ∃ relative, search.immediate? x = some relative ∧
      IsRelativeDominator g tree.number tree.parent? x relative

namespace Resolved

variable {count : Nat}

/-- The immediate dominator of the next node is its semidominator, or that of a node that has it
already. -/
theorem exists_resolve (h : Resolved g root tree count search) (hTree : Numbered g root tree)
    (hCount : 0 < count) (hNode : tree.number node = count + 1) :
    ∃ above, g.IsImmediateDominator root above node ∧
      ∀ x, (search.resolve node).immediate? x =
        if x = node then some above else search.immediate? x := by
  have hLater : 1 < tree.number node := by omega
  obtain ⟨hPos, hRoot⟩ := hTree.one_lt_iff.mp hLater
  obtain ⟨relative, hSome, hRelative⟩ := h.left hLater (by omega)
  obtain ⟨hSame, hOther⟩ := hTree.immediate_of_relative hPos hRoot (h.semi hLater) hRelative
  by_cases hEq : relative = search.semiOf node
  · refine ⟨relative, hSame hEq, fun x => ?_⟩
    rw [resolve, if_pos (hSome.trans (congrArg some hEq))]
    by_cases hx : x = node
    · rw [if_pos hx, hx, hSome]
    · rw [if_neg hx]
  · obtain ⟨hRelPos, hRelRoot, hRelLt, hTransfer⟩ := hOther hEq
    obtain ⟨above, hAbove, hImmediate⟩ :=
      h.done (hTree.one_lt_iff.mpr ⟨hRelPos, hRelRoot⟩) (by omega)
    refine ⟨above, hTransfer above hImmediate, fun x => ?_⟩
    have hNot : search.immediate? node ≠ some (search.semiOf node) := by
      rw [hSome]
      exact fun hInj => hEq (Option.some.inj hInj)
    rw [resolve, if_neg hNot, hSome, Option.bind_some, hAbove]
    exact Traversal.getD_setIfInBounds (h.size ▸ hTree.lt_size hPos) _ _ x

theorem step (h : Resolved g root tree count search) (hTree : Numbered g root tree)
    (hCount : 0 < count) (hNode : tree.number node = count + 1) :
    Resolved g root tree (count + 1) (search.resolve node) := by
  obtain ⟨above, hAbove, hImmediate⟩ := h.exists_resolve hTree hCount hNode
  have hSemi : ∀ x, (search.resolve node).semiOf x = search.semiOf x := by
    intro x
    rw [resolve]
    split <;> rfl
  refine ⟨?_, fun hx => hSemi _ ▸ h.semi hx, fun {x} hx hLe => ?_, fun {x} hx hLt => ?_⟩
  · rw [resolve]
    split
    · exact h.size
    · exact Array.size_setIfInBounds.trans h.size
  · rw [hImmediate]
    by_cases hEq : x = node
    · rw [if_pos hEq]
      exact ⟨above, rfl, hEq ▸ hAbove⟩
    · rw [if_neg hEq]
      refine h.done hx (Nat.le_of_lt_succ (lt_of_le_of_ne hLe fun hSame => hEq ?_))
      exact hTree.injective (by omega) (hSame.trans hNode.symm)
  · have hEq : x ≠ node := by
      rintro rfl
      omega
    rw [hImmediate, if_neg hEq]
    exact h.left hx (by omega)

theorem foldl (hTree : Numbered g root tree) {nodes : List Nat}
    (h : Resolved g root tree count search) (hNodes : tree.order.toList.drop count = nodes)
    (hCount : 0 < count) :
    ∃ final, Resolved g root tree final (nodes.foldl resolve search) ∧
      ∀ x, tree.number x ≤ final := by
  induction nodes generalizing count search with
  | nil => exact ⟨count, h, hTree.number_le_of_drop_eq_nil hNodes⟩
  | cons node nodes ih =>
    obtain ⟨hGet, hRest⟩ := hTree.of_drop_eq_cons hNodes
    exact ih (h.step hTree hCount hGet) hRest (by omega)

end Resolved

/-- Every visited node but the root gets its immediate dominator. -/
theorem exists_immediate_run (hTree : Numbered g root tree) (hNode : 0 < tree.number node)
    (hNe : node ≠ root) : ∃ above, (run g tree).immediate? node = some above ∧
      g.IsImmediateDominator root above node := by
  have hTail : tree.order.toList.drop 1 = tree.order.toList.tail := List.drop_one
  have hPass := Pass.foldr_take hTree hTail (by omega)
  have hFirst : Resolved g root tree 1 _ :=
    { size := hPass.immediate_size
      semi := hPass.taken
      done := fun hx hLe => by omega
      left := fun hx _ => hPass.exists_relative hTree hx }
  obtain ⟨final, hFinal, hLe⟩ := hFirst.foldl hTree hTail (by omega)
  rw [run, List.foldl_reverse]
  exact hFinal.done (hTree.one_lt_iff.mpr ⟨hNode, hNe⟩) (hLe node)

end BytecodeFlow.DominatorSearch
