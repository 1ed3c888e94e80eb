import BytecodeFlow.Digraph.Dominator
import BytecodeFlow.Proofs.ImmediateDominators

/-!
# Dominator trees

The parents in the tree that `dominatorTree` computes are the immediate dominators
(`immediate?_eq_some_iff`), so its chains hold the dominators (`dominates_iff_of_reaches`), and
`dominatorTree_correct` collects what the queries of the tree answer. All of it rests on the search
with semidominators and on nothing else.
-/

namespace BytecodeFlow.Digraph

variable {α : Type} {g : Digraph α} {root : Nat}

/-! ## The tree -/

theorem numbered_searchTree (hRoot : root < g.size) :
    DominatorSearch.Numbered g root (g.searchTree root) := by
  obtain ⟨-, hSound⟩ := searchTree_spec hRoot
  exact
    { toIsSearchTree := hSound.isSearchTree rfl
      number_root := hSound.number_root
      number_le_size := fun x => (hSound.number_le_size x).trans hSound.size_order_le
      order_iff := hSound.order_iff }

theorem Reaches.source_lt {node : Nat} (h : g.Reaches root node) : root < g.size := by
  obtain ⟨_, hPath⟩ := h
  exact hPath.source_lt

theorem Reaches.target_lt {node : Nat} (h : g.Reaches root node) : node < g.size := by
  obtain ⟨_, hPath⟩ := h
  exact hPath.target_lt

theorem isReachable_iff {node : Nat} :
    (g.dominatorTree root).isReachable node = true ↔ g.Reaches root node := by
  by_cases hRoot : root < g.size
  · have hTree := numbered_searchTree hRoot
    rw [← hTree.visited_iff, DominatorTree.isReachable, dominatorTree, if_pos hRoot]
    by_cases hNode : node < g.size
    · simp [hNode, Nat.pos_iff_ne_zero]
    · have hZero : ¬ 0 < (g.searchTree root).number node := fun hPos => hNode (hTree.lt_size hPos)
      simp [hNode, hZero]
  · have hNone : ¬ g.Reaches root node := fun hReach => hRoot hReach.source_lt
    rw [DominatorTree.isReachable, dominatorTree, if_neg hRoot, Traversal.getD_replicate]
    simp [hNone]

/-- What the tree knows of a node of the graph. -/
theorem immediate?_eq {node : Nat} (hRoot : root < g.size) (hNode : node < g.size) :
    (g.dominatorTree root).immediate? node =
      if node = root ∨ (g.searchTree root).number node = 0 then none
      else (DominatorSearch.run g (g.searchTree root)).immediate? node := by
  simp [DominatorTree.immediate?, dominatorTree, hRoot, hNode]

theorem immediate?_of_not_reaches {node : Nat} (hReach : ¬ g.Reaches root node) :
    (g.dominatorTree root).immediate? node = none := by
  by_cases hRoot : root < g.size
  · by_cases hNode : node < g.size
    · have hZero : (g.searchTree root).number node = 0 :=
        Nat.eq_zero_of_not_pos ((numbered_searchTree hRoot).visited_iff node |>.not.mpr hReach)
      rw [immediate?_eq hRoot hNode, if_pos (Or.inr hZero)]
    · simp [DominatorTree.immediate?, dominatorTree, hRoot, hNode]
  · rw [DominatorTree.immediate?, dominatorTree, if_neg hRoot, Traversal.getD_replicate]

theorem immediate?_root (hRoot : root < g.size) :
    (g.dominatorTree root).immediate? root = none := by
  rw [immediate?_eq hRoot hRoot, if_pos (Or.inl rfl)]

/-- The parent of a reachable node is its immediate dominator. -/
theorem immediate?_eq_some_iff {above node : Nat} (hRoot : root < g.size)
    (hReach : g.Reaches root node) :
    (g.dominatorTree root).immediate? node = some above ↔
      g.IsImmediateDominator root above node := by
  by_cases hNe : node = root
  · subst hNe
    rw [immediate?_root hRoot]
    constructor
    · intro hSome
      cases hSome
    · intro hImmediate
      exact absurd (hImmediate.1.2.eq_root hRoot) hImmediate.1.1
  · have hTree := numbered_searchTree hRoot
    have hPos := (hTree.visited_iff node).mpr hReach
    obtain ⟨found, hFound, hImmediate⟩ := DominatorSearch.exists_immediate_run hTree hPos hNe
    have hSome : (g.dominatorTree root).immediate? node = some found := by
      rw [immediate?_eq hRoot hReach.target_lt, if_neg (not_or.mpr ⟨hNe, hPos.ne'⟩), hFound]
    rw [hSome, Option.some_inj]
    constructor
    · rintro rfl
      exact hImmediate
    · exact fun hOther => hImmediate.unique hReach hOther

theorem immediate?_eq_none_iff {node : Nat} (hRoot : root < g.size) :
    (g.dominatorTree root).immediate? node = none ↔ node = root ∨ ¬ g.Reaches root node := by
  by_cases hReach : g.Reaches root node
  · simp only [hReach, not_true_eq_false, or_false]
    constructor
    · intro hNone
      by_contra hNe
      obtain ⟨above, hAbove⟩ := exists_immediate hReach hNe
      rw [(immediate?_eq_some_iff hRoot hReach).mpr hAbove] at hNone
      cases hNone
    · rintro rfl
      rw [Option.eq_none_iff_forall_ne_some]
      intro above hSome
      have hImmediate := (immediate?_eq_some_iff hRoot hReach).mp hSome
      exact hImmediate.1.1 (hImmediate.1.2.eq_root hRoot)
  · simp only [hReach, not_false_eq_true, or_true, iff_true]
    exact immediate?_of_not_reaches hReach

/-! ## Chains of dominators -/

open Classical in
/-- The number of strict dominators of a reachable node. -/
noncomputable def dominatorRank (g : Digraph α) (root node : Nat) : Nat :=
  if g.Reaches root node then
    ((Finset.range g.size).filter fun x => g.StrictlyDominates root x node).card
  else 0

/-- A strict dominator has fewer strict dominators than what it dominates. -/
theorem dominatorRank_lt {above node : Nat} (hReach : g.Reaches root node)
    (hStrict : g.StrictlyDominates root above node) :
    g.dominatorRank root above < g.dominatorRank root node := by
  classical
  have hAbove := hStrict.2.reaches hReach
  obtain ⟨_, hPath⟩ := hAbove
  rw [dominatorRank, dominatorRank, if_pos ⟨_, hPath⟩, if_pos hReach]
  -- what strictly dominates `above` strictly dominates `node`, and so does `above` itself
  refine Finset.card_lt_card (Finset.ssubset_iff_of_subset ?_ |>.mpr ⟨above, ?_, ?_⟩)
  · intro x hx
    rw [Finset.mem_filter] at hx ⊢
    exact ⟨hx.1, .of_dominates hReach hx.2.2 hStrict⟩
  · exact Finset.mem_filter.mpr ⟨Finset.mem_range.mpr hPath.target_lt, hStrict⟩
  · intro hMem
    exact (Finset.mem_filter.mp hMem).2.1 rfl

theorem dominatorRank_lt_size (hRoot : root < g.size) (node : Nat) :
    g.dominatorRank root node < g.size := by
  classical
  unfold dominatorRank
  split
  · rename_i hReach
    obtain ⟨_, hPath⟩ := hReach
    have hNode := Finset.mem_range.mpr hPath.target_lt
    calc _ < (Finset.range g.size).card := Finset.card_lt_card
          (Finset.filter_ssubset.mpr ⟨node, hNode, fun hStrict => hStrict.1 rfl⟩)
      _ = g.size := Finset.card_range g.size
  · omega

/-- The tree is a forest with at most as many levels as the graph has nodes. -/
theorem ranked_dominatorTree (hRoot : root < g.size) :
    Ranked (g.dominatorTree root).immediate? (g.dominatorRank root) g.size := by
  refine ⟨fun {node above} hSome => ?_, dominatorRank_lt_size hRoot⟩
  by_cases hReach : g.Reaches root node
  · exact dominatorRank_lt hReach ((immediate?_eq_some_iff hRoot hReach).mp hSome).1
  · rw [immediate?_of_not_reaches hReach] at hSome
    cases hSome

theorem mem_dominators_iff {above node : Nat} (hNode : node < g.size) :
    (g.dominatorTree root).dominates above node = true ↔
      above ∈ ancestors (g.dominatorTree root).immediate? g.size node := by
  have hSize : (g.dominatorTree root).parents.size = g.size := by
    rw [dominatorTree]
    split <;> simp
  rw [DominatorTree.dominates, DominatorTree.dominators, hSize, if_pos hNode,
    List.contains_iff_mem]

/-- If the parents of reachable nodes are their immediate dominators, their chains hold their
dominators. Parents of other nodes do not matter, since these lie on no chain of a reachable
node. -/
theorem mem_ancestors_iff_dominates {parent : Nat → Option Nat} {rank : Nat → Nat} {fuel : Nat}
    (hRanked : Ranked parent rank fuel) (hRoot : root < g.size)
    (hNone : ∀ node, g.Reaches root node → parent node = none → node = root)
    (hSome : ∀ node above, g.Reaches root node → parent node = some above →
      g.IsImmediateDominator root above node)
    {above node : Nat} (hReach : g.Reaches root node) :
    above ∈ ancestors parent fuel node ↔ g.Dominates root above node := by
  -- up the chain: a chain grows by its first node, as the dominators grow by the node itself
  induction node using hRanked.induction_up with
  | hRoot node hParent =>
    obtain rfl := hNone node hReach hParent
    rw [hRanked.ancestors_of_none hParent, List.mem_singleton]
    exact ⟨fun hEq => hEq ▸ .refl above, fun hDom => hDom.eq_root hRoot⟩
  | hStep node next hParent ih =>
    have hImmediate := hSome node next hReach hParent
    have hNext : above ∈ ancestors parent fuel next ↔ g.Dominates root above next :=
      ih (hImmediate.1.2.reaches hReach)
    rw [hRanked.ancestors_of_some hParent, List.mem_cons, hNext]
    constructor
    · rintro (rfl | hDom)
      · exact .refl above
      · exact hDom.trans hImmediate.1.2
    · intro hDom
      by_cases hEq : above = node
      · exact Or.inl hEq
      · exact Or.inr (hImmediate.2 above ⟨hEq, hDom⟩)

/-- The chain of a reachable node holds its dominators. -/
theorem dominates_iff_of_reaches {above node : Nat} (hRoot : root < g.size)
    (hReach : g.Reaches root node) :
    (g.dominatorTree root).dominates above node = true ↔ g.Dominates root above node := by
  obtain ⟨_, hPath⟩ := id hReach
  rw [mem_dominators_iff hPath.target_lt]
  refine mem_ancestors_iff_dominates (ranked_dominatorTree hRoot) hRoot ?_ ?_ hReach
  · intro x hx hParent
    simpa [hx] using (immediate?_eq_none_iff hRoot).mp hParent
  · intro x y hx hParent
    exact (immediate?_eq_some_iff hRoot hx).mp hParent

/-- The chain of an unreachable node holds that node alone. -/
theorem dominates_iff_of_not_reaches {above node : Nat} (hRoot : root < g.size)
    (hNode : node < g.size) (hReach : ¬ g.Reaches root node) :
    (g.dominatorTree root).dominates above node = true ↔ above = node := by
  rw [mem_dominators_iff hNode, (ranked_dominatorTree hRoot).ancestors_of_none
    (immediate?_of_not_reaches hReach), List.mem_singleton]

/-- **Dominator trees.** For every graph and every root in it, the tree knows the reachable nodes,
gives each of them but the root the strict dominator that all its other strict dominators dominate,
and answers dominance of reachable nodes by paths. An unreachable node has no parent and is
dominated by itself only. The depth-first search that numbers the nodes ends by itself. -/
theorem dominatorTree_correct (g : Digraph α) (root : Nat) (hRoot : root < g.size) :
    (∀ node, (g.dominatorTree root).isReachable node = true ↔ g.Reaches root node) ∧
    (∀ node, (g.dominatorTree root).immediate? node = none ↔
      node = root ∨ ¬ g.Reaches root node) ∧
    (∀ above node, g.Reaches root node →
      ((g.dominatorTree root).dominates above node = true ↔
        ∀ nodes, g.Path root node nodes → above ∈ nodes)) ∧
    (∀ node, g.Reaches root node → node ≠ root →
      ∃! above, g.IsImmediateDominator root above node) ∧
    (∀ above node, g.Reaches root node →
      ((g.dominatorTree root).immediate? node = some above ↔
        g.IsImmediateDominator root above node)) ∧
    (∀ above node, node < g.size → ¬ g.Reaches root node →
      ((g.dominatorTree root).dominates above node = true ↔ above = node)) ∧
    Loops (TreeSearch.step g) (.start g.size root) ⟨[], g.searchTree root⟩ := by
  refine ⟨fun node => isReachable_iff, fun node => immediate?_eq_none_iff hRoot,
    fun above node hReach => dominates_iff_of_reaches hRoot hReach, ?_,
    fun above node hReach => immediate?_eq_some_iff hRoot hReach,
    fun above node hNode hReach => dominates_iff_of_not_reaches hRoot hNode hReach,
    (searchTree_spec hRoot).1⟩
  intro node hReach hNe
  obtain ⟨above, hAbove⟩ := exists_immediate hReach hNe
  exact ⟨above, hAbove, fun other hOther => hOther.unique hReach hAbove⟩

/-- Two parallel edges into a loop with two entries, a node with an edge to itself behind it, and
two nodes that node zero does not reach. -/
def twoEntryLoop : Digraph Nat :=
  Draft.freeze
    { nodes := #[0, 1, 2, 3, 4, 5, 6]
      edges := #[⟨0, 1, 1⟩, ⟨0, 1, 2⟩, ⟨0, 2, 1⟩, ⟨1, 2, 1⟩, ⟨2, 1, 1⟩, ⟨1, 3, 1⟩, ⟨2, 3, 1⟩,
        ⟨3, 3, 1⟩, ⟨3, 4, 1⟩, ⟨5, 3, 1⟩, ⟨5, 6, 1⟩, ⟨6, 5, 1⟩]
      edge_lt := by decide }

theorem dominatorTree_correct_twoEntryLoop :
    0 < twoEntryLoop.size ∧ twoEntryLoop.Reaches 0 4 ∧ ¬ twoEntryLoop.Reaches 0 5 ∧
      twoEntryLoop.IsImmediateDominator 0 0 3 ∧
      ∀ nodes, twoEntryLoop.Path 0 4 nodes → 3 ∈ nodes := by
  have hRoot : 0 < twoEntryLoop.size := by decide
  obtain ⟨hReach, -, hDominates, -, hImmediate, -⟩ := dominatorTree_correct twoEntryLoop 0 hRoot
  have hFour := (hReach 4).mp (by decide +kernel)
  refine ⟨hRoot, hFour, fun hFive => ?_, ?_, (hDominates 3 4 hFour).mp (by decide +kernel)⟩
  · exact absurd ((hReach 5).mpr hFive) (by decide +kernel)
  · exact (hImmediate 0 3 ((hReach 3).mp (by decide +kernel))).mp (by decide +kernel)

end BytecodeFlow.Digraph
