import BytecodeFlow.Proofs.Dominance
import BytecodeFlow.Proofs.SearchTree

/-!
# Semidominators

What a search tree says about dominance. A path is high over its last node if all nodes between its
ends have larger numbers than that one (`HighPath`). The semidominator of a node is the least
numbered start of such paths.

* `IsSearchTree.dominates_iff`: an ancestor dominates a node if and only if no path that is high
  over a node between the two starts above the ancestor. So the dominators can be read off the tree
  and the semidominators.
* `IsSearchTree.isSemidominator_of_predecessors`: the semidominator of a node is found among its
  predecessors and the semidominators of what lies above them.
* `IsSearchTree.immediate_of_relative`: of the nodes between a node and its semidominator take one
  whose own semidominator is least. If the two semidominators are the same, that is the immediate
  dominator of the node; otherwise the two nodes have the same immediate dominator.

All three rest on `IsSearchTree.exists_high`: a path to larger numbers has a part that is high over
an ancestor of its last node.
-/

namespace BytecodeFlow

variable {α : Type} {g : Digraph α} {root : Nat} {number : Nat → Nat} {parent : Nat → Option Nat}

/-- Some path leads from a node to `target`, of at least one edge, whose nodes between the two ends
have larger numbers than `target`. -/
inductive HighPath (g : Digraph α) (number : Nat → Nat) (target : Nat) : Nat → Prop where
  | edge {node : Nat} : g.Adj node target → HighPath g number target node
  | step {node next : Nat} : g.Adj node next → number target < number next →
      HighPath g number target next → HighPath g number target node

/-- `semi` has the least number of all visited nodes from which a high path leads to `node`. -/
structure IsSemidominator (g : Digraph α) (number : Nat → Nat) (node semi : Nat) : Prop where
  visited : 0 < number semi
  high : HighPath g number node semi
  least : ∀ {x}, 0 < number x → HighPath g number node x → number semi ≤ number x

/-! ## High paths -/

/-- A path along nodes with a property, apart from its first node. -/
theorem Digraph.Path.reflTransGen {P : Nat → Prop} {source target : Nat} {nodes : List Nat}
    (h : g.Path source target nodes) (hTail : ∀ x ∈ nodes.tail, P x) :
    Relation.ReflTransGen (fun a b => g.Adj a b ∧ P b) source target := by
  induction h with
  | single _ => exact .refl
  | cons hAdj hRest ih =>
    exact .head ⟨hAdj, hTail _ hRest.source_mem⟩
      (ih fun x hx => hTail x (List.mem_of_mem_tail hx))

namespace HighPath

variable {target node : Nat}

/-- The nodes of a high path, apart from its start. -/
theorem exists_path (h : HighPath g number target node) :
    ∃ nodes, g.Path node target nodes ∧ ∀ x ∈ nodes, x = node ∨ number target ≤ number x := by
  induction h with
  | @edge node hAdj =>
    refine ⟨[node, target], .cons hAdj (.single hAdj.target_lt), fun x hx => ?_⟩
    rcases List.mem_cons.mp hx with rfl | hx
    · exact Or.inl rfl
    · exact Or.inr (List.mem_singleton.mp hx ▸ le_refl _)
  | @step node next hAdj hLt _ ih =>
    obtain ⟨nodes, hPath, hHigh⟩ := ih
    refine ⟨node :: nodes, .cons hAdj hPath, fun x hx => ?_⟩
    rcases List.mem_cons.mp hx with rfl | hx
    · exact Or.inl rfl
    · rcases hHigh x hx with rfl | hLe
      · exact Or.inr hLt.le
      · exact Or.inr hLe

/-- A high path is an edge, or ends with an edge from a node with a larger number. -/
theorem cases_last (h : HighPath g number target node) :
    g.Adj node target ∨ ∃ last, g.Adj last target ∧ number target < number last ∧
      Relation.TransGen (fun a b => g.Adj a b ∧ number target < number b) node last := by
  induction h with
  | edge hAdj => exact Or.inl hAdj
  | @step node next hAdj hLt _ ih =>
    rcases ih with hLast | ⟨last, hLast, hNumber, hSteps⟩
    · exact Or.inr ⟨next, hLast, hLt, .single ⟨hAdj, hLt⟩⟩
    · exact Or.inr ⟨last, hLast, hNumber, .head ⟨hAdj, hLt⟩ hSteps⟩

/-- A path to larger numbers can be put before a high path that starts at one of them. -/
theorem prepend {middle : Nat}
    (hSteps : Relation.ReflTransGen (fun a b => g.Adj a b ∧ number target < number b) node middle)
    (h : HighPath g number target middle) : HighPath g number target node := by
  induction hSteps using Relation.ReflTransGen.head_induction_on with
  | refl => exact h
  | head hStep _ ih => exact .step hStep.1 hStep.2 ih

/-- A path that is high over a node of a larger number can be put before a high path that starts
at that node. -/
theorem trans {middle : Nat} (hFirst : HighPath g number middle node)
    (hLt : number target < number middle) (h : HighPath g number target middle) :
    HighPath g number target node := by
  induction hFirst with
  | edge hAdj => exact .step hAdj hLt h
  | step hAdj hNext _ ih => exact .step hAdj (lt_trans hLt hNext) ih

end HighPath

namespace IsSemidominator

variable {node semi : Nat}

theorem unique (h : IsSemidominator g number node semi)
    (hTree : GrowingTree g root number parent) {other : Nat}
    (hOther : IsSemidominator g number node other) : other = semi :=
  hTree.injective hOther.visited
    (le_antisymm (hOther.least h.visited h.high) (h.least hOther.visited hOther.high))

end IsSemidominator

namespace GrowingTree

variable {a b node semi target : Nat}

/-- A path that is high over a node with a larger number than some ancestor of its start comes to a
node below that ancestor: each step leads down, or back to a number after that of the ancestor. -/
theorem ancestor_of_high (h : GrowingTree g root number parent)
    (hHigh : HighPath g number target node) (hAbove : IsAncestor parent node a)
    (ha : 0 < number a) (hLt : number a < number target) : IsAncestor parent target a := by
  -- one step of the path
  have hStep : ∀ {x y}, g.Adj x y → IsAncestor parent x a → number a < number y →
      IsAncestor parent y a := by
    intro x y hAdj hxa hy
    by_cases hxy : number x < number y
    · have hx : 0 < number x := lt_of_lt_of_le ha (h.number_le hxa)
      exact (h.ancestor_of_adj hAdj hx hxy).trans hxa
    · exact h.ancestor_between hxa ha hy.le (not_lt.mp hxy)
  induction hHigh with
  | edge hAdj => exact hStep hAdj hAbove hLt
  | step hAdj hNext _ ih => exact ih (hStep hAdj hAbove (lt_trans hLt hNext))

/-- A high path from a node with a smaller number comes from above. -/
theorem ancestor_of_high_start (h : GrowingTree g root number parent)
    (hHigh : HighPath g number target node) (hNode : 0 < number node)
    (hLt : number node < number target) : IsAncestor parent target node :=
  h.ancestor_of_high hHigh .refl hNode hLt

/-- A path whose nodes behind the first one have numbers above a bound begins with a path that is
high over an ancestor of its last node, with a number above the bound. -/
theorem exists_high (h : GrowingTree g root number parent) {bound last : Nat}
    (hSteps : Relation.TransGen (fun a b => g.Adj a b ∧ bound < number b) node last) :
    ∃ x, IsAncestor parent last x ∧ bound < number x ∧ HighPath g number x node := by
  induction hSteps using Relation.TransGen.head_induction_on with
  | single hStep => exact ⟨last, .refl, hStep.2, .edge hStep.1⟩
  | @head node next hStep _ ih =>
    obtain ⟨x, hx, hBound, hHigh⟩ := ih
    -- the path goes on being high over `x`, unless the next node is above `x`
    rcases lt_trichotomy (number x) (number next) with hLt | hEq | hLt
    · exact ⟨x, hx, hBound, .step hStep.1 hLt hHigh⟩
    · obtain rfl := h.injective (Nat.zero_lt_of_lt hBound) hEq
      exact ⟨x, hx, hBound, .edge hStep.1⟩
    · have hUp := h.ancestor_of_high_start hHigh (Nat.zero_lt_of_lt hStep.2) hLt
      exact ⟨next, hx.trans hUp, hStep.2, .edge hStep.1⟩

theorem exists_semidominator (h : GrowingTree g root number parent) (hNode : 0 < number node)
    (hNe : node ≠ root) : ∃ semi, IsSemidominator g number node semi := by
  obtain ⟨above, hParent⟩ := h.exists_parent hNode hNe
  obtain ⟨semi, ⟨hPos, hHigh⟩, hLeast⟩ := (measure number).wf.has_min
    {x | 0 < number x ∧ HighPath g number node x}
    ⟨above, (h.number_parent hParent).1, .edge (h.adj_parent hParent)⟩
  exact ⟨semi, hPos, hHigh, fun hx hxHigh => not_lt.mp (hLeast _ ⟨hx, hxHigh⟩)⟩

/-- The semidominator of a node is one of its ancestors. -/
theorem semidominator_lt (h : GrowingTree g root number parent) (hNode : 0 < number node)
    (hNe : node ≠ root) (hSemi : IsSemidominator g number node semi) :
    number semi < number node := by
  obtain ⟨above, hParent⟩ := h.exists_parent hNode hNe
  obtain ⟨hPos, hLt⟩ := h.number_parent hParent
  exact lt_of_le_of_lt (hSemi.least hPos (.edge (h.adj_parent hParent))) hLt

theorem semidominator_ancestor (h : GrowingTree g root number parent) (hNode : 0 < number node)
    (hNe : node ≠ root) (hSemi : IsSemidominator g number node semi) :
    IsAncestor parent node semi :=
  h.ancestor_of_high_start hSemi.high hSemi.visited (h.semidominator_lt hNode hNe hSemi)

end GrowingTree

/-! ## Dominance read off the tree -/

namespace IsSearchTree

variable {above node semi x y : Nat}

/-- A dominator of a visited node is one of its ancestors. -/
theorem ancestor_of_dominates (h : IsSearchTree g root number parent) (hNode : 0 < number node)
    (hDom : g.Dominates root above node) : IsAncestor parent node above := by
  obtain ⟨nodes, hPath, hOn⟩ := h.exists_path (h.root_ancestor hNode) hNode
  exact (hOn above (hDom nodes hPath)).1

/-- A path that is high over a node below `above`, and starts above it, leads around it. -/
theorem le_of_dominates (h : IsSearchTree g root number parent) (hNode : 0 < number node)
    (hDom : g.Dominates root above node) (hx : IsAncestor parent node x)
    (hLt : number above < number x) (hy : 0 < number y) (hHigh : HighPath g number x y) :
    number above ≤ number y := by
  by_contra hLe
  obtain ⟨first, hFirst, hFirstOn⟩ := h.exists_path (h.root_ancestor hy) hy
  obtain ⟨second, hSecond, hSecondOn⟩ := hHigh.exists_path
  obtain ⟨third, hThird, hThirdOn⟩ := h.exists_path hx hNode
  obtain ⟨joined, hJoined, hMem⟩ := hFirst.append hSecond
  obtain ⟨whole, hWhole, hAll⟩ := hJoined.append hThird
  have hy : above ≠ y := fun hEq => hLe (hEq ▸ le_refl _)
  rcases (hAll above).mp (hDom whole hWhole) with hOn | hOn
  · rcases (hMem above).mp hOn with hOn | hOn
    · exact hLe (h.number_le (hFirstOn above hOn).1)
    · rcases hSecondOn above hOn with hEq | hLeft
      · exact hy hEq
      · omega
  · have hRight := h.number_le (hThirdOn above hOn).2
    omega

/-- A path around `above` has a part from a smaller number on along larger ones only, which begins
with a path that is high over a node between `above` and `node`. -/
theorem dominates_of_le (h : IsSearchTree g root number parent) (hNode : 0 < number node)
    (hAbove : IsAncestor parent node above)
    (hLe : ∀ x y, IsAncestor parent node x → number above < number x → 0 < number y →
      HighPath g number x y → number above ≤ number y) : g.Dominates root above node := by
  intro nodes hPath
  by_contra hOff
  have hLt : ∀ {z}, z ∈ nodes → number above ≤ number z → number above < number z := by
    intro z hz hLeq
    refine lt_of_le_of_ne hLeq fun hEq => hOff ?_
    rwa [h.injective (h.visited hAbove hNode) hEq]
  have hRoot : number root < number above := by
    refine lt_of_le_of_ne (h.number_le (h.root_ancestor (h.visited hAbove hNode))) fun hEq => ?_
    exact hOff (h.injective h.root_visited hEq ▸ hPath.source_mem)
  obtain ⟨start, right, hStart, hRight, hSub, hHigh⟩ :=
    hPath.split_last (P := fun z => number z < number above) ⟨root, hPath.source_mem, hRoot⟩
  have hSteps : Relation.TransGen (fun a b => g.Adj a b ∧ number above < number b) start node := by
    have hAll := hRight.reflTransGen (P := fun z => number above < number z) fun z hz =>
      hLt (hSub z (List.mem_cons_of_mem _ hz)) (not_lt.mp (hHigh z hz))
    rcases Relation.reflTransGen_iff_eq_or_transGen.mp hAll with hEq | hSome
    · have := h.number_le hAbove
      rw [hEq] at this
      omega
    · exact hSome
  have hStartPos : 0 < number start := by
    obtain ⟨left, -, hLeft, -⟩ := hPath.split (hSub start List.mem_cons_self)
    exact (h.visited_iff start).mpr ⟨left, hLeft⟩
  obtain ⟨x, hx, hBound, hxHigh⟩ := h.exists_high hSteps
  have := hLe x start hx hBound hStartPos hxHigh
  omega

/-- An ancestor dominates a node if and only if no path that is high over a node between them
starts above the ancestor. -/
theorem dominates_iff (h : IsSearchTree g root number parent) (hNode : 0 < number node)
    (hAbove : IsAncestor parent node above) :
    g.Dominates root above node ↔
      ∀ x y, IsAncestor parent node x → number above < number x → 0 < number y →
        HighPath g number x y → number above ≤ number y :=
  ⟨fun hDom _ _ hx hLt hy hHigh => h.le_of_dominates hNode hDom hx hLt hy hHigh,
    h.dominates_of_le hNode hAbove⟩

/-- In terms of semidominators: an ancestor dominates a node if and only if none of the nodes
between them has a semidominator above the ancestor. -/
theorem dominates_iff_semi (h : IsSearchTree g root number parent) (hNode : 0 < number node)
    (hAbove : IsAncestor parent node above) :
    g.Dominates root above node ↔
      ∀ x semi, IsAncestor parent node x → number above < number x →
        IsSemidominator g number x semi → number above ≤ number semi := by
  rw [h.dominates_iff hNode hAbove]
  constructor
  · intro hLe x semi hx hLt hSemi
    exact hLe x semi hx hLt hSemi.visited hSemi.high
  · intro hLe x y hx hLt hy hHigh
    obtain ⟨semi, hSemi⟩ := h.exists_semidominator (Nat.zero_lt_of_lt hLt)
      (h.ne_root (h.visited hAbove hNode) hLt)
    exact (hLe x semi hx hLt hSemi).trans (hSemi.least hy hHigh)

/-! ## How semidominators are found -/

/-- A node from which a high path leads to `node` is its semidominator if it has no larger number
than any predecessor with a smaller number, nor than any semidominator of what lies above a
predecessor and has a larger number. -/
theorem isSemidominator_of_predecessors (h : IsSearchTree g root number parent)
    (hNode : 0 < number node) (hNe : node ≠ root)
    (hHigh : semi = node ∨ 0 < number semi ∧ HighPath g number node semi)
    (hLow : ∀ p, g.Adj p node → 0 < number p → number p ≤ number node → number semi ≤ number p)
    (hUp : ∀ p x s, g.Adj p node → number node < number p → IsAncestor parent p x →
      number node < number x → IsSemidominator g number x s → number semi ≤ number s) :
    IsSemidominator g number node semi := by
  have hLt : number semi < number node := by
    obtain ⟨above, hParent⟩ := h.exists_parent hNode hNe
    obtain ⟨hPos, hLt⟩ := h.number_parent hParent
    exact lt_of_le_of_lt (hLow above (h.adj_parent hParent) hPos hLt.le) hLt
  obtain ⟨hPos, hHigh⟩ := hHigh.resolve_left fun hEq => by
    rw [hEq] at hLt
    exact lt_irrefl _ hLt
  refine ⟨hPos, hHigh, fun {y} hy hyHigh => ?_⟩
  rcases hyHigh.cases_last with hAdj | ⟨last, hLast, hNumber, hSteps⟩
  · by_cases hLe : number y ≤ number node
    · exact hLow y hAdj hy hLe
    · omega
  · obtain ⟨x, hx, hBound, hxHigh⟩ := h.exists_high hSteps
    obtain ⟨s, hs⟩ :=
      h.exists_semidominator (Nat.zero_lt_of_lt hBound) (h.ne_root hNode hBound)
    exact (hUp last x s hLast hNumber hx hBound hs).trans (hs.least hy hxHigh)

/-- The semidominator of what lies above a predecessor and has a larger number than the node starts
a high path to the node. -/
theorem high_of_predecessor (h : IsSearchTree g root number parent) {p : Nat} (hAdj : g.Adj p node)
    (hp : 0 < number p) (hx : IsAncestor parent p x) (hLt : number node < number x)
    (hSemi : IsSemidominator g number x semi) : HighPath g number node semi := by
  -- from `x` down the tree to the predecessor, and from there to the node
  obtain ⟨nodes, hPath, hOn⟩ := h.exists_path hx hp
  have hDown := hPath.reflTransGen (P := fun z => number node < number z) fun z hz =>
    lt_of_lt_of_le hLt (h.number_le (hOn z (List.mem_of_mem_tail hz)).2)
  exact hSemi.high.trans hLt (.prepend hDown (.edge hAdj))

end IsSearchTree

/-! ## Relative dominators -/

/-- Of the nodes between `node` and its semidominator `semi`, and `node` itself, `best` is one whose
own semidominator `bestSemi` has the least number. -/
structure LeastBetween (g : Digraph α) (number : Nat → Nat) (parent : Nat → Option Nat)
    (node semi best bestSemi : Nat) : Prop where
  isSemi : IsSemidominator g number node semi
  between : IsAncestor parent node best
  below : number semi < number best
  isBestSemi : IsSemidominator g number best bestSemi
  least : ∀ {x s}, IsAncestor parent node x → number semi < number x →
    IsSemidominator g number x s → number bestSemi ≤ number s

/-- `relative` is the semidominator of a node if that is the least one of those between, and
otherwise a node with the least one. -/
def IsRelativeDominator (g : Digraph α) (number : Nat → Nat) (parent : Nat → Option Nat)
    (node relative : Nat) : Prop :=
  ∃ semi best bestSemi, LeastBetween g number parent node semi best bestSemi ∧
    relative = if bestSemi = semi then semi else best

namespace LeastBetween

variable {node semi best bestSemi above : Nat}

/-- A strict dominator of a node is its semidominator or above it. -/
theorem ancestor_of_strictlyDominates (h : IsSearchTree g root number parent)
    (hNode : 0 < number node) (hNe : node ≠ root) (hSemi : IsSemidominator g number node semi)
    (hStrict : g.StrictlyDominates root above node) : IsAncestor parent semi above := by
  have hAbove := h.ancestor_of_dominates hNode hStrict.2
  have hLe : number above ≤ number semi :=
    (h.dominates_iff_semi hNode hAbove).mp hStrict.2 node semi .refl
      (h.number_lt hAbove hNode hStrict.1) hSemi
  exact h.ancestor_of_le hAbove (h.semidominator_ancestor hNode hNe hSemi) hNode hLe

theorem ne_root (hBetween : LeastBetween g number parent node semi best bestSemi)
    (h : GrowingTree g root number parent) : best ≠ root :=
  h.ne_root hBetween.isSemi.visited hBetween.below

/-- If no semidominator between a node and its own is smaller, its own is its immediate
dominator. -/
theorem isImmediate_semi (hBetween : LeastBetween g number parent node semi best semi)
    (h : IsSearchTree g root number parent) (hNode : 0 < number node) (hNe : node ≠ root) :
    g.IsImmediateDominator root semi node := by
  have hUp := h.semidominator_ancestor hNode hNe hBetween.isSemi
  have hLt := h.semidominator_lt hNode hNe hBetween.isSemi
  refine ⟨⟨?_, ?_⟩, fun other hOther => ?_⟩
  · rintro rfl
    exact lt_irrefl _ hLt
  · rw [h.dominates_iff_semi hNode hUp]
    exact fun x s hx hxLt hs => hBetween.least hx hxLt hs
  · -- the nodes between `other` and `semi` are between `other` and `node`
    have hAbove := ancestor_of_strictlyDominates h hNode hNe hBetween.isSemi hOther
    rw [h.dominates_iff_semi hBetween.isSemi.visited hAbove]
    intro x s hx hxLt hs
    exact (h.dominates_iff_semi hNode (hUp.trans hAbove)).mp hOther.2 x s (hUp.trans hx) hxLt hs

/-- A node between a node and its semidominator that has the least semidominator has the same strict
dominators. -/
theorem strictlyDominates_iff (hBetween : LeastBetween g number parent node semi best bestSemi)
    (h : IsSearchTree g root number parent) (hNode : 0 < number node) (hNe : node ≠ root) :
    g.StrictlyDominates root above best ↔ g.StrictlyDominates root above node := by
  have hUp := h.semidominator_ancestor hNode hNe hBetween.isSemi
  have hBest : 0 < number best := Nat.zero_lt_of_lt hBetween.below
  have hSemiBest : IsAncestor parent best semi :=
    h.ancestor_of_le hUp hBetween.between hNode hBetween.below.le
  constructor
  · intro hStrict
    -- a strict dominator of `best` is above the least semidominator
    have hAbove := ancestor_of_strictlyDominates h hBest (hBetween.ne_root h.toGrowingTree)
      hBetween.isBestSemi hStrict
    have hAboveBest := h.ancestor_of_dominates hBest hStrict.2
    have hLe := h.number_le hAbove
    have hAboveNode := hBetween.between.trans hAboveBest
    refine ⟨?_, ?_⟩
    · rintro rfl
      have := h.number_lt hAboveBest hBest hStrict.1
      have := h.number_le hBetween.between
      omega
    · rw [h.dominates_iff_semi hNode hAboveNode]
      intro x s hx hxLt hs
      by_cases hxSemi : number semi < number x
      · exact hLe.trans (hBetween.least hx hxSemi hs)
      · -- `x` is at or above `semi`, so it is above `best`
        have hxUp : IsAncestor parent semi x := h.ancestor_of_le hx hUp hNode (not_lt.mp hxSemi)
        exact (h.dominates_iff_semi hBest hAboveBest).mp hStrict.2 x s (hSemiBest.trans hxUp)
          hxLt hs
  · intro hStrict
    have hAbove := ancestor_of_strictlyDominates h hNode hNe hBetween.isSemi hStrict
    have hLe := h.number_le hAbove
    refine ⟨?_, ?_⟩
    · rintro rfl
      have := hBetween.below
      omega
    · rw [h.dominates_iff_semi hBest (hSemiBest.trans hAbove)]
      intro x s hx hxLt hs
      exact (h.dominates_iff_semi hNode (hUp.trans hAbove)).mp hStrict.2 x s
        (hBetween.between.trans hx) hxLt hs

/-- So it has the same immediate dominator. -/
theorem isImmediate_of_best (hBetween : LeastBetween g number parent node semi best bestSemi)
    (h : IsSearchTree g root number parent) (hNode : 0 < number node) (hNe : node ≠ root)
    (hImmediate : g.IsImmediateDominator root above best) :
    g.IsImmediateDominator root above node :=
  ⟨(hBetween.strictlyDominates_iff h hNode hNe).mp hImmediate.1, fun other hOther =>
    hImmediate.2 other ((hBetween.strictlyDominates_iff h hNode hNe).mpr hOther)⟩

end LeastBetween

/-- What the relative dominator of a node says about its immediate dominator: it is that one if it
is the semidominator, and otherwise a node with a smaller number that has the same one. -/
theorem IsSearchTree.immediate_of_relative (h : IsSearchTree g root number parent)
    {node semi relative : Nat} (hNode : 0 < number node) (hNe : node ≠ root)
    (hSemi : IsSemidominator g number node semi)
    (hRelative : IsRelativeDominator g number parent node relative) :
    (relative = semi → g.IsImmediateDominator root relative node) ∧
      (relative ≠ semi → 0 < number relative ∧ relative ≠ root ∧ number relative < number node ∧
        ∀ above, g.IsImmediateDominator root above relative →
          g.IsImmediateDominator root above node) := by
  obtain ⟨semi', best, bestSemi, hBetween, rfl⟩ := hRelative
  obtain rfl := hSemi.unique h.toGrowingTree hBetween.isSemi
  by_cases hSame : bestSemi = semi'
  · subst hSame
    rw [if_pos rfl]
    exact ⟨fun _ => hBetween.isImmediate_semi h hNode hNe, fun hNot => absurd rfl hNot⟩
  · rw [if_neg hSame]
    have hBelow := hBetween.below
    refine ⟨?_, fun _ => ⟨Nat.zero_lt_of_lt hBelow, hBetween.ne_root h.toGrowingTree, ?_,
      fun above => hBetween.isImmediate_of_best h hNode hNe⟩⟩
    · rintro rfl
      omega
    · refine h.number_lt hBetween.between hNode ?_
      rintro rfl
      exact hSame (hSemi.unique h.toGrowingTree hBetween.isBestSemi)

end BytecodeFlow
