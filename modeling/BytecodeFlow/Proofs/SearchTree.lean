import BytecodeFlow.Digraph.DominatorSearch
import BytecodeFlow.Proofs.AncestorChains
import BytecodeFlow.Proofs.Reachability

/-!
# Search trees

A depth-first search that visits nodes when it takes them from its stack numbers them so that an
edge to a node with a larger number leads down the tree, and so that the nodes below a node have
consecutive numbers (`IsSearchTree`). `searchTree_spec` says this of the loop.

While the loop runs (`TreeSearch.Sound`), the nodes from which those on the stack were met are
ancestors of the node that was visited last, and the stack lists them from below. A node that is
not visited yet lies on the stack once for each visited node with an edge to it. So the node that
is visited next comes below all of these, and below everything whose numbers it continues.
-/

namespace BytecodeFlow

variable {α : Type} {g : Digraph α} {root : Nat}

/-- The visited nodes have different numbers from one on, and parents that make a tree: an edge to a
larger number leads to a node below, and a number between those of an ancestor and of a node below
it belongs to a node below the ancestor. -/
structure GrowingTree (g : Digraph α) (root : Nat) (number : Nat → Nat)
    (parent : Nat → Option Nat) : Prop where
  root_lt : root < g.size
  root_visited : 0 < number root
  injective : ∀ {a b}, 0 < number a → number a = number b → a = b
  parent_root : parent root = none
  exists_parent : ∀ {node}, 0 < number node → node ≠ root → ∃ above, parent node = some above
  adj_parent : ∀ {node above}, parent node = some above → g.Adj above node
  number_parent : ∀ {node above}, parent node = some above →
    0 < number above ∧ number above < number node
  ancestor_of_adj : ∀ {a b}, g.Adj a b → 0 < number a → number a < number b →
    IsAncestor parent b a
  ancestor_between : ∀ {a b c}, IsAncestor parent c a → 0 < number a → number a ≤ number b →
    number b ≤ number c → IsAncestor parent b a

/-- The same of a search that has come to its end: no edge leads out of the visited nodes. -/
structure IsSearchTree (g : Digraph α) (root : Nat) (number : Nat → Nat)
    (parent : Nat → Option Nat) : Prop extends GrowingTree g root number parent where
  closed : ∀ {a b}, g.Adj a b → 0 < number a → 0 < number b

/-- What is above a node and differs from it is above its parent. -/
theorem IsAncestor.of_parent {parent : Nat → Option Nat} {a b above : Nat}
    (h : IsAncestor parent b a) (hParent : parent b = some above) (hNe : a ≠ b) :
    IsAncestor parent above a := by
  rcases Relation.ReflTransGen.cases_head h with rfl | ⟨next, hNext, hRest⟩
  · exact absurd rfl hNe
  · rw [hParent] at hNext
    cases hNext
    exact hRest

namespace GrowingTree

variable {number : Nat → Nat} {parent : Nat → Option Nat} {a b : Nat}

theorem number_le (h : GrowingTree g root number parent) (hAbove : IsAncestor parent b a) :
    number a ≤ number b := by
  induction hAbove with
  | refl => exact le_refl _
  | tail _ hParent ih => exact le_trans (h.number_parent hParent).2.le ih

theorem visited (h : GrowingTree g root number parent) (hAbove : IsAncestor parent b a)
    (hb : 0 < number b) : 0 < number a := by
  cases hAbove with
  | refl => exact hb
  | tail _ hParent => exact (h.number_parent hParent).1

theorem number_lt (h : GrowingTree g root number parent) (hAbove : IsAncestor parent b a)
    (hb : 0 < number b) (hNe : a ≠ b) : number a < number b := by
  refine lt_of_le_of_ne (h.number_le hAbove) fun hEq => hNe ?_
  exact h.injective (h.visited hAbove hb) hEq

/-- Of two ancestors of a node the one with the smaller number is above the other. -/
theorem ancestor_of_le (h : GrowingTree g root number parent) {c : Nat}
    (ha : IsAncestor parent c a) (hb : IsAncestor parent c b) (hc : 0 < number c)
    (hLe : number a ≤ number b) : IsAncestor parent b a :=
  h.ancestor_between ha (h.visited ha hc) hLe (h.number_le hb)

theorem lt_size (h : GrowingTree g root number parent) (ha : 0 < number a) : a < g.size := by
  by_cases hRoot : a = root
  · exact hRoot ▸ h.root_lt
  · obtain ⟨above, hParent⟩ := h.exists_parent ha hRoot
    exact (h.adj_parent hParent).target_lt

/-- A node is reached from each of its ancestors along the tree. -/
theorem exists_path (h : GrowingTree g root number parent) (hAbove : IsAncestor parent b a)
    (hb : 0 < number b) : ∃ nodes, g.Path a b nodes ∧
      ∀ x ∈ nodes, IsAncestor parent b x ∧ IsAncestor parent x a := by
  induction hAbove using Relation.ReflTransGen.head_induction_on with
  | refl =>
    refine ⟨[a], .single (h.lt_size hb), fun x hx => ?_⟩
    obtain rfl := List.mem_singleton.mp hx
    exact ⟨.refl, .refl⟩
  | @head b above hParent hRest ih =>
    obtain ⟨nodes, hPath, hOn⟩ := ih (h.number_parent hParent).1
    refine ⟨nodes ++ [b], hPath.snoc (h.adj_parent hParent), fun x hx => ?_⟩
    rcases List.mem_append.mp hx with hx | hx
    · exact ⟨.head hParent (hOn x hx).1, (hOn x hx).2⟩
    · obtain rfl := List.mem_singleton.mp hx
      exact ⟨.refl, .head hParent hRest⟩

theorem root_ancestor (h : GrowingTree g root number parent) (ha : 0 < number a) :
    IsAncestor parent a root := by
  generalize hk : number a = k
  induction k using Nat.strong_induction_on generalizing a with
  | _ k ih =>
    by_cases hRoot : a = root
    · exact hRoot ▸ .refl
    · obtain ⟨above, hParent⟩ := h.exists_parent ha hRoot
      obtain ⟨hPos, hLt⟩ := h.number_parent hParent
      exact .head hParent (ih _ (hk ▸ hLt) hPos rfl)

/-- The root has the smallest number. -/
theorem ne_root (h : GrowingTree g root number parent) (ha : 0 < number a)
    (hLt : number a < number b) : b ≠ root := by
  rintro rfl
  have := h.number_le (h.root_ancestor ha)
  omega

/-- Numbers above a bound that are not the next one are larger than that. -/
theorem succ_lt (h : GrowingTree g root number parent) {bound : Nat} (ha : number a = bound + 1)
    (hb : bound < number b) (hNe : b ≠ a) : bound + 1 < number b := by
  refine lt_of_le_of_ne hb fun hEq => hNe ?_
  exact h.injective (Nat.zero_lt_of_lt hb) (hEq.symm.trans ha.symm)

end GrowingTree

/-! ## Visiting a node -/

namespace SearchTree

variable {tree : SearchTree} {node x a b : Nat} {parent : Option Nat}

theorem number_visit (hNode : node < tree.numbers.size) :
    (tree.visit node parent).number x =
      if x = node then tree.order.size + 1 else tree.number x :=
  Traversal.getD_setIfInBounds hNode _ _ x

theorem parent?_visit (hNode : node < tree.parents.size) :
    (tree.visit node parent).parent? x = if x = node then parent else tree.parent? x :=
  Traversal.getD_setIfInBounds hNode _ _ x

theorem number_empty (size x : Nat) : (empty size).number x = 0 :=
  Traversal.getD_replicate size 0 x

theorem parent?_empty (size x : Nat) : (empty size).parent? x = none :=
  Traversal.getD_replicate size none x

theorem size_order_visit : (tree.visit node parent).order.size = tree.order.size + 1 :=
  Array.size_push node

/-- A node that is visited changes nothing above the others. -/
theorem isAncestor_visit (hNode : node < tree.parents.size) (hFresh : tree.parent? node = none)
    (h : IsAncestor tree.parent? b a) : IsAncestor (tree.visit node parent).parent? b a := by
  refine Relation.ReflTransGen.mono (fun x above hParent => ?_) b a h
  have hNe : x ≠ node := by
    rintro rfl
    rw [hFresh] at hParent
    cases hParent
  rw [parent?_visit hNode, if_neg hNe, hParent]

theorem isAncestor_of_visit (hNode : node < tree.parents.size)
    (hFree : ∀ x above, tree.parent? x = some above → above ≠ node) (hb : b ≠ node)
    (h : IsAncestor (tree.visit node parent).parent? b a) :
    IsAncestor tree.parent? b a ∧ a ≠ node := by
  induction h with
  | refl => exact ⟨.refl, hb⟩
  | @tail x above _ hParent ih =>
    obtain ⟨hAbove, hNe⟩ := ih
    rw [parent?_visit hNode, if_neg hNe] at hParent
    exact ⟨hAbove.tail hParent, hFree x above hParent⟩

end SearchTree

/-- A node can be visited from `above`: that lies above the node that was visited last, and below
all visited nodes with an edge to the new node. -/
structure CanVisit (g : Digraph α) (root : Nat) (tree : SearchTree) (node above last : Nat) :
    Prop extends GrowingTree g root tree.number tree.parent? where
  numbers_lt : node < tree.numbers.size
  parents_lt : node < tree.parents.size
  fresh : tree.number node = 0
  number_le_size : ∀ x, tree.number x ≤ tree.order.size
  adj : g.Adj above node
  number_last : tree.number last = tree.order.size
  above_last : IsAncestor tree.parent? last above
  met : ∀ a, g.Adj a node → 0 < tree.number a → IsAncestor tree.parent? above a

namespace CanVisit

variable {tree : SearchTree} {node above last a b c x : Nat}

theorem ne_node (h : CanVisit g root tree node above last) (hx : 0 < tree.number x) :
    x ≠ node := by
  rintro rfl
  have := h.fresh
  omega

theorem above_visited (h : CanVisit g root tree node above last) : 0 < tree.number above := by
  refine h.visited h.above_last ?_
  rw [h.number_last]
  exact lt_of_lt_of_le h.root_visited (h.number_le_size root)

theorem number_node (h : CanVisit g root tree node above last) :
    (tree.visit node (some above)).number node = tree.order.size + 1 := by
  rw [SearchTree.number_visit h.numbers_lt, if_pos rfl]

theorem number_of_ne (h : CanVisit g root tree node above last) (hNe : x ≠ node) :
    (tree.visit node (some above)).number x = tree.number x := by
  rw [SearchTree.number_visit h.numbers_lt, if_neg hNe]

theorem parent_node (h : CanVisit g root tree node above last) :
    (tree.visit node (some above)).parent? node = some above := by
  rw [SearchTree.parent?_visit h.parents_lt, if_pos rfl]

theorem parent_of_ne (h : CanVisit g root tree node above last) (hNe : x ≠ node) :
    (tree.visit node (some above)).parent? x = tree.parent? x := by
  rw [SearchTree.parent?_visit h.parents_lt, if_neg hNe]

/-- What is visited already keeps its ancestors. -/
theorem keeps (h : CanVisit g root tree node above last) (hb : IsAncestor tree.parent? b a) :
    IsAncestor (tree.visit node (some above)).parent? b a := by
  refine SearchTree.isAncestor_visit h.parents_lt ?_ hb
  cases hParent : tree.parent? node with
  | none => rfl
  | some p => exact absurd rfl (h.ne_node (lt_trans (h.number_parent hParent).1
      (h.number_parent hParent).2))

theorem of_keeps (h : CanVisit g root tree node above last) (hb : b ≠ node)
    (hAbove : IsAncestor (tree.visit node (some above)).parent? b a) :
    IsAncestor tree.parent? b a ∧ a ≠ node :=
  SearchTree.isAncestor_of_visit h.parents_lt
    (fun _ _ hParent => h.ne_node (h.number_parent hParent).1) hb hAbove

/-- The new node is below what its parent is below. -/
theorem below (h : CanVisit g root tree node above last) (ha : IsAncestor tree.parent? above a) :
    IsAncestor (tree.visit node (some above)).parent? node a :=
  .head h.parent_node (h.keeps ha)

theorem visit_injective (h : CanVisit g root tree node above last)
    (ha : 0 < (tree.visit node (some above)).number a)
    (hEq : (tree.visit node (some above)).number a = (tree.visit node (some above)).number b) :
    a = b := by
  have hLea := h.number_le_size a
  have hLeb := h.number_le_size b
  by_cases haNode : a = node <;> by_cases hbNode : b = node
  · rw [haNode, hbNode]
  · rw [haNode, h.number_node, h.number_of_ne hbNode] at hEq
    omega
  · rw [hbNode, h.number_node, h.number_of_ne haNode] at hEq
    omega
  · rw [h.number_of_ne haNode, h.number_of_ne hbNode] at hEq
    rw [h.number_of_ne haNode] at ha
    exact h.injective ha hEq

/-- The new node is the last one. -/
theorem eq_node (h : CanVisit g root tree node above last)
    (hx : (tree.visit node (some above)).number x = tree.order.size + 1) : x = node := by
  refine h.visit_injective ?_ (hx.trans h.number_node.symm)
  omega

theorem order_visit_iff (h : CanVisit g root tree node above last)
    (hOrder : ∀ i x, tree.order[i]? = some x ↔ tree.number x = i + 1) (i : Nat) :
    (tree.visit node (some above)).order[i]? = some x ↔
      (tree.visit node (some above)).number x = i + 1 := by
  have hPush : (tree.visit node (some above)).order[i]? =
      if i = tree.order.size then some node else tree.order[i]? := Array.getElem?_push
  rw [hPush]
  by_cases hi : i = tree.order.size
  · rw [if_pos hi, hi]
    constructor
    · intro hEq
      cases hEq
      exact h.number_node
    · intro hNumber
      rw [h.eq_node hNumber]
  · rw [if_neg hi, hOrder]
    by_cases hx : x = node
    · rw [hx, h.fresh, h.number_node]
      omega
    · rw [h.number_of_ne hx]

theorem visit_parent (h : CanVisit g root tree node above last)
    (hParent : (tree.visit node (some above)).parent? b = some a) :
    g.Adj a b ∧ 0 < (tree.visit node (some above)).number a ∧
      (tree.visit node (some above)).number a < (tree.visit node (some above)).number b := by
  by_cases hbNode : b = node
  · rw [hbNode, h.parent_node] at hParent
    cases hParent
    rw [hbNode, h.number_node, h.number_of_ne (h.ne_node h.above_visited)]
    exact ⟨h.adj, h.above_visited, Nat.lt_succ_of_le (h.number_le_size above)⟩
  · rw [h.parent_of_ne hbNode] at hParent
    obtain ⟨hPos, hLt⟩ := h.number_parent hParent
    rw [h.number_of_ne hbNode, h.number_of_ne (h.ne_node hPos)]
    exact ⟨h.adj_parent hParent, hPos, hLt⟩

/-- An edge to the new node comes from above its parent. -/
theorem visit_ancestor_of_adj (h : CanVisit g root tree node above last) (hAdj : g.Adj a b)
    (ha : 0 < (tree.visit node (some above)).number a)
    (hLt : (tree.visit node (some above)).number a < (tree.visit node (some above)).number b) :
    IsAncestor (tree.visit node (some above)).parent? b a := by
  have haNode : a ≠ node := by
    rintro rfl
    have hLeb := h.number_le_size b
    by_cases hbNode : b = a
    · rw [hbNode] at hLt
      exact lt_irrefl _ hLt
    · rw [h.number_node, h.number_of_ne hbNode] at hLt
      omega
  rw [h.number_of_ne haNode] at ha hLt
  by_cases hbNode : b = node
  · rw [hbNode] at hAdj ⊢
    exact h.below (h.met a hAdj ha)
  · rw [h.number_of_ne hbNode] at hLt
    exact h.keeps (h.ancestor_of_adj hAdj ha hLt)

/-- The number of the new node follows that of the last one, so whatever lies between an ancestor
of the new node and the new node lies between that ancestor and the last node. -/
theorem visit_ancestor_between (h : CanVisit g root tree node above last)
    (hca : IsAncestor (tree.visit node (some above)).parent? c a)
    (ha : 0 < (tree.visit node (some above)).number a)
    (hab : (tree.visit node (some above)).number a ≤ (tree.visit node (some above)).number b)
    (hbc : (tree.visit node (some above)).number b ≤ (tree.visit node (some above)).number c) :
    IsAncestor (tree.visit node (some above)).parent? b a := by
  by_cases hcNode : c = node
  · subst hcNode
    by_cases haNode : a = c
    · have hEq : b = a := by
        refine h.visit_injective (lt_of_lt_of_le ha hab) (le_antisymm ?_ hab)
        rw [haNode]
        exact hbc
      exact hEq ▸ .refl
    · by_cases hbNode : b = c
      · exact hbNode ▸ hca
      · obtain ⟨hUp, -⟩ := h.of_keeps (h.ne_node h.above_visited)
          (IsAncestor.of_parent hca h.parent_node haNode)
        rw [h.number_of_ne haNode] at ha hab
        rw [h.number_of_ne hbNode] at hab
        refine h.keeps (h.ancestor_between (h.above_last.trans hUp) ha hab ?_)
        rw [h.number_last]
        exact h.number_le_size b
  · obtain ⟨hUp, haNode⟩ := h.of_keeps hcNode hca
    have hbNode : b ≠ node := by
      rintro rfl
      rw [h.number_node, h.number_of_ne hcNode] at hbc
      have := h.number_le_size c
      omega
    rw [h.number_of_ne haNode] at ha hab
    rw [h.number_of_ne hbNode] at hab hbc
    rw [h.number_of_ne hcNode] at hbc
    exact h.keeps (h.ancestor_between hUp ha hab hbc)

/-- The tree with the new node is a search tree again. -/
theorem visit (h : CanVisit g root tree node above last) :
    GrowingTree g root (tree.visit node (some above)).number
      (tree.visit node (some above)).parent? where
  root_lt := h.root_lt
  root_visited := by
    rw [h.number_of_ne (h.ne_node h.root_visited)]
    exact h.root_visited
  injective := h.visit_injective
  parent_root := by
    rw [h.parent_of_ne (h.ne_node h.root_visited)]
    exact h.parent_root
  exists_parent := by
    intro x hx hRoot
    by_cases hNode : x = node
    · exact ⟨above, hNode ▸ h.parent_node⟩
    · rw [h.number_of_ne hNode] at hx
      rw [h.parent_of_ne hNode]
      exact h.exists_parent hx hRoot
  adj_parent := fun hParent => (h.visit_parent hParent).1
  number_parent := fun hParent => (h.visit_parent hParent).2
  ancestor_of_adj := h.visit_ancestor_of_adj
  ancestor_between := h.visit_ancestor_between

end CanVisit

/-! ## The loop -/

namespace TreeSearch

/-- What holds after the root was visited. -/
structure Sound (g : Digraph α) (root : Nat) (search : TreeSearch) : Prop extends
    GrowingTree g root search.tree.number search.tree.parent? where
  numbers_size : search.tree.numbers.size = g.size
  parents_size : search.tree.parents.size = g.size
  order_iff : ∀ i node, search.tree.order[i]? = some node ↔ search.tree.number node = i + 1
  number_root : search.tree.number root = 1
  /-- what is on the stack was met from an ancestor of the node that was visited last -/
  met : ∀ entry ∈ search.stack, ∃ above, entry.2 = some above ∧ g.Adj above entry.1 ∧
    ∀ last, search.tree.number last = search.tree.order.size →
      IsAncestor search.tree.parent? last above
  /-- nodes deeper on the stack were met from higher in the tree -/
  sorted : search.stack.Pairwise fun entry deeper => ∀ above higher, entry.2 = some above →
    deeper.2 = some higher → IsAncestor search.tree.parent? above higher
  /-- no edge out of a visited node is forgotten -/
  pending : ∀ {a b}, g.Adj a b → 0 < search.tree.number a → search.tree.number b = 0 →
    (b, some a) ∈ search.stack

/-- The numbers are those of the order in which nodes were visited. -/
theorem Sound.number_le_size {search : TreeSearch} (h : Sound g root search) (node : Nat) :
    search.tree.number node ≤ search.tree.order.size := by
  rcases Nat.eq_zero_or_pos (search.tree.number node) with hZero | hPos
  · omega
  · have hNumber : search.tree.number node = search.tree.number node - 1 + 1 := by omega
    have hLt := (Array.getElem?_eq_some_iff.mp ((h.order_iff _ node).mpr hNumber)).1
    omega

theorem Sound.exists_last {search : TreeSearch} (h : Sound g root search) :
    ∃ last, search.tree.number last = search.tree.order.size := by
  have hRoot := (Array.getElem?_eq_some_iff.mp ((h.order_iff 0 root).mpr h.number_root)).1
  refine ⟨search.tree.order[search.tree.order.size - 1], ?_⟩
  have hLast := (h.order_iff (search.tree.order.size - 1) _).mp
    (Array.getElem?_eq_some_iff.mpr ⟨by omega, rfl⟩)
  omega

/-- What the loop does with the node on top of its stack. -/
theorem step_cases {search after : TreeSearch} (hStep : step g search = some after) :
    ∃ node parent stack, search.stack = (node, parent) :: stack ∧
      ((0 < search.tree.number node ∧ after = ⟨stack, search.tree⟩) ∨
        (search.tree.number node = 0 ∧
          after = ⟨((g.successors node).filter fun next =>
              (search.tree.visit node parent).number next == 0).map
                (fun next => (next, some node)) ++ stack, search.tree.visit node parent⟩)) := by
  obtain ⟨stack, tree⟩ := search
  match stack, hStep with
  | (node, parent) :: stack, hStep =>
    refine ⟨node, parent, stack, rfl, ?_⟩
    rw [step] at hStep
    split at hStep
    · rename_i hVisited
      exact Or.inl ⟨Nat.pos_of_ne_zero hVisited, (Option.some.inj hStep).symm⟩
    · rename_i hFresh
      exact Or.inr ⟨not_not.mp hFresh, (Option.some.inj hStep).symm⟩

namespace Sound

variable {search : TreeSearch} {node : Nat} {parent : Option Nat} {stack : List (Nat × Option Nat)}

/-- The node on top of the stack can be visited. -/
theorem exists_canVisit (h : Sound g root search) (hStack : search.stack = (node, parent) :: stack)
    (hFresh : search.tree.number node = 0) :
    ∃ above last, parent = some above ∧ CanVisit g root search.tree node above last ∧
      ∀ entry ∈ stack, ∀ higher, entry.2 = some higher →
        IsAncestor search.tree.parent? above higher := by
  obtain ⟨last, hLast⟩ := h.exists_last
  obtain ⟨above, rfl, hAdj, hUp⟩ := h.met (node, parent) (hStack ▸ List.mem_cons_self)
  have hSorted : ∀ entry ∈ stack, ∀ higher, entry.2 = some higher →
      IsAncestor search.tree.parent? above higher := by
    intro entry hEntry higher hHigher
    have hAll := h.sorted
    rw [hStack, List.pairwise_cons] at hAll
    exact hAll.1 entry hEntry above higher rfl hHigher
  refine ⟨above, last, rfl, ⟨h.toGrowingTree, ?_, ?_, hFresh, h.number_le_size, hAdj, hLast,
    hUp last hLast, ?_⟩, hSorted⟩
  · exact h.numbers_size ▸ hAdj.target_lt
  · exact h.parents_size ▸ hAdj.target_lt
  · intro a haAdj ha
    have hMem := h.pending haAdj ha hFresh
    rw [hStack] at hMem
    rcases List.mem_cons.mp hMem with hEq | hMem
    · cases hEq
      exact .refl
    · exact hSorted _ hMem a rfl

/-- A node that was visited before is dropped. -/
theorem skip (h : Sound g root search) (hStack : search.stack = (node, parent) :: stack)
    (hVisited : 0 < search.tree.number node) : Sound g root ⟨stack, search.tree⟩ := by
  refine { h with
    met := fun entry hEntry => h.met entry (hStack ▸ List.mem_cons_of_mem _ hEntry)
    sorted := ?_
    pending := ?_ }
  · have hAll := h.sorted
    rw [hStack] at hAll
    exact hAll.of_cons
  · intro a b hAdj ha hb
    have hMem := h.pending hAdj ha hb
    rw [hStack] at hMem
    rcases List.mem_cons.mp hMem with hEq | hMem
    · cases hEq
      exact absurd hb hVisited.ne'
    · exact hMem

/-- A new node is visited, and its successors come on top of the stack. -/
theorem visit (h : Sound g root search) (hStack : search.stack = (node, parent) :: stack)
    (hFresh : search.tree.number node = 0) :
    Sound g root ⟨((g.successors node).filter fun next =>
        (search.tree.visit node parent).number next == 0).map (fun next => (next, some node)) ++
      stack, search.tree.visit node parent⟩ := by
  obtain ⟨above, last, rfl, hVisit, hHigher⟩ := h.exists_canVisit hStack hFresh
  have hMet : ∀ entry ∈ stack, ∃ higher, entry.2 = some higher ∧ g.Adj higher entry.1 ∧
      IsAncestor (search.tree.visit node (some above)).parent? node higher := by
    intro entry hEntry
    obtain ⟨higher, hEq, hAdj, -⟩ := h.met entry (hStack ▸ List.mem_cons_of_mem _ hEntry)
    exact ⟨higher, hEq, hAdj, hVisit.below (hHigher entry hEntry higher hEq)⟩
  refine
    { toGrowingTree := hVisit.visit
      numbers_size := by simpa [SearchTree.visit] using h.numbers_size
      parents_size := by simpa [SearchTree.visit] using h.parents_size
      order_iff := fun i x => hVisit.order_visit_iff h.order_iff i
      number_root := ?_
      met := ?_
      sorted := ?_
      pending := ?_ }
  · rw [hVisit.number_of_ne (hVisit.ne_node h.root_visited)]
    exact h.number_root
  · intro entry hEntry
    rcases List.mem_append.mp hEntry with hEntry | hEntry
    · obtain ⟨next, hNext, rfl⟩ := List.mem_map.mp hEntry
      refine ⟨node, rfl, Digraph.mem_successors.mp (List.mem_filter.mp hNext).1, fun x hx => ?_⟩
      rw [hVisit.eq_node (hx.trans SearchTree.size_order_visit)]
    · obtain ⟨higher, hEq, hAdj, hUp⟩ := hMet entry hEntry
      refine ⟨higher, hEq, hAdj, fun x hx => ?_⟩
      rw [hVisit.eq_node (hx.trans SearchTree.size_order_visit)]
      exact hUp
  · refine List.pairwise_append.mpr ⟨?_, ?_, ?_⟩
    · rw [List.pairwise_map]
      refine List.pairwise_of_forall fun x y higher lower hx hy => ?_
      cases hx
      cases hy
      exact .refl
    · have hAll := h.sorted
      rw [hStack] at hAll
      refine hAll.of_cons.imp fun hUp lower higher hLower hHigher => ?_
      exact hVisit.keeps (hUp lower higher hLower hHigher)
    · intro entry hEntry deeper hDeeper lower higher hLower hHigher
      obtain ⟨next, -, rfl⟩ := List.mem_map.mp hEntry
      cases hLower
      obtain ⟨higher', hEq, -, hUp⟩ := hMet deeper hDeeper
      rw [hEq] at hHigher
      cases hHigher
      exact hUp
  · intro a b hAdj ha hb
    by_cases haNode : a = node
    · subst haNode
      refine List.mem_append_left _ (List.mem_map.mpr ⟨b, ?_, rfl⟩)
      exact List.mem_filter.mpr ⟨Digraph.mem_successors.mpr hAdj, by simpa using hb⟩
    · have hbNode : b ≠ node := by
        rintro rfl
        rw [hVisit.number_node] at hb
        omega
      rw [hVisit.number_of_ne haNode] at ha
      rw [hVisit.number_of_ne hbNode] at hb
      have hMem := h.pending hAdj ha hb
      rw [hStack] at hMem
      rcases List.mem_cons.mp hMem with hEq | hMem
      · cases hEq
        exact absurd rfl hbNode
      · exact List.mem_append_right _ hMem

theorem step (h : Sound g root search) {after : TreeSearch}
    (hStep : TreeSearch.step g search = some after) : Sound g root after := by
  obtain ⟨node, parent, stack, hStack, hCase⟩ := step_cases hStep
  rcases hCase with ⟨hVisited, rfl⟩ | ⟨hFresh, rfl⟩
  · exact h.skip hStack hVisited
  · exact h.visit hStack hFresh

/-- Every node is visited once. -/
theorem size_order_le (h : Sound g root search) : search.tree.order.size ≤ g.size := by
  have hGet : ∀ i < search.tree.order.size, ∃ x, search.tree.order[i]? = some x ∧
      search.tree.number x = i + 1 := by
    intro i hi
    have hSome : search.tree.order[i]? = some search.tree.order[i] :=
      Array.getElem?_eq_some_iff.mpr ⟨hi, rfl⟩
    exact ⟨_, hSome, (h.order_iff i _).mp hSome⟩
  have hCard := Finset.card_le_card_of_injOn (s := Finset.range search.tree.order.size)
    (t := Finset.range g.size) (fun i => search.tree.order[i]?.getD 0) ?_ ?_
  · simpa using hCard
  · intro i hi
    obtain ⟨x, hSome, hNumber⟩ := hGet i (by simpa using hi)
    have hLt : x < g.size := h.lt_size (by omega)
    simpa [hSome] using hLt
  · intro i hi j hj hEq
    obtain ⟨x, hx, hxNumber⟩ := hGet i (by simpa using hi)
    obtain ⟨y, hy, hyNumber⟩ := hGet j (by simpa using hj)
    simp only [hx, hy, Option.getD_some] at hEq
    rw [hEq] at hxNumber
    omega

end Sound

/-- The tree of the root alone. -/
theorem growingTree_root (hRoot : root < g.size) :
    (∀ x, ((SearchTree.empty g.size).visit root none).number x = if x = root then 1 else 0) ∧
      GrowingTree g root ((SearchTree.empty g.size).visit root none).number
        ((SearchTree.empty g.size).visit root none).parent? := by
  have hNumber : ∀ x, ((SearchTree.empty g.size).visit root none).number x =
      if x = root then 1 else 0 := by
    intro x
    rw [SearchTree.number_visit (by simpa [SearchTree.empty] using hRoot),
      SearchTree.number_empty]
    rfl
  have hParent : ∀ x above,
      ((SearchTree.empty g.size).visit root none).parent? x ≠ some above := by
    intro x above
    rw [SearchTree.parent?_visit (by simpa [SearchTree.empty] using hRoot),
      SearchTree.parent?_empty, ite_self]
    exact (Option.some_ne_none above).symm
  have hPos : ∀ {x}, 0 < ((SearchTree.empty g.size).visit root none).number x → x = root := by
    intro x hx
    by_contra hNe
    rw [hNumber, if_neg hNe] at hx
    omega
  refine ⟨hNumber, hRoot, ?_, ?_, ?_, ?_, ?_, ?_, ?_, ?_⟩
  · rw [hNumber, if_pos rfl]
    omega
  · intro a b ha hEq
    exact (hPos ha).trans (hPos (hEq ▸ ha)).symm
  · exact Option.eq_none_iff_forall_ne_some.mpr fun above => hParent root above
  · intro x hx hNe
    exact absurd (hPos hx) hNe
  · intro x above hx
    exact absurd hx (hParent x above)
  · intro x above hx
    exact absurd hx (hParent x above)
  · intro a b _ ha hLt
    have hb := hPos (lt_trans ha hLt)
    rw [hPos ha, hb] at hLt
    exact absurd hLt (lt_irrefl _)
  · intro a b c _ ha hab _
    have hb := hPos (lt_of_lt_of_le ha hab)
    rw [hPos ha, hb]

/-- The root is visited first, and its successors come on the stack. -/
theorem exists_first (hRoot : root < g.size) :
    ∃ first, step g (.start g.size root) = some first ∧ Sound g root first := by
  obtain ⟨hNumber, hTree⟩ := growingTree_root hRoot
  have hOne : ((SearchTree.empty g.size).visit root none).order = #[root] := rfl
  refine ⟨⟨((g.successors root).filter fun next =>
      ((SearchTree.empty g.size).visit root none).number next == 0).map
        (fun next => (next, some root)), (SearchTree.empty g.size).visit root none⟩, ?_,
    { toGrowingTree := hTree
      numbers_size := by simp [SearchTree.visit, SearchTree.empty]
      parents_size := by simp [SearchTree.visit, SearchTree.empty]
      order_iff := ?_
      number_root := by rw [hNumber, if_pos rfl]
      met := ?_
      sorted := ?_
      pending := ?_ }⟩
  · simp [step, start, SearchTree.number_empty]
  · intro i x
    rw [hNumber, hOne]
    cases i with
    | zero =>
      by_cases hx : x = root
      · simp [hx]
      · simp [hx, Ne.symm hx]
    | succ i =>
      rw [Array.getElem?_eq_none (by simp)]
      by_cases hx : x = root <;> simp [hx]
  · intro entry hEntry
    obtain ⟨next, hNext, rfl⟩ := List.mem_map.mp hEntry
    refine ⟨root, rfl, Digraph.mem_successors.mp (List.mem_filter.mp hNext).1, fun x hx => ?_⟩
    have hxRoot : x = root := by
      by_contra hNe
      rw [hNumber, if_neg hNe, hOne] at hx
      cases hx
    rw [hxRoot]
  · rw [List.pairwise_map]
    refine List.pairwise_of_forall fun x y higher lower hx hy => ?_
    cases hx
    cases hy
    exact .refl
  · intro a b hAdj ha hb
    have haRoot : a = root := by
      by_contra hNe
      rw [hNumber, if_neg hNe] at ha
      omega
    subst haRoot
    refine List.mem_map.mpr ⟨b, ?_, rfl⟩
    exact List.mem_filter.mpr ⟨Digraph.mem_successors.mpr hAdj, by simpa using hb⟩

/-- What is left to do: every node that is not visited yet may put a node on the stack for each
edge. -/
def work (g : Digraph α) (search : TreeSearch) : Nat :=
  (g.size - search.tree.order.size) * (g.edges.size + 1) + search.stack.length

theorem work_step_lt {search after : TreeSearch} (hStep : step g search = some after)
    (hSize : after.tree.order.size ≤ g.size) : work g after < work g search := by
  obtain ⟨node, parent, stack, hStack, ⟨-, rfl⟩ | ⟨-, rfl⟩⟩ := step_cases hStep
  · simp [work, hStack]
  · rw [SearchTree.size_order_visit] at hSize
    obtain ⟨rest, hRest⟩ : ∃ rest, g.size - search.tree.order.size = rest + 1 :=
      ⟨g.size - search.tree.order.size - 1, by omega⟩
    have hLater : g.size - (search.tree.order.size + 1) = rest := by omega
    have hNew : ((g.successors node).filter fun next =>
        (search.tree.visit node parent).number next == 0).length ≤ g.edges.size :=
      (List.length_filter_le _ _).trans (g.length_successors_le node)
    simp only [work, hStack, SearchTree.size_order_visit, hLater, hRest, List.length_append,
      List.length_map, List.length_cons, Nat.succ_mul]
    omega

theorem stack_eq_nil {search : TreeSearch} (hStop : step g search = none) : search.stack = [] := by
  obtain ⟨stack, tree⟩ := search
  match stack, hStop with
  | [], _ => rfl
  | (node, parent) :: stack, hStop =>
    rw [step] at hStop
    split at hStop <;> cases hStop

/-- With nothing left on the stack, no edge leads out of the visited nodes. -/
theorem Sound.isSearchTree {search : TreeSearch} (h : Sound g root search)
    (hStack : search.stack = []) :
    IsSearchTree g root search.tree.number search.tree.parent? where
  toGrowingTree := h.toGrowingTree
  closed := by
    intro a b hAdj ha
    refine Nat.pos_of_ne_zero fun hb => ?_
    have hMem := h.pending hAdj ha hb
    rw [hStack] at hMem
    cases hMem

end TreeSearch

/-! ## The finished tree -/

/-- The loop ends with the stack empty, at a search tree whose order lists the nodes by their
numbers. -/
theorem searchTree_spec (hRoot : root < g.size) :
    Loops (TreeSearch.step g) (.start g.size root) ⟨[], g.searchTree root⟩ ∧
      TreeSearch.Sound g root ⟨[], g.searchTree root⟩ := by
  obtain ⟨first, hFirst, hSound⟩ := TreeSearch.exists_first hRoot
  let Holds : TreeSearch → Prop := fun search =>
    search = .start g.size root ∨ TreeSearch.Sound g root search
  have hKeep : ∀ search after, Holds search → TreeSearch.step g search = some after →
      Holds after ∧ TreeSearch.work g after < TreeSearch.work g search := by
    intro search after hHolds hStep
    have hAfter : TreeSearch.Sound g root after := by
      rcases hHolds with rfl | hHolds
      · rw [hFirst] at hStep
        cases hStep
        exact hSound
      · exact hHolds.step hStep
    exact ⟨Or.inr hAfter, TreeSearch.work_step_lt hStep hAfter.size_order_le⟩
  have hFuel : TreeSearch.work g (.start g.size root) ≤ g.size * (g.edges.size + 1) + 1 := by
    simp [TreeSearch.work, TreeSearch.start, SearchTree.empty]
  have hLoops := loops_runSteps Holds (TreeSearch.work g) hKeep (Or.inl rfl) hFuel
  obtain ⟨hHolds, hStop⟩ := hLoops.keeps
    (fun search after hHolds hStep => (hKeep search after hHolds hStep).1) (Or.inl rfl)
  have hStack := TreeSearch.stack_eq_nil hStop
  have hLast : runSteps (TreeSearch.step g) (g.size * (g.edges.size + 1) + 1)
      (.start g.size root) = ⟨[], g.searchTree root⟩ := by
    rw [← hStack]
    rfl
  rw [hLast] at hLoops hHolds
  refine ⟨hLoops, hHolds.resolve_left fun hEq => ?_⟩
  cases congrArg TreeSearch.stack hEq

/-- The visited nodes are those that the root reaches. -/
theorem IsSearchTree.visited_iff {number : Nat → Nat} {parent : Nat → Option Nat}
    (h : IsSearchTree g root number parent) (node : Nat) :
    0 < number node ↔ g.Reaches root node := by
  constructor
  · intro hNode
    obtain ⟨nodes, hPath, -⟩ := h.exists_path (h.root_ancestor hNode) hNode
    exact ⟨nodes, hPath⟩
  · intro hReach
    have hSteps := (Digraph.Reaches.iff_reflTransGen.mp hReach).2
    induction hSteps with
    | refl => exact h.root_visited
    | tail hSteps hAdj ih =>
      exact h.closed hAdj (ih (Digraph.Reaches.iff_reflTransGen.mpr ⟨h.root_lt, hSteps⟩))

end BytecodeFlow
