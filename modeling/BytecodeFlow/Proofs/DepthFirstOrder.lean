import BytecodeFlow.Proofs.DominatorTrees
import BytecodeFlow.Proofs.FinishingOrder

/-!
# The depth-first order

The depth-first search counts a node as seen from the moment it is put on the agenda. A node that is
visited adopts all its successors that are not seen yet, and one that waits on the agenda already
keeps its place there. So the list is the preorder of a recursive search in which each node adopts
its successors before any of them is visited (`depthFirst_eq_adopt`).

The recursive search that marks a node when it enters it has an order of its own, in which a node is
followed by its first successor that is not entered yet (`descends_preorder`). The two orders can
differ where a node is visited while one of its successors waits. None waits if at most one of the
edges into each node comes from a node that it does not dominate, as in a tree with edges back
(`depthFirst_eq_preorder`).
-/

namespace BytecodeFlow

namespace Traversal

variable {next : Nat → List Nat} {bound : Nat}

/-! ## The order of adoption -/

/-- The nodes that a recursive search has visited, the latest first, and those that are seen. -/
structure Adoption where
  visited : List Nat
  seen : List Nat

/-- Visits a node, which adopts its successors that are not seen yet, and searches from them. Of
parallel edges the last one counts. -/
def adopt (next : Nat → List Nat) : Nat → Adoption → Nat → Adoption
  | 0, state, _ => state
  | fuel + 1, state, node =>
    let fresh := unseen state.seen (next node).reverse
    fresh.reverse.foldl (adopt next fuel) ⟨node :: state.visited, fresh ++ state.seen⟩

theorem Fair.adopt {fuel node : Nat} {agenda seen : List Nat}
    (hNext : ∀ x, ∀ y ∈ next x, y < bound) (h : Fair bound (fuel + 1) (node :: agenda) seen) :
    Fair bound fuel ((unseen seen (next node).reverse).reverse ++ agenda)
      (unseen seen (next node).reverse ++ seen) :=
  h.step hNext nodup_unseen (fun _ => mem_unseen_reverse) (perm_reverse_append _ _)

/-- A depth-first search visits the first nodes of its agenda, and what they adopt, before it comes
to the rest of the agenda. -/
theorem depthFirst_append (hNext : ∀ x, ∀ y ∈ next x, y < bound) (depth : Nat)
    (nodes agenda : List Nat) (state : Adoption) (fuel : Nat)
    (hFair : Fair bound fuel (nodes ++ agenda) state.seen)
    (hDeep : nodes ≠ [] → bound < depth + state.seen.length) :
    ∃ rest, Fair bound rest agenda (nodes.foldl (adopt next depth) state).seen ∧
      state.seen.length ≤ (nodes.foldl (adopt next depth) state).seen.length ∧
      state.visited.reverse ++ depthFirst next fuel (nodes ++ agenda) state.seen =
        (nodes.foldl (adopt next depth) state).visited.reverse ++
          depthFirst next rest agenda (nodes.foldl (adopt next depth) state).seen := by
  induction depth generalizing nodes agenda state fuel with
  | zero =>
    cases nodes with
    | nil => exact ⟨fuel, hFair, le_rfl, rfl⟩
    | cons node nodes =>
      have hSeen := length_le_of_nodup hFair.seen_nodup hFair.seen_lt
      have hMany := hDeep (by simp)
      omega
  | succ depth ihDepth =>
    induction nodes generalizing state fuel with
    | nil => exact ⟨fuel, hFair, le_rfl, rfl⟩
    | cons node nodes ihNodes =>
      have hMany := hDeep (by simp)
      cases fuel with
      | zero => cases hFair.agenda_eq_nil
      | succ fuel =>
        -- the node adopts, its adopted nodes are searched, and then its siblings
        obtain ⟨middle, hFairMiddle, hGrown, hInner⟩ :=
          ihDepth _ (nodes ++ agenda)
            ⟨node :: state.visited, unseen state.seen (next node).reverse ++ state.seen⟩
            fuel (hFair.adopt hNext) (fun hSome => by
              have hLength := List.length_pos_iff.mpr hSome
              simp only [List.length_reverse, List.length_append] at hLength ⊢
              omega)
        simp only [List.length_append] at hGrown
        obtain ⟨rest, hFairRest, hGrownRest, hRest⟩ :=
          ihNodes (adopt next (depth + 1) state node) middle hFairMiddle (fun _ => by
            rw [adopt]
            omega)
        refine ⟨rest, hFairRest, ?_, ?_⟩
        · refine le_trans ?_ hGrownRest
          rw [adopt]
          omega
        · rw [List.foldl_cons, ← hRest, adopt, ← hInner, List.cons_append, depthFirst]
          simp

/-! ## Nodes that are seen and nodes that are entered -/

/-- Where no node of a list is unseen twice, the unseen ones are found by a filter. -/
theorem unseen_eq_filter {seen nodes : List Nat} (h : (nodes.filter (!seen.contains ·)).Nodup) :
    unseen seen nodes = nodes.filter (!seen.contains ·) := by
  induction nodes generalizing seen with
  | nil => rfl
  | cons node nodes ih =>
    unfold unseen
    split
    · rename_i hSeen
      rw [List.filter_cons_of_neg (by simpa using hSeen)] at h ⊢
      exact ih h
    · rename_i hSeen
      rw [List.filter_cons_of_pos (by simpa using hSeen)] at h ⊢
      obtain ⟨hNot, hNodup⟩ := List.nodup_cons.mp h
      have hSame : nodes.filter (!(node :: seen).contains ·) = nodes.filter (!seen.contains ·) := by
        refine List.filter_congr fun x hx => ?_
        have hNe : x ≠ node := by
          rintro rfl
          exact hNot (List.mem_filter.mpr ⟨hx, by simpa using hSeen⟩)
        simp [hNe]
      rw [ih (by rwa [hSame]), hSame]

/-- The nodes that the tasks on a stack are to enter. -/
def waiting : List SearchTask → List Nat
  | [] => []
  | .enter node :: stack => node :: waiting stack
  | .finish _ :: stack => waiting stack

theorem waiting_append (nodes : List Nat) (stack : List SearchTask) :
    waiting (nodes.map .enter ++ stack) = nodes ++ waiting stack := by
  induction nodes with
  | nil => rfl
  | cons node nodes ih => simp [waiting, ih]

end Traversal

namespace Digraph

open Traversal

variable {α : Type} {g : Digraph α} {start : Nat}

/-- The nodes reachable from `start` in the order in which a recursive search enters them. -/
def preorder (g : Digraph α) (start : Nat) : List Nat :=
  if start < g.size then (finish g.successors g.size ⟨[], []⟩ start).entered.reverse else []

/-- A node that has successors not listed up to it is followed by the first of them. -/
def Descends (g : Digraph α) (order : List Nat) : Prop :=
  ∀ before x behind y, order = before ++ x :: behind →
    (g.successors x).find? (!(before ++ [x]).contains ·) = some y → behind.head? = some y

/-- Of any two edges into a node, one comes from a node that it dominates. -/
def SingleEntry (g : Digraph α) (start : Nat) : Prop :=
  g.edges.toList.Pairwise fun e f => e.target = f.target →
    g.Dominates start e.target e.source ∨ g.Dominates start f.target f.source

theorem depthFirst_eq_adopt (hStart : start < g.size) :
    g.depthFirst start = (adopt g.successors g.size ⟨[], [start]⟩ start).visited.reverse := by
  obtain ⟨rest, -, -, hOrder⟩ := depthFirst_append g.successors_lt g.size [start] []
    ⟨[], [start]⟩ g.size (Fair.start (by simp) (by simpa using hStart)) (by simp)
  have hNil : Traversal.depthFirst g.successors rest []
      (adopt g.successors g.size ⟨[], [start]⟩ start).seen = [] := by
    cases rest <;> rfl
  rw [depthFirst, if_pos hStart]
  simpa [hNil] using hOrder

/-! ## Graphs in which no successor waits -/

/-- In a graph with single entries, an edge into a node is told by its target if it comes from a
node that the target does not dominate. -/
theorem SingleEntry.edge_eq (h : g.SingleEntry start) {e f : Edge} (he : e ∈ g.edges)
    (hf : f ∈ g.edges) (hTarget : e.target = f.target)
    (hFree : ¬ g.Dominates start e.target e.source)
    (hFree' : ¬ g.Dominates start f.target f.source) : e = f := by
  by_contra hNe
  have hSymm : Std.Symm fun e f : Edge => e.target = f.target →
      g.Dominates start e.target e.source ∨ g.Dominates start f.target f.source :=
    ⟨fun _ _ h hEq => (h hEq.symm).symm⟩
  rcases h.forall (Array.mem_toList_iff.mpr he) (Array.mem_toList_iff.mpr hf) hNe hTarget with
    hDom | hDom
  · exact hFree hDom
  · exact hFree' hDom

/-- The start leads to each node of a list by nodes of the list. -/
def Inside (g : Digraph α) (start : Nat) (entered : List Nat) : Prop :=
  ∀ x ∈ entered, ∃ nodes, g.Path start x nodes ∧ ∀ y ∈ nodes, y ∈ entered

theorem Inside.not_dominates {entered : List Nat} (h : g.Inside start entered) {x y : Nat}
    (hx : x ∈ entered) (hy : y ∉ entered) : ¬ g.Dominates start y x := by
  intro hDom
  obtain ⟨nodes, hPath, hNodes⟩ := h x hx
  exact hy (hNodes y (hDom nodes hPath))

/-- What holds between two steps of the two searches: the nodes on the agenda are seen, not entered,
and led to by entered nodes. -/
structure Aligned (g : Digraph α) (start : Nat) (entered agenda seen : List Nat) : Prop where
  seen_iff : ∀ x, x ∈ seen ↔ x ∈ entered ∨ x ∈ agenda
  not_entered : ∀ x ∈ agenda, x ∉ entered
  inside : g.Inside start entered
  origin : ∀ x ∈ agenda, x = start ∨ ∃ u ∈ entered, g.Adj u x

namespace Aligned

variable {node : Nat} {entered agenda seen : List Nat}

theorem inside_cons (h : g.Aligned start entered (node :: agenda) seen) (hStart : start < g.size) :
    g.Inside start (node :: entered) := by
  intro x hx
  rcases List.mem_cons.mp hx with rfl | hx
  · rcases h.origin x List.mem_cons_self with rfl | ⟨u, hu, hAdj⟩
    · exact ⟨[x], .single hStart, by simp⟩
    · obtain ⟨nodes, hPath, hNodes⟩ := h.inside u hu
      refine ⟨nodes ++ [x], hPath.snoc hAdj, fun y hy => ?_⟩
      rcases List.mem_append.mp hy with hy | hy
      · exact List.mem_cons_of_mem _ (hNodes y hy)
      · exact List.mem_cons.mpr (Or.inl (List.mem_singleton.mp hy))
  · obtain ⟨nodes, hPath, hNodes⟩ := h.inside x hx
    exact ⟨nodes, hPath, fun y hy => List.mem_cons_of_mem _ (hNodes y hy)⟩

/-- The node on top of the agenda has no successor that waits below it. -/
theorem not_adj (h : g.Aligned start entered (node :: agenda) seen) (hStart : start < g.size)
    (hSingle : g.SingleEntry start) (hNodup : (node :: agenda).Nodup) {y : Nat} (hy : y ∈ agenda) :
    ¬ g.Adj node y := by
  rintro ⟨f, hf, hSource, rfl⟩
  have hNode := h.not_entered node List.mem_cons_self
  have hOld := h.not_entered f.target (List.mem_cons_of_mem _ hy)
  have hNe : f.target ≠ node := fun hEq => (List.nodup_cons.mp hNodup).1 (hEq ▸ hy)
  rcases h.origin f.target (List.mem_cons_of_mem _ hy) with hEq | ⟨u, hu, e, he, rfl, hTarget⟩
  · -- the start is entered, as it is on the way to the node
    rcases h.origin node List.mem_cons_self with hRoot | ⟨u, hu, -⟩
    · exact hNe (hEq.trans hRoot.symm)
    · obtain ⟨nodes, hPath, hNodes⟩ := h.inside u hu
      exact hOld (hEq ▸ hNodes start hPath.source_mem)
  · have hEq := hSingle.edge_eq he hf hTarget
      (h.inside.not_dominates hu (by rwa [hTarget]))
      ((h.inside_cons hStart).not_dominates (by simp [hSource]) (by simp [hNe, hOld]))
    rw [hEq, hSource] at hu
    exact hNode hu

/-- The node on top of the agenda has no two edges to a node that is not entered: both would enter
that node. -/
theorem nodup_fresh (h : g.Aligned start entered (node :: agenda) seen) (hStart : start < g.size)
    (hSingle : g.SingleEntry start) :
    ((g.successors node).filter (!(node :: entered).contains ·)).Nodup := by
  rw [successors, edgesFrom_eq, List.filter_map]
  generalize hEdges : (g.edges.toList.filter (·.source == node)).filter
    ((!(node :: entered).contains ·) ∘ Edge.target) = edges
  have hFree : ∀ e ∈ edges, ¬ g.Dominates start e.target e.source := by
    intro e he
    rw [← hEdges, List.mem_filter, List.mem_filter, beq_iff_eq] at he
    obtain ⟨⟨-, hSource⟩, hTarget⟩ := he
    exact (h.inside_cons hStart).not_dominates (by simp [hSource]) (by simpa using hTarget)
  rw [List.Nodup, List.pairwise_map]
  have hEntries := (hSingle.filter (·.source == node)).filter
    ((!(node :: entered).contains ·) ∘ Edge.target)
  rw [hEdges] at hEntries
  refine hEntries.imp_of_mem fun he hf hEntry hTarget => ?_
  exact (hEntry hTarget).elim (hFree _ he) (hFree _ hf)

/-- The node on top of the agenda adopts what the recursive search puts on its stack. -/
theorem adopted_eq (h : g.Aligned start entered (node :: agenda) seen) (hStart : start < g.size)
    (hSingle : g.SingleEntry start) (hNodup : (node :: agenda).Nodup) :
    (unseen seen (g.successors node).reverse).reverse =
      (g.successors node).filter (!(node :: entered).contains ·) := by
  have hSame : (g.successors node).filter (!seen.contains ·) =
      (g.successors node).filter (!(node :: entered).contains ·) := by
    refine List.filter_congr fun y hy => ?_
    have hWaits : y ∉ agenda := fun hWaits =>
      h.not_adj hStart hSingle hNodup hWaits (mem_successors.mp hy)
    have hSeen : y ∈ seen ↔ y ∈ node :: entered := by
      rw [h.seen_iff, List.mem_cons, List.mem_cons]
      tauto
    rw [Bool.eq_iff_iff]
    simp [hSeen]
  have hFresh := h.nodup_fresh hStart hSingle
  rw [unseen_eq_filter (by rwa [List.filter_reverse, List.nodup_reverse, hSame]),
    List.filter_reverse, List.reverse_reverse, hSame]

theorem enter (h : g.Aligned start entered (node :: agenda) seen) (hStart : start < g.size)
    (hNodup : (node :: agenda).Nodup) :
    g.Aligned start (node :: entered) ((unseen seen (g.successors node).reverse).reverse ++ agenda)
      (unseen seen (g.successors node).reverse ++ seen) := by
  refine ⟨fun x => ?_, fun x hx => ?_, h.inside_cons hStart, fun x hx => ?_⟩
  · simp only [List.mem_append, List.mem_reverse, List.mem_cons, h.seen_iff]
    tauto
  · rw [List.mem_cons, not_or]
    rcases List.mem_append.mp hx with hFresh | hWaits
    · have hUnseen := (mem_unseen_reverse.mp (List.mem_reverse.mp hFresh)).2
      rw [h.seen_iff, not_or, List.mem_cons, not_or] at hUnseen
      exact ⟨hUnseen.2.1, hUnseen.1⟩
    · refine ⟨?_, h.not_entered x (List.mem_cons_of_mem _ hWaits)⟩
      rintro rfl
      exact (List.nodup_cons.mp hNodup).1 hWaits
  · rcases List.mem_append.mp hx with hFresh | hWaits
    · have hNext := (mem_unseen_reverse.mp (List.mem_reverse.mp hFresh)).1
      exact Or.inr ⟨node, List.mem_cons_self, mem_successors.mp hNext⟩
    · refine (h.origin x (List.mem_cons_of_mem _ hWaits)).imp_right ?_
      rintro ⟨u, hu, hAdj⟩
      exact ⟨u, List.mem_cons_of_mem _ hu, hAdj⟩

/-- What the loop of the recursive search enters from here on is what the depth-first search
lists. -/
theorem entered_eq (hStart : start < g.size) (hSingle : g.SingleEntry start) {fuel : Nat}
    {search last : FinishSearch} (hLoops : Loops (FinishSearch.step g.successors) search last)
    (h : g.Aligned start search.state.entered (waiting search.stack) seen)
    (hFair : Fair g.size fuel (waiting search.stack) seen) :
    last.state.entered.reverse = search.state.entered.reverse ++
      Traversal.depthFirst g.successors fuel (waiting search.stack) seen := by
  induction hLoops generalizing fuel seen with
  | stop hStep =>
    rw [stack_eq_nil_of_step hStep]
    cases fuel <;> simp [waiting, Traversal.depthFirst]
  | next hStep hRest ih =>
    rcases step_cases hStep with ⟨node, stack, state, rfl, rfl⟩ |
      ⟨node, stack, state, hEntered, rfl, rfl⟩ | ⟨node, stack, state, hNew, rfl, rfl⟩
    · exact ih h hFair
    · exact absurd hEntered (h.not_entered node List.mem_cons_self)
    · cases fuel with
      | zero => cases hFair.agenda_eq_nil
      | succ fuel =>
        have hAdopted := h.adopted_eq hStart hSingle hFair.agenda_nodup
        have hWaiting : waiting (((g.successors node).filter
            (!(node :: state.entered).contains ·)).map .enter ++ .finish node :: stack) =
              (unseen seen (g.successors node).reverse).reverse ++ waiting stack := by
          rw [waiting_append, hAdopted, waiting]
        simp only [hWaiting] at ih
        rw [ih (h.enter hStart hFair.agenda_nodup) (hFair.adopt g.successors_lt), waiting,
          Traversal.depthFirst]
        simp

end Aligned

theorem depthFirst_eq_preorder (hStart : start < g.size) (hSingle : g.SingleEntry start) :
    g.depthFirst start = g.preorder start := by
  have hAligned : g.Aligned start [] [start] [start] :=
    ⟨by simp, by simp, by simp [Inside], by simp⟩
  have hFair : Fair g.size g.size [start] [start] := Fair.start (by simp) (by simpa using hStart)
  have hOrder := Aligned.entered_eq hStart hSingle (loops_finishSearch hStart) hAligned hFair
  rw [depthFirst, preorder, if_pos hStart, if_pos hStart]
  exact hOrder.symm

/-! ## The recursive search goes down first -/

/-- What the recursive search has entered goes down first, and the next node it goes down to is on
top of the stack. -/
def GoesDown (g : Digraph α) (search : FinishSearch) : Prop :=
  ∀ later x earlier y, search.state.entered = later ++ x :: earlier →
    (g.successors x).find? (!(x :: earlier).contains ·) = some y →
      later.getLast? = some y ∨ later = [] ∧ search.stack.head? = some (.enter y)

theorem GoesDown.step {search after : FinishSearch} (h : g.GoesDown search)
    (hStep : FinishSearch.step g.successors search = some after) : g.GoesDown after := by
  intro later x earlier y hSplit hFind
  rcases step_cases hStep with ⟨node, stack, state, rfl, rfl⟩ |
    ⟨node, stack, state, hEntered, rfl, rfl⟩ | ⟨node, stack, state, hNew, rfl, rfl⟩
  · rcases h later x earlier y hSplit hFind with hLast | ⟨-, hTop⟩
    · exact Or.inl hLast
    · cases hTop
  · rcases h later x earlier y hSplit hFind with hLast | ⟨rfl, hTop⟩
    · exact Or.inl hLast
    · -- the successor on top of the stack is not entered
      obtain rfl : node = y := by simpa using hTop
      have hNot := List.find?_some hFind
      rw [← List.nil_append (x :: earlier), ← hSplit] at hNot
      simp [hEntered] at hNot
  · cases later with
    | nil =>
      obtain ⟨rfl, rfl⟩ := List.cons.inj hSplit
      rw [← List.head?_filter, List.head?_eq_some_iff] at hFind
      obtain ⟨rest, hRest⟩ := hFind
      exact Or.inr ⟨rfl, by simp only [hRest]; rfl⟩
    | cons last later =>
      obtain ⟨rfl, hOld⟩ := List.cons.inj hSplit
      rcases h later x earlier y hOld hFind with hLast | ⟨rfl, hTop⟩
      · exact Or.inl (by simp [List.getLast?_cons, hLast])
      · obtain rfl : node = y := by simpa using hTop
        exact Or.inl rfl

theorem GoesDown.loops {search last : FinishSearch}
    (hLoops : Loops (FinishSearch.step g.successors) search last) (h : g.GoesDown search) :
    g.GoesDown last := by
  induction hLoops with
  | stop => exact h
  | next hStep _ ih => exact ih (h.step hStep)

theorem descends_preorder (hStart : start < g.size) : g.Descends (g.preorder start) := by
  intro before x behind y hSplit hFind
  have hDown := GoesDown.loops (loops_finishSearch hStart) (fun later x earlier y hSplit => by
    cases later <;> cases hSplit)
  rw [preorder, if_pos hStart, List.reverse_eq_iff] at hSplit
  have hSame : (g.successors x).find? (!(x :: before.reverse).contains ·) = some y := by
    rw [← hFind]
    congr 1
    funext z
    simp [Bool.or_comm]
  rcases hDown behind.reverse x before.reverse y (by simpa using hSplit) hSame with
    hLast | ⟨-, hTop⟩
  · rwa [List.getLast?_reverse] at hLast
  · cases hTop

/-! ## The two orders -/

/-- **Depth-first order.** The depth-first search lists the nodes in the order of the recursive
search in which a visited node adopts all its successors not seen yet. Where, of any two edges into
a node, one comes from a node that it dominates, that is the order in which the recursive search
enters the nodes, and each node with successors not listed up to it is followed by the first of
them. -/
theorem depthFirst_visits_adopted (g : Digraph α) (start : Nat) (hStart : start < g.size) :
    g.depthFirst start = (adopt g.successors g.size ⟨[], [start]⟩ start).visited.reverse ∧
      (g.SingleEntry start →
        g.depthFirst start = g.preorder start ∧ g.Descends (g.depthFirst start)) := by
  refine ⟨depthFirst_eq_adopt hStart, fun hSingle => ?_⟩
  have hOrder := depthFirst_eq_preorder hStart hSingle
  exact ⟨hOrder, hOrder ▸ descends_preorder hStart⟩

/-- A node that is a successor of the first node and of the first successor. -/
def waitingSuccessor : Digraph Nat :=
  Draft.freeze
    { nodes := #[0, 1, 2, 3]
      edges := #[⟨0, 1, 1⟩, ⟨0, 2, 1⟩, ⟨0, 3, 1⟩, ⟨1, 3, 1⟩]
      edge_lt := by decide }

/-- Two branches with an edge back from each of them and an edge from a node to itself. -/
def backEdges : Digraph Nat :=
  Draft.freeze
    { nodes := #[0, 1, 2, 3, 4, 5]
      edges := #[⟨0, 1, 1⟩, ⟨0, 2, 1⟩, ⟨1, 3, 1⟩, ⟨1, 4, 1⟩, ⟨3, 3, 1⟩, ⟨4, 1, 1⟩, ⟨2, 5, 1⟩,
        ⟨5, 0, 1⟩]
      edge_lt := by decide }

theorem depthFirst_visits_adopted_backEdges :
    (0 < waitingSuccessor.size ∧
        (adopt waitingSuccessor.successors 4 ⟨[], [0]⟩ 0).visited = [3, 2, 1, 0]) ∧
      0 < backEdges.size ∧ backEdges.SingleEntry 0 ∧
        backEdges.preorder 0 = [0, 1, 3, 4, 2, 5] ∧ backEdges.Descends [0, 1, 3, 4, 2, 5] := by
  have hWaiting : 0 < waitingSuccessor.size := by decide
  have hBack : 0 < backEdges.size := by decide
  have hSingle : backEdges.SingleEntry 0 := by
    have hReached : ∀ e ∈ backEdges.edges.toList, backEdges.hasPath 0 e.source = true := by decide
    have hTree : backEdges.edges.toList.Pairwise fun e f => e.target = f.target →
        (backEdges.dominatorTree 0).dominates e.target e.source = true ∨
          (backEdges.dominatorTree 0).dominates f.target f.source = true := by
      decide +kernel
    refine hTree.imp_of_mem fun he hf hEntry hTarget => (hEntry hTarget).imp ?_ ?_
    · exact (dominates_iff_of_reaches hBack (hasPath_iff.mp (hReached _ he))).mp
    · exact (dominates_iff_of_reaches hBack (hasPath_iff.mp (hReached _ hf))).mp
  have hFound : waitingSuccessor.depthFirst 0 = [0, 1, 2, 3] := by decide
  have hList : backEdges.depthFirst 0 = [0, 1, 3, 4, 2, 5] := by decide
  obtain ⟨hAdopted, -⟩ := depthFirst_visits_adopted waitingSuccessor 0 hWaiting
  obtain ⟨hOrder, hDown⟩ := (depthFirst_visits_adopted backEdges 0 hBack).2 hSingle
  refine ⟨⟨hWaiting, ?_⟩, hBack, hSingle, hOrder ▸ hList, hList ▸ hDown⟩
  exact List.reverse_eq_iff.mp (hAdopted.symm.trans hFound)

/-- From the first node's first successor, the recursive search goes on to the node that waits; the
depth-first search comes to it last. -/
theorem not_depthFirst_visits_waitingSuccessor :
    (¬ ∀ (g : Digraph Nat) (start : Nat), start < g.size →
        g.depthFirst start = g.preorder start) ∧
      ¬ ∀ (g : Digraph Nat) (start : Nat), start < g.size → g.Descends (g.depthFirst start) := by
  constructor
  · intro h
    exact absurd (h waitingSuccessor 0 (by decide)) (by decide)
  · intro h
    have hNext := h waitingSuccessor 0 (by decide) [0] 1 [2, 3] 3 (by decide) (by decide)
    cases hNext

end Digraph

end BytecodeFlow
