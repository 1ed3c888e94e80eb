import BytecodeFlow.Digraph.SearchStack
import BytecodeFlow.Proofs.Reachability

/-!
# The finishing order

The loop that enters and finishes nodes from a stack goes the way of the recursive search. When the
task to enter a node is on top of the stack, the loop comes to the state that the recursive search
of that node leaves, with the rest of the stack untouched (`loops_enter`). A successor that was
entered when its predecessor was entered is not put on the stack; the recursive search comes to it
and leaves it alone.

An edge from a listed node leads to a node that was finished before, or that was entered and not
finished when the edge was met. Such a node is on the way from the start to the edge, so it reaches
the edge's source (`postorder_isFinishingOrder`).
-/

namespace BytecodeFlow

namespace Traversal

variable {next : Nat → List Nat} {bound fuel : Nat} {state : Finished}

theorem finish_of_entered {node : Nat} (h : node ∈ state.entered) :
    finish next fuel state node = state := by
  cases fuel with
  | zero => rfl
  | succ fuel => rw [finish, if_pos (List.contains_iff_mem.mpr h)]

theorem step_of_entered {node : Nat} (stack : List SearchTask) (h : node ∈ state.entered) :
    FinishSearch.step next ⟨.enter node :: stack, state⟩ = some ⟨stack, state⟩ := by
  simp [FinishSearch.step, h]

theorem step_of_not_entered {node : Nat} (stack : List SearchTask) (h : node ∉ state.entered) :
    FinishSearch.step next ⟨.enter node :: stack, state⟩ =
      some ⟨((next node).filter (!(node :: state.entered).contains ·)).map .enter ++
        .finish node :: stack, { state with entered := node :: state.entered }⟩ := by
  simp only [FinishSearch.step]
  rw [if_neg (by simpa using h)]

/-- A step finishes the node on top of the stack, drops it if it is entered already, or enters
it. -/
theorem step_cases {search after : FinishSearch} (h : FinishSearch.step next search = some after) :
    (∃ node stack state, search = ⟨.finish node :: stack, state⟩ ∧
        after = ⟨stack, { state with done := node :: state.done }⟩) ∨
      (∃ node stack state, node ∈ state.entered ∧ search = ⟨.enter node :: stack, state⟩ ∧
        after = ⟨stack, state⟩) ∨
      ∃ node stack state, node ∉ state.entered ∧ search = ⟨.enter node :: stack, state⟩ ∧
        after = ⟨((next node).filter (!(node :: state.entered).contains ·)).map .enter ++
          .finish node :: stack, { state with entered := node :: state.entered }⟩ := by
  obtain ⟨_ | ⟨node | node, stack⟩, state⟩ := search
  · cases h
  · by_cases hEntered : node ∈ state.entered
    · rw [step_of_entered stack hEntered] at h
      exact Or.inr (Or.inl ⟨node, stack, state, hEntered, rfl, (Option.some.inj h).symm⟩)
    · rw [step_of_not_entered stack hEntered] at h
      exact Or.inr (Or.inr ⟨node, stack, state, hEntered, rfl, (Option.some.inj h).symm⟩)
  · exact Or.inl ⟨node, stack, state, rfl, (Option.some.inj h).symm⟩

theorem stack_eq_nil_of_step {search : FinishSearch} (h : FinishSearch.step next search = none) :
    search.stack = [] := by
  obtain ⟨_ | ⟨node | node, stack⟩, state⟩ := search
  · rfl
  · simp only [FinishSearch.step] at h
    split at h <;> cases h
  · cases h

/-- The loop enters the nodes of a list one after the other. Those that are entered already may be
left out of the stack. -/
theorem loops_enter_all (hNext : ∀ x, ∀ y ∈ next x, y < bound)
    (hEnter : ∀ state node stack last, node < bound → Room bound fuel state →
      Loops (FinishSearch.step next) ⟨stack, finish next fuel state node⟩ last →
      Loops (FinishSearch.step next) ⟨.enter node :: stack, state⟩ last)
    (nodes : List Nat) (p : Nat → Bool) {stack : List SearchTask} {last : FinishSearch}
    (hNodes : ∀ x ∈ nodes, x < bound) (hRoom : Room bound fuel state)
    (hLeft : ∀ x ∈ nodes, p x = false → x ∈ state.entered)
    (h : Loops (FinishSearch.step next) ⟨stack, nodes.foldl (finish next fuel) state⟩ last) :
    Loops (FinishSearch.step next) ⟨(nodes.filter p).map .enter ++ stack, state⟩ last := by
  induction nodes generalizing state with
  | nil => exact h
  | cons node nodes ih =>
    obtain ⟨hNode, hNodes⟩ := List.forall_mem_cons.mp hNodes
    obtain ⟨hNodeLeft, hLeft⟩ := List.forall_mem_cons.mp hLeft
    rw [List.foldl_cons] at h
    cases hp : p node with
    | false =>
      rw [List.filter_cons_of_neg (by simp [hp])]
      rw [finish_of_entered (hNodeLeft hp)] at h
      exact ih hNodes hRoom hLeft h
    | true =>
      rw [List.filter_cons_of_pos hp]
      obtain ⟨fresh, hGrown, hAfter, -⟩ := finish_spec hNext fuel state node hNode hRoom
      refine hEnter state node _ last hNode hRoom (ih hNodes hAfter (fun x hx hLeftOut => ?_) h)
      exact (hGrown.entered_iff x).mpr (Or.inr (hLeft x hx hLeftOut))

/-- With the task to enter a node on top of its stack, the loop does what the recursive search of
the node does. -/
theorem loops_enter (hNext : ∀ x, ∀ y ∈ next x, y < bound) (state : Finished) (node : Nat)
    (stack : List SearchTask) (last : FinishSearch) (hNode : node < bound)
    (hRoom : Room bound fuel state)
    (h : Loops (FinishSearch.step next) ⟨stack, finish next fuel state node⟩ last) :
    Loops (FinishSearch.step next) ⟨.enter node :: stack, state⟩ last := by
  induction fuel generalizing state node stack last with
  | zero =>
    have hEntered := hRoom.entered_of_zero hNode
    rw [finish_of_entered hEntered] at h
    exact .next (step_of_entered stack hEntered) h
  | succ fuel ih =>
    by_cases hEntered : node ∈ state.entered
    · rw [finish_of_entered hEntered] at h
      exact .next (step_of_entered stack hEntered) h
    · rw [finish, if_neg (by simpa using hEntered)] at h
      refine .next (step_of_not_entered stack hEntered) ?_
      refine loops_enter_all hNext ih (next node) _ (hNext node) (hRoom.enter hNode hEntered) ?_ ?_
      · intro x _ hLeftOut
        rwa [Bool.not_eq_false', List.contains_iff_mem] at hLeftOut
      · exact .next rfl h

end Traversal

namespace Digraph

variable {α : Type} {g : Digraph α} {start : Nat}

/-- The loop from a node of the graph ends, in the state of the recursive search. -/
theorem loops_finishSearch (hStart : start < g.size) :
    Loops (FinishSearch.step g.successors) (.start start)
      ⟨[], Traversal.finish g.successors g.size ⟨[], []⟩ start⟩ :=
  Traversal.loops_enter g.successors_lt _ _ _ _ hStart ⟨by simp, by simp, by simp⟩ (.stop rfl)

/-- The start is finished last. -/
theorem head?_reversePostorder (hStart : start < g.size) :
    (g.reversePostorder start).head? = some start := by
  obtain ⟨hNodup, hReached, hPred⟩ := g.reversePostorder_spec hStart
  cases hOrder : g.reversePostorder start with
  | nil =>
    have hMem := (hReached start).mpr (.refl hStart)
    rw [hOrder] at hMem
    cases hMem
  | cons first rest =>
    rw [hOrder] at hNodup hPred
    rcases hPred first List.mem_cons_self with rfl | ⟨u, -, hSub⟩
    · rfl
    · have hBefore : u ∈ ([] : List Nat) := Traversal.mem_of_sublist_pair hNodup hSub
      cases hBefore

/-- An edge from a reachable node leads to a node that is finished before, or that leads back. -/
theorem reversePostorder_edge (hStart : start < g.size) {u v : Nat} (hReach : g.Reaches start u)
    (hAdj : g.Adj u v) : [u, v].Sublist (g.reversePostorder start) ∨ g.Reaches v u := by
  have hMem := ((g.reversePostorder_spec hStart).2.1 u).mpr hReach
  rcases (grown_reversePostorder hStart).finishes u hMem v (mem_successors.mpr hAdj) with
    hEntered | hSub | hBack
  · cases hEntered
  · exact Or.inl hSub
  · exact Or.inr (Reaches.iff_reflTransGen.mpr
      ⟨hAdj.target_lt, reflTransGen_successors.mp hBack⟩)

/-- **The finishing order.** The loop with a stack ends. What it has finished is the postorder,
which lists each node that the start reaches once, the start last. An edge from such a node leads to
one that is listed before it, unless it leads to one that reaches it. In the reverse order every
node but the start has a predecessor before it; and where no edge lies on a cycle, every node comes
before its successors. -/
theorem postorder_isFinishingOrder (g : Digraph α) (start : Nat) (hStart : start < g.size) :
    (∃ state, Loops (FinishSearch.step g.successors) (.start start) ⟨[], state⟩ ∧
        state.done.reverse = g.postorder start) ∧
      (g.postorder start).Nodup ∧ (∀ x, x ∈ g.postorder start ↔ g.Reaches start x) ∧
      (g.postorder start).getLast? = some start ∧
      (∀ u v, g.Reaches start u → g.Adj u v →
        [v, u].Sublist (g.postorder start) ∨ g.Reaches v u) ∧
      g.reversePostorder start = (g.postorder start).reverse ∧
      (∀ x, g.Reaches start x → x ≠ start →
        ∃ u, g.Adj u x ∧ [u, x].Sublist (g.reversePostorder start)) ∧
      ((∀ u v, g.Reaches start u → g.Adj u v → ¬ g.Reaches v u) →
        ∀ u v, g.Reaches start u → g.Adj u v → [u, v].Sublist (g.reversePostorder start)) := by
  obtain ⟨hNodup, hReached, hPred⟩ := g.reversePostorder_spec hStart
  refine ⟨⟨_, loops_finishSearch hStart, ?_⟩, List.nodup_reverse.mpr hNodup, fun x => ?_, ?_, ?_,
    (List.reverse_reverse _).symm, fun x hReach hNe => ?_, fun hAcyclic u v hReach hAdj => ?_⟩
  · rw [postorder, reversePostorder, if_pos hStart]
  · rw [postorder, List.mem_reverse, hReached]
  · rw [postorder, List.getLast?_reverse, head?_reversePostorder hStart]
  · intro u v hReach hAdj
    exact (reversePostorder_edge hStart hReach hAdj).imp_left List.Sublist.reverse
  · exact (hPred x ((hReached x).mpr hReach)).resolve_left hNe
  · exact (reversePostorder_edge hStart hReach hAdj).resolve_right (hAcyclic u v hReach hAdj)

/-- A node with an edge to itself on a cycle, a second way into the cycle, and a node that the first
one does not reach. -/
def sideEntry : Digraph Nat :=
  Draft.freeze
    { nodes := #[0, 1, 2, 3, 4]
      edges := #[⟨0, 1, 1⟩, ⟨0, 2, 1⟩, ⟨1, 1, 1⟩, ⟨1, 3, 1⟩, ⟨2, 3, 1⟩, ⟨3, 1, 1⟩, ⟨4, 0, 1⟩]
      edge_lt := by decide }

/-- Two ways from the first node to the last. -/
def diamond : Digraph Nat :=
  Draft.freeze
    { nodes := #[0, 1, 2, 3]
      edges := #[⟨0, 1, 1⟩, ⟨0, 2, 1⟩, ⟨1, 3, 1⟩, ⟨2, 3, 1⟩]
      edge_lt := by decide }

theorem postorder_isFinishingOrder_sideEntry :
    (0 < sideEntry.size ∧ sideEntry.postorder 0 = [3, 1, 2, 0] ∧ ¬ sideEntry.Reaches 0 4 ∧
        sideEntry.Reaches 1 3) ∧
      0 < diamond.size ∧ (∀ u v, diamond.Adj u v → ¬ diamond.Reaches v u) ∧
        [1, 3].Sublist (diamond.reversePostorder 0) := by
  have hSide : 0 < sideEntry.size := by decide
  have hDiamond : 0 < diamond.size := by decide
  obtain ⟨-, -, hMem, -, hEdge, -⟩ := postorder_isFinishingOrder sideEntry 0 hSide
  obtain ⟨-, -, hMem', -, -, -, -, hTopological⟩ := postorder_isFinishingOrder diamond 0 hDiamond
  have hAcyclic : ∀ u v, diamond.Adj u v → ¬ diamond.Reaches v u := by
    rintro u v ⟨e, he, rfl, rfl⟩ hBack
    have hNone : ∀ e ∈ diamond.edges, diamond.hasPath e.target e.source = false := by decide
    exact Bool.false_ne_true ((hNone e he).symm.trans (hasPath_iff.mpr hBack))
  refine ⟨⟨hSide, by decide, fun hReach => ?_, ?_⟩, hDiamond, hAcyclic, ?_⟩
  · exact absurd ((hMem 4).mpr hReach) (by decide)
  · have hReach := (hMem 3).mp (by decide)
    refine (hEdge 3 1 hReach (hasEdge_iff.mp (by decide))).resolve_left ?_
    decide
  · refine hTopological (fun u v _ => hAcyclic u v) 1 3 ((hMem' 1).mp (by decide)) ?_
    exact hasEdge_iff.mp (by decide)

end Digraph

end BytecodeFlow
