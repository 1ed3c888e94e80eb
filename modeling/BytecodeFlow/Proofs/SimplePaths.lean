import BytecodeFlow.Digraph.SearchStack
import BytecodeFlow.Proofs.Reachability

/-!
# Simple paths

The enumeration of the paths that visit no node twice is complete, has them in the order of their
edges, and is what a loop with a stack finds.

* `mem_simplePathsFrom`: the paths that are listed from a node are those that avoid the visited
  nodes. The depth is bounded by the number of nodes, which no simple path exceeds.
* `pairwise_simplePathsFrom`: paths that part at a node are listed in the order of the edges that
  they take there, and no path is the beginning of another. So the positions of the edges ascend in
  lexicographic order.
* `PathSearch.loops_frame`: when the loop has tried all successors of the last node of its path, it
  has found the paths that go on from there. The path and its marks are as they were.
-/

namespace BytecodeFlow

namespace Digraph

variable {α : Type} {g : Digraph α} {source target fuel node next : Nat}
  {visited nodes : List Nat}

/-- The ways to go on from `node` whose next node is `next`. -/
def branch (g : Digraph α) (target fuel : Nat) (visited : List Nat) (node next : Nat) :
    List (List Nat) :=
  if next = target then [[node, target]]
  else if visited.contains next then []
  else (g.simplePathsFrom target fuel (next :: visited) next).map (node :: ·)

theorem simplePathsFrom_succ (g : Digraph α) (target fuel : Nat) (visited : List Nat)
    (node : Nat) : g.simplePathsFrom target (fuel + 1) visited node =
      (g.successors node).flatMap (g.branch target fuel visited node) :=
  rfl

theorem mem_branch : nodes ∈ g.branch target fuel visited node next ↔
    (next = target ∧ nodes = [node, target]) ∨ (next ≠ target ∧ next ∉ visited ∧
      ∃ rest ∈ g.simplePathsFrom target fuel (next :: visited) next, nodes = node :: rest) := by
  unfold branch
  by_cases hTarget : next = target
  · simp [hTarget]
  · by_cases hVisited : next ∈ visited
    · simp [hTarget, hVisited]
    · simp [hTarget, hVisited, eq_comm]

/-! ## Which paths are listed -/

theorem Path.lt_size (h : g.Path source target nodes) : ∀ x ∈ nodes, x < g.size := by
  intro x hx
  obtain ⟨left, -, hLeft, -⟩ := h.split hx
  exact hLeft.target_lt

theorem Path.exists_cons (h : g.Path source target nodes) : ∃ rest, nodes = source :: rest := by
  cases h with
  | single _ => exact ⟨[], rfl⟩
  | cons _ _ => exact ⟨_, rfl⟩

/-- From a visited node the paths to a target that is not visited are listed, as far as they visit
no further node twice. -/
theorem mem_simplePathsFrom (hNode : node ∈ visited) (hTarget : target ∉ visited) :
    nodes ∈ g.simplePathsFrom target fuel visited node ↔
      g.Path node target nodes ∧ nodes.tail.Nodup ∧ (∀ x ∈ nodes.tail, x ∉ visited) ∧
        nodes.tail.length ≤ fuel := by
  have hNe : node ≠ target := fun hEq => hTarget (hEq ▸ hNode)
  induction fuel generalizing visited node nodes with
  | zero =>
    refine ⟨fun h => absurd h List.not_mem_nil, ?_⟩
    rintro ⟨hPath, -, -, hLength⟩
    cases hPath with
    | single _ => exact absurd rfl hNe
    | cons _ hRest =>
      obtain ⟨rest, rfl⟩ := hRest.exists_cons
      exact absurd hLength (by simp)
  | succ fuel ih =>
    rw [simplePathsFrom_succ, List.mem_flatMap]
    have hInner : ∀ next rest, next ≠ target →
        (rest ∈ g.simplePathsFrom target fuel (next :: visited) next ↔
          g.Path next target rest ∧ rest.tail.Nodup ∧
            (∀ x ∈ rest.tail, x ∉ next :: visited) ∧ rest.tail.length ≤ fuel) := by
      intro next rest hNext
      refine ih List.mem_cons_self ?_ hNext
      rw [List.mem_cons, not_or]
      exact ⟨Ne.symm hNext, hTarget⟩
    constructor
    · rintro ⟨next, hMem, hBranch⟩
      have hAdj := mem_successors.mp hMem
      rcases mem_branch.mp hBranch with ⟨rfl, rfl⟩ | ⟨hNext, hFresh, rest, hRest, rfl⟩
      · refine ⟨.cons hAdj (.single hAdj.target_lt), ?_, ?_, ?_⟩
        · simp
        · simpa using hTarget
        · simp
      · obtain ⟨hPath, hNodup, hAvoid, hLength⟩ := (hInner next rest hNext).mp hRest
        obtain ⟨rest, rfl⟩ := hPath.exists_cons
        simp only [List.tail_cons, List.mem_cons, not_or] at hNodup hAvoid hLength
        refine ⟨.cons hAdj hPath, ?_, ?_, ?_⟩
        · exact List.nodup_cons.mpr ⟨fun hMem => (hAvoid next hMem).1 rfl, hNodup⟩
        · exact List.forall_mem_cons.mpr ⟨hFresh, fun x hx => (hAvoid x hx).2⟩
        · simpa using hLength
    · rintro ⟨hPath, hNodup, hAvoid, hLength⟩
      cases hPath with
      | single _ => exact absurd rfl hNe
      | @cons _ next _ rest hAdj hRest =>
        refine ⟨next, mem_successors.mpr hAdj, mem_branch.mpr ?_⟩
        rw [List.tail_cons] at hNodup hAvoid hLength
        by_cases hNext : next = target
        · subst hNext
          rw [hRest.eq_singleton hNodup]
          exact Or.inl ⟨rfl, rfl⟩
        · refine Or.inr ⟨hNext, hAvoid next hRest.source_mem, rest, ?_, rfl⟩
          obtain ⟨rest, rfl⟩ := hRest.exists_cons
          rw [List.nodup_cons] at hNodup
          rw [List.length_cons] at hLength
          refine (hInner next _ hNext).mpr ⟨hRest, hNodup.2, fun x hx => ?_, by simpa using hLength⟩
          rw [List.mem_cons, not_or]
          refine ⟨?_, hAvoid x (List.mem_cons_of_mem _ hx)⟩
          rintro rfl
          exact hNodup.1 hx

/-- The simple paths between two nodes are listed. -/
theorem mem_simplePaths (hSource : source < g.size) (hTarget : target < g.size) :
    nodes ∈ g.simplePaths source target ↔ g.Path source target nodes ∧ nodes.Nodup := by
  unfold simplePaths
  rw [if_pos ⟨hSource, hTarget⟩]
  split
  · rename_i hEq
    subst hEq
    rw [List.mem_singleton]
    constructor
    · rintro rfl
      exact ⟨.single hSource, List.nodup_singleton _⟩
    · rintro ⟨hPath, hNodup⟩
      exact hPath.eq_singleton hNodup
  · rename_i hNe
    rw [mem_simplePathsFrom List.mem_cons_self (by simpa using Ne.symm hNe)]
    constructor
    · rintro ⟨hPath, hNodup, hAvoid, -⟩
      refine ⟨hPath, ?_⟩
      obtain ⟨rest, rfl⟩ := hPath.exists_cons
      refine List.nodup_cons.mpr ⟨fun hMem => ?_, hNodup⟩
      exact hAvoid source hMem List.mem_cons_self
    · rintro ⟨hPath, hNodup⟩
      have hLength := Traversal.length_le_of_nodup hNodup hPath.lt_size
      obtain ⟨rest, rfl⟩ := hPath.exists_cons
      obtain ⟨hOnce, hRest⟩ := List.nodup_cons.mp hNodup
      refine ⟨hPath, hRest, ?_, ?_⟩
      · intro x hx hMem
        rw [List.mem_singleton.mp hMem] at hx
        exact hOnce hx
      · rw [List.length_cons] at hLength
        exact Nat.le_of_succ_le hLength

/-! ## The order of the list -/

/-- The place of the edge from `s` to `t` among all edges. -/
def edgePosition (g : Digraph α) (s t : Nat) : Nat :=
  g.edges.toList.findIdx (·.joins s t)

/-- The places of the edges that a path follows. -/
def edgePositions (g : Digraph α) (nodes : List Nat) : List Nat :=
  (nodes.zip nodes.tail).map fun step => g.edgePosition step.1 step.2

/-- At the first edge in which the paths differ, `left` takes the earlier one. -/
def LexBefore (g : Digraph α) (left right : List Nat) : Prop :=
  List.Lex (· < ·) (g.edgePositions left) (g.edgePositions right)

/-- No two edges join the same nodes in the same direction. -/
def NoParallelEdges (g : Digraph α) : Prop :=
  (g.edges.toList.map fun e => (e.source, e.target)).Nodup

theorem edgePositions_cons (g : Digraph α) (first second : Nat) (rest : List Nat) :
    g.edgePositions (first :: second :: rest) =
      g.edgePosition first second :: g.edgePositions (second :: rest) :=
  rfl

theorem edgePosition_getElem (hOnce : g.NoParallelEdges) {i : Nat}
    (hi : i < g.edges.toList.length) :
    g.edgePosition (g.edges.toList[i]).source (g.edges.toList[i]).target = i := by
  refine (List.findIdx_eq hi).mpr ⟨by simp [Edge.joins], fun j hj => ?_⟩
  rw [Bool.eq_false_iff]
  intro hJoins
  have hDiffer := List.pairwise_iff_getElem.mp (List.pairwise_map.mp hOnce) j i (by omega) hi hj
  exact hDiffer (by simpa [Edge.joins] using hJoins)

/-- The successors of a node are in the order of their edges. -/
theorem pairwise_successors (hOnce : g.NoParallelEdges) (node : Nat) :
    (g.successors node).Pairwise fun s t => g.edgePosition node s < g.edgePosition node t := by
  have hEdges : g.edges.toList.Pairwise fun e f =>
      g.edgePosition e.source e.target < g.edgePosition f.source f.target := by
    rw [List.pairwise_iff_getElem]
    intro i j hi hj hij
    rwa [edgePosition_getElem hOnce hi, edgePosition_getElem hOnce hj]
  rw [successors, List.pairwise_map, edgesFrom_eq]
  refine (hEdges.filter _).imp_of_mem fun he hf hLt => ?_
  have hSource := (List.mem_filter.mp he).2
  have hSource' := (List.mem_filter.mp hf).2
  rw [beq_iff_eq] at hSource hSource'
  rwa [hSource, hSource'] at hLt

theorem exists_of_mem_simplePathsFrom
    (h : nodes ∈ g.simplePathsFrom target fuel visited node) : ∃ rest, nodes = node :: rest := by
  cases fuel with
  | zero => cases h
  | succ fuel =>
    rw [simplePathsFrom_succ, List.mem_flatMap] at h
    obtain ⟨next, -, hBranch⟩ := h
    rcases mem_branch.mp hBranch with ⟨-, rfl⟩ | ⟨-, -, rest, -, rfl⟩
    · exact ⟨_, rfl⟩
    · exact ⟨_, rfl⟩

theorem exists_of_mem_branch (h : nodes ∈ g.branch target fuel visited node next) :
    ∃ rest, nodes = node :: next :: rest := by
  rcases mem_branch.mp h with ⟨rfl, rfl⟩ | ⟨-, -, rest, hRest, rfl⟩
  · exact ⟨[], rfl⟩
  · obtain ⟨rest, rfl⟩ := exists_of_mem_simplePathsFrom hRest
    exact ⟨rest, rfl⟩

/-- The paths from a node are in the order of their edges. -/
theorem pairwise_simplePathsFrom (hOnce : g.NoParallelEdges) (fuel : Nat) (visited : List Nat)
    (node : Nat) : (g.simplePathsFrom target fuel visited node).Pairwise g.LexBefore := by
  induction fuel generalizing visited node with
  | zero => exact .nil
  | succ fuel ih =>
    rw [simplePathsFrom_succ, List.pairwise_flatMap]
    constructor
    · -- paths that go on with the same edge
      intro next _
      unfold branch
      split
      · exact List.pairwise_singleton _ _
      · split
        · exact .nil
        · rw [List.pairwise_map]
          refine (ih (next :: visited) next).imp_of_mem fun hLeft hRight hBefore => ?_
          obtain ⟨left, rfl⟩ := exists_of_mem_simplePathsFrom hLeft
          obtain ⟨right, rfl⟩ := exists_of_mem_simplePathsFrom hRight
          unfold LexBefore
          rw [edgePositions_cons, edgePositions_cons]
          exact .cons hBefore
    · -- paths that part at this node
      refine (pairwise_successors hOnce node).imp fun hLt left hLeft right hRight => ?_
      obtain ⟨left, rfl⟩ := exists_of_mem_branch hLeft
      obtain ⟨right, rfl⟩ := exists_of_mem_branch hRight
      unfold LexBefore
      rw [edgePositions_cons, edgePositions_cons]
      exact .rel hLt

theorem pairwise_simplePaths (hOnce : g.NoParallelEdges) (source target : Nat) :
    (g.simplePaths source target).Pairwise g.LexBefore := by
  unfold simplePaths
  split
  · split
    · exact List.pairwise_singleton _ _
    · exact pairwise_simplePathsFrom hOnce _ _ _
  · exact .nil

theorem LexBefore.ne {left right : List Nat} (h : g.LexBefore left right) : left ≠ right := by
  rintro rfl
  exact List.lex_irrefl (fun x => Nat.lt_irrefl x) _ h

end Digraph

/-! ## The loop -/

namespace PathSearch

variable {α : Type} {g : Digraph α} {target : Nat} {marks : Array Bool} {path : List Nat}

/-- The marks are those of the nodes of a simple path. -/
structure Marked (g : Digraph α) (marks : Array Bool) (path : List Nat) : Prop
    extends Traversal.Marks g.size marks path where
  nodup : path.Nodup

theorem Marked.push (h : Marked g marks path) {node : Nat} (hNode : node < g.size)
    (hFresh : node ∉ path) : Marked g (marks.setIfInBounds node true) (node :: path) :=
  ⟨h.toMarks.mark hNode, List.nodup_cons.mpr ⟨hFresh, h.nodup⟩⟩

/-- A mark that is set and taken away leaves the marks as they were. -/
theorem Marked.restore (h : Marked g marks path) {node : Nat} (hNode : node < g.size)
    (hFresh : node ∉ path) :
    (marks.setIfInBounds node true).setIfInBounds node false = marks := by
  have hLt : node < marks.size := h.size_eq ▸ hNode
  have hMark : marks[node]? = some false := by
    have hNot := mt (h.marked_iff node).mp hFresh
    rw [Array.getElem?_eq_getElem hLt] at hNot ⊢
    simpa using hNot
  refine Array.ext_getElem? fun x => ?_
  rw [Array.getElem?_setIfInBounds, Array.getElem?_setIfInBounds, Array.size_setIfInBounds]
  by_cases hx : node = x
  · subst hx
    rw [if_pos rfl, if_pos hLt, hMark]
  · rw [if_neg hx, if_neg hx]

/-- A simple path of marked nodes leaves room for a node that is not on it. -/
theorem Marked.length_lt (h : Marked g marks path) {node : Nat} (hNode : node < g.size)
    (hFresh : node ∉ path) : path.length < g.size :=
  Traversal.length_le_of_nodup (List.nodup_cons.mpr ⟨hFresh, h.nodup⟩)
    (List.forall_mem_cons.mpr ⟨hNode, h.lt_bound⟩)

/-- The loop tries the successors of the last node of its path one after the other. When none is
left, it has found the paths that go on with one of them. -/
theorem loops_frame {fuel node : Nat} {below successors : List Nat} {frames found : List (List Nat)}
    {last : PathSearch} (hMarked : Marked g marks (node :: below))
    (hTarget : target ∉ node :: below) (hSuccessors : ∀ x ∈ successors, x < g.size)
    (hFuel : g.size ≤ fuel + (node :: below).length)
    (h : Loops (step g target) ⟨node :: below, [] :: frames, marks, found ++
      (successors.flatMap (g.branch target fuel (node :: below) node)).map (below.reverse ++ ·)⟩
      last) :
    Loops (step g target) ⟨node :: below, successors :: frames, marks, found⟩ last := by
  -- by induction on the depth that is left, and on the successors that are left at this depth
  induction fuel using Nat.strong_induction_on
    generalizing node below successors frames marks found with
  | _ fuel ih =>
    induction successors generalizing found with
    | nil => simpa using h
    | cons next successors ihRest =>
      obtain ⟨hNext, hSuccessors⟩ := List.forall_mem_cons.mp hSuccessors
      rw [List.flatMap_cons, List.map_append, ← List.append_assoc] at h
      have hRest := ihRest hSuccessors h
      by_cases hTo : next = target
      · refine .next ?_ hRest
        simp [step, Digraph.branch, hTo]
      · by_cases hOn : next ∈ node :: below
        · have hMark := (hMarked.marked_iff next).mpr hOn
          rw [Digraph.branch, if_neg hTo, if_pos (List.contains_iff_mem.mpr hOn)] at hRest
          refine .next ?_ hRest
          simp [step, isMarked, hTo, hMark]
        · -- the path grows by the successor, and loses it again when all is tried behind it
          have hMark := mt (hMarked.marked_iff next).mp hOn
          have hLength := hMarked.length_lt hNext hOn
          obtain ⟨depth, rfl⟩ : ∃ depth, fuel = depth + 1 := ⟨fuel - 1, by omega⟩
          rw [Digraph.branch, if_neg hTo, if_neg (mt List.contains_iff_mem.mp hOn),
            List.map_map] at hRest
          have hPushed : step g target
              ⟨node :: below, (next :: successors) :: frames, marks, found⟩ =
              some ⟨next :: node :: below, g.successors next :: successors :: frames,
                marks.setIfInBounds next true, found⟩ := by
            simp [step, isMarked, hTo, hMark]
          refine .next hPushed (ih depth (Nat.lt_succ_self _) (hMarked.push hNext hOn) ?_
            (g.successors_lt next) ?_ (.next rfl ?_))
          · rw [List.mem_cons, not_or]
            exact ⟨Ne.symm hTo, hTarget⟩
          · rw [List.length_cons]
            omega
          · have hReverse : ((node :: below).reverse ++ ·) =
                (below.reverse ++ ·) ∘ (node :: · : List Nat → List Nat) := by
              funext rest
              simp
            rw [hReverse, ← Digraph.simplePathsFrom_succ]
            simp only [retreat, hMarked.restore hNext hOn]
            exact hRest

/-- The loop between two different nodes ends, with the simple paths between them. -/
theorem loops_simplePaths {source : Nat} (hSource : source < g.size) (hTarget : target < g.size)
    (hNe : source ≠ target) :
    ∃ last, Loops (step g target) (.start g source) last ∧
      last.found = g.simplePaths source target := by
  have hMarked : Marked g ((Array.replicate g.size false).setIfInBounds source true) [source] := by
    have hNone : Marked g (Array.replicate g.size false) [] :=
      ⟨Traversal.marks_replicate g.size, List.nodup_nil⟩
    exact hNone.push hSource List.not_mem_nil
  obtain ⟨depth, hDepth⟩ : ∃ depth, g.size = depth + 1 := ⟨g.size - 1, by omega⟩
  have hFuel : g.size ≤ depth + [source].length := hDepth.le
  refine ⟨_, loops_frame hMarked (by simpa using Ne.symm hNe) (g.successors_lt source) hFuel
    (.next rfl (.stop rfl)), ?_⟩
  unfold Digraph.simplePaths
  rw [if_pos ⟨hSource, hTarget⟩, if_neg hNe, hDepth, Digraph.simplePathsFrom_succ]
  simp [retreat]

end PathSearch

namespace Digraph

variable {α : Type}

/-- **Simple paths are enumerated.** In a graph without parallel edges the loop between two
different nodes ends, with the list of the simple paths between them. The list holds each path from
the source to the target that visits no node twice, and no other. It has no repetition, and it is in
the lexicographic order of the positions of edges. From a node to itself there is the one path that
does not leave it. -/
theorem simplePaths_enumerate (g : Digraph α) (source target : Nat) (hSource : source < g.size)
    (hTarget : target < g.size) (hOnce : g.NoParallelEdges) :
    (source ≠ target → ∃ last, Loops (PathSearch.step g target) (.start g source) last ∧
        last.found = g.simplePaths source target) ∧
      (∀ nodes, nodes ∈ g.simplePaths source target ↔
        g.Path source target nodes ∧ nodes.Nodup) ∧
      (g.simplePaths source target).Nodup ∧ (g.simplePaths source target).Pairwise g.LexBefore ∧
      (source = target → g.simplePaths source target = [[source]]) := by
  have hSorted := pairwise_simplePaths hOnce source target
  refine ⟨PathSearch.loops_simplePaths hSource hTarget,
    fun nodes => mem_simplePaths hSource hTarget, hSorted.imp LexBefore.ne, hSorted, ?_⟩
  rintro rfl
  unfold simplePaths
  rw [if_pos ⟨hSource, hTarget⟩, if_pos rfl]

/-- Two nodes with edges to each other between the first node and the last, and an edge from the
last node back. -/
def crossing : Digraph Nat :=
  Draft.freeze
    { nodes := #[0, 1, 2, 3]
      edges := #[⟨0, 1, 1⟩, ⟨1, 2, 1⟩, ⟨0, 2, 1⟩, ⟨2, 1, 1⟩, ⟨2, 3, 1⟩, ⟨1, 3, 1⟩, ⟨1, 1, 1⟩,
        ⟨3, 0, 1⟩]
      edge_lt := by decide }

theorem simplePaths_enumerate_crossing :
    0 < crossing.size ∧ 3 < crossing.size ∧ crossing.NoParallelEdges ∧
      crossing.simplePaths 0 3 = [[0, 1, 2, 3], [0, 1, 3], [0, 2, 1, 3], [0, 2, 3]] ∧
      (∀ nodes, crossing.Path 0 3 nodes ∧ nodes.Nodup →
        nodes ∈ [[0, 1, 2, 3], [0, 1, 3], [0, 2, 1, 3], [0, 2, 3]]) ∧
      ∃ last, Loops (PathSearch.step crossing 3) (.start crossing 0) last ∧
        last.found = [[0, 1, 2, 3], [0, 1, 3], [0, 2, 1, 3], [0, 2, 3]] := by
  have hOnce : crossing.NoParallelEdges := by
    unfold NoParallelEdges
    decide
  have hPaths : crossing.simplePaths 0 3 =
      [[0, 1, 2, 3], [0, 1, 3], [0, 2, 1, 3], [0, 2, 3]] := by decide
  obtain ⟨hLoop, hMem, -⟩ := simplePaths_enumerate crossing 0 3 (by decide) (by decide) hOnce
  rw [hPaths] at hLoop hMem
  exact ⟨by decide, by decide, hOnce, hPaths, fun nodes => (hMem nodes).mpr, hLoop (by decide)⟩

end Digraph

end BytecodeFlow
