import BytecodeFlow.Digraph.Basic
import Mathlib.Logic.Relation
import Mathlib.Tactic

/-!
# Paths of directed graphs

A path is the list of the nodes it visits, its ends included, so that "the path passes through a
node" is membership in that list. Nodes may repeat. Every node of the graph has the path that
consists of it alone, and no other number has one.

* `Path.append`, `Path.split`: paths are joined and cut at a node.
* `Path.snoc_induction`: what one step after the other keeps holds along the whole path.
* `Path.reverse`: the paths of the reversed graph are the reversed paths.
* `Path.split_last`, `Path.split_first`: a path is cut at the last and at the first node with a
  given property.
-/

namespace BytecodeFlow.Digraph

variable {α : Type} {g : Digraph α}

/-- Some edge runs from `source` to `target`. -/
def Adj (g : Digraph α) (source target : Nat) : Prop :=
  ∃ e ∈ g.edges, e.source = source ∧ e.target = target

/-- The list holds the nodes of a path from the first node to the second, both included. -/
inductive Path (g : Digraph α) : Nat → Nat → List Nat → Prop where
  | single {node : Nat} : node < g.size → Path g node node [node]
  | cons {source next target : Nat} {nodes : List Nat} :
      g.Adj source next → Path g next target nodes → Path g source target (source :: nodes)

/-- Some path leads from `source` to `target`. -/
def Reaches (g : Digraph α) (source target : Nat) : Prop :=
  ∃ nodes, g.Path source target nodes

/-! ## Edges around a node -/

theorem Adj.source_lt {s t : Nat} (h : g.Adj s t) : s < g.size := by
  obtain ⟨e, he, rfl, -⟩ := h
  exact (g.edge_lt e he).1

theorem Adj.target_lt {s t : Nat} (h : g.Adj s t) : t < g.size := by
  obtain ⟨e, he, -, rfl⟩ := h
  exact (g.edge_lt e he).2

/-- The edges of a node are those with it at the end that counts, in the order of all edges. -/
theorem getD_edgesBy {key : Edge → Nat} {count : Nat} {edges : Array Edge}
    (hKey : ∀ e ∈ edges, key e < count) (node : Nat) :
    (edgesBy key count edges)[node]?.getD [] = edges.toList.filter (key · == node) := by
  by_cases hNode : node < count
  · simp [edgesBy, hNode]
  · have hNone : edges.toList.filter (key · == node) = [] := by
      rw [List.filter_eq_nil_iff]
      intro e he hEq
      rw [beq_iff_eq] at hEq
      exact hNode (hEq ▸ hKey e (by simpa using he))
    simp [edgesBy, hNode, hNone]

theorem edgesFrom_eq (g : Digraph α) (node : Nat) :
    g.edgesFrom node = g.edges.toList.filter (·.source == node) := by
  unfold edgesFrom
  rw [g.outgoing_eq]
  exact getD_edgesBy (fun e he => (g.edge_lt e he).1) node

theorem edgesInto_eq (g : Digraph α) (node : Nat) :
    g.edgesInto node = g.edges.toList.filter (·.target == node) := by
  unfold edgesInto
  rw [g.incoming_eq]
  exact getD_edgesBy (fun e he => (g.edge_lt e he).2) node

theorem mem_edgesFrom {node : Nat} {e : Edge} :
    e ∈ g.edgesFrom node ↔ e ∈ g.edges ∧ e.source = node := by
  rw [edgesFrom_eq, List.mem_filter, Array.mem_toList_iff, beq_iff_eq]

theorem mem_edgesInto {node : Nat} {e : Edge} :
    e ∈ g.edgesInto node ↔ e ∈ g.edges ∧ e.target = node := by
  rw [edgesInto_eq, List.mem_filter, Array.mem_toList_iff, beq_iff_eq]

theorem length_successors_le (g : Digraph α) (node : Nat) :
    (g.successors node).length ≤ g.edges.size := by
  rw [successors, List.length_map, edgesFrom_eq, ← Array.length_toList]
  exact List.length_filter_le _ _

theorem length_predecessors_le (g : Digraph α) (node : Nat) :
    (g.predecessors node).length ≤ g.edges.size := by
  rw [predecessors, List.length_map, edgesInto_eq, ← Array.length_toList]
  exact List.length_filter_le _ _

theorem mem_successors {s t : Nat} : t ∈ g.successors s ↔ g.Adj s t := by
  simp only [successors, List.mem_map, mem_edgesFrom, Adj, and_assoc]

theorem mem_predecessors {s t : Nat} : s ∈ g.predecessors t ↔ g.Adj s t := by
  simp only [predecessors, List.mem_map, mem_edgesInto, Adj]
  exact ⟨fun ⟨e, ⟨he, ht⟩, hs⟩ => ⟨e, he, hs, ht⟩, fun ⟨e, he, hs, ht⟩ => ⟨e, ⟨he, ht⟩, hs⟩⟩

theorem hasEdge_iff {s t : Nat} : g.hasEdge s t = true ↔ g.Adj s t := by
  simp only [hasEdge, List.contains_iff_mem, mem_successors]

theorem adj_reverse {s t : Nat} : g.reverse.Adj s t ↔ g.Adj t s := by
  constructor
  · rintro ⟨e, he, rfl, rfl⟩
    obtain ⟨e', he', rfl⟩ := Array.mem_map.mp he
    exact ⟨e', he', rfl, rfl⟩
  · rintro ⟨e, he, rfl, rfl⟩
    exact ⟨e.reversed, Array.mem_map.mpr ⟨e, he, rfl⟩, rfl, rfl⟩

/-! ## Joining and cutting paths -/

namespace Path

variable {source middle target : Nat} {nodes left right : List Nat}

theorem source_mem (h : g.Path source target nodes) : source ∈ nodes := by
  cases h <;> simp

theorem target_mem (h : g.Path source target nodes) : target ∈ nodes := by
  induction h with
  | single _ => simp
  | cons _ _ ih => exact List.mem_cons_of_mem _ ih

theorem source_lt (h : g.Path source target nodes) : source < g.size := by
  cases h with
  | single hNode => exact hNode
  | cons hAdj _ => exact hAdj.source_lt

theorem target_lt (h : g.Path source target nodes) : target < g.size := by
  induction h with
  | single hNode => exact hNode
  | cons _ _ ih => exact ih

/-- A path comes to every node but its first one along an edge. -/
theorem eq_source_or_adj (h : g.Path source target nodes) :
    ∀ x ∈ nodes, x = source ∨ ∃ u, g.Adj u x := by
  induction h with
  | single _ => simp
  | @cons source next _ _ hAdj _ ih =>
    intro x hx
    rcases List.mem_cons.mp hx with rfl | hx
    · exact Or.inl rfl
    · rcases ih x hx with rfl | hInto
      · exact Or.inr ⟨source, hAdj⟩
      · exact Or.inr hInto

/-- A path that comes back to its source without visiting a node twice has not left it. -/
theorem eq_singleton (h : g.Path source source nodes) (hNodup : nodes.Nodup) :
    nodes = [source] := by
  cases h with
  | single _ => rfl
  | cons _ hRest => exact absurd hRest.target_mem (List.nodup_cons.mp hNodup).1

/-- Two paths that meet at `middle` make one, whose nodes are those of both. -/
theorem append (hLeft : g.Path source middle left) (hRight : g.Path middle target right) :
    ∃ nodes, g.Path source target nodes ∧ ∀ x, x ∈ nodes ↔ x ∈ left ∨ x ∈ right := by
  induction hLeft with
  | single _ =>
    refine ⟨right, hRight, fun x => ⟨Or.inr, ?_⟩⟩
    rintro (hx | hx)
    · obtain rfl := List.mem_singleton.mp hx
      exact hRight.source_mem
    · exact hx
  | @cons source next middle left hAdj _ ih =>
    obtain ⟨nodes, hPath, hMem⟩ := ih hRight
    refine ⟨source :: nodes, .cons hAdj hPath, fun x => ?_⟩
    simp only [List.mem_cons, hMem, or_assoc]

theorem snoc (h : g.Path source middle nodes) (hAdj : g.Adj middle target) :
    g.Path source target (nodes ++ [target]) := by
  induction h with
  | single _ => exact .cons hAdj (.single hAdj.target_lt)
  | cons hFirst _ ih => exact .cons hFirst (ih hAdj)

/-- A path grows from its source edge by edge. -/
@[elab_as_elim]
theorem snoc_induction
    {motive : (target : Nat) → (nodes : List Nat) → g.Path source target nodes → Prop}
    (single : ∀ h : source < g.size, motive source [source] (.single h))
    (snoc : ∀ {middle target : Nat} {nodes : List Nat} (hPath : g.Path source middle nodes)
      (hAdj : g.Adj middle target), motive middle nodes hPath →
      motive target (nodes ++ [target]) (hPath.snoc hAdj))
    {target : Nat} {nodes : List Nat} (h : g.Path source target nodes) : motive target nodes h := by
  -- the part of the path that is built already is joined to what is left of it
  have hRest : ∀ {next target : Nat} {rest : List Nat}, g.Path next target rest →
      ∀ {middle : Nat} {before : List Nat} (hBefore : g.Path source middle before),
        g.Adj middle next → motive middle before hBefore →
        ∀ hAll : g.Path source target (before ++ rest), motive target (before ++ rest) hAll := by
    intro next target rest hRest
    induction hRest with
    | single _ => exact fun hBefore hAdj hMotive _ => snoc hBefore hAdj hMotive
    | @cons next _ _ rest hNext _ ih =>
      intro middle before hBefore hAdj hMotive hAll
      have hMore := ih (hBefore.snoc hAdj) hNext (snoc hBefore hAdj hMotive)
      simp only [List.append_assoc, List.singleton_append] at hMore
      exact hMore hAll
  cases h with
  | single hLt => exact single hLt
  | cons hAdj hPath =>
    have hLt := hAdj.source_lt
    exact hRest hPath (.single hLt) hAdj (single hLt) _

/-- The last edge of a path is its last step. -/
theorem zip_tail_snoc (h : g.Path source middle nodes) (target : Nat) :
    (nodes ++ [target]).zip (nodes ++ [target]).tail =
      nodes.zip nodes.tail ++ [(middle, target)] := by
  induction h with
  | single _ => rfl
  | cons _ hPath ih =>
    cases hPath with
    | single _ => rfl
    | cons _ _ => exact congrArg (List.cons _) ih

/-- A path is cut at a node it passes through. -/
theorem split (h : g.Path source target nodes) (hMem : middle ∈ nodes) :
    ∃ left right, g.Path source middle left ∧ g.Path middle target right ∧
      (∀ x ∈ left, x ∈ nodes) ∧ ∀ x ∈ right, x ∈ nodes := by
  induction h with
  | single hNode =>
    obtain rfl := List.mem_singleton.mp hMem
    exact ⟨_, _, .single hNode, .single hNode, fun _ => id, fun _ => id⟩
  | @cons source next target nodes hAdj hRest ih =>
    rcases List.mem_cons.mp hMem with rfl | hMem
    · refine ⟨_, _, .single hAdj.source_lt, .cons hAdj hRest, ?_, fun _ => id⟩
      intro x hx
      obtain rfl := List.mem_singleton.mp hx
      exact List.mem_cons_self
    · obtain ⟨left, right, hLeft, hRight, hSubLeft, hSubRight⟩ := ih hMem
      refine ⟨_, right, .cons hAdj hLeft, hRight, ?_, ?_⟩
      · intro x hx
        rcases List.mem_cons.mp hx with rfl | hx
        · exact List.mem_cons_self
        · exact List.mem_cons_of_mem _ (hSubLeft x hx)
      · intro x hx
        exact List.mem_cons_of_mem _ (hSubRight x hx)

/-- A path that passes through nodes with a property is cut at the last of them: none of the nodes
behind it has the property. -/
theorem split_last {P : Nat → Prop} (h : g.Path source target nodes) (hMem : ∃ x ∈ nodes, P x) :
    ∃ middle right, P middle ∧ g.Path middle target (middle :: right) ∧
      (∀ x ∈ middle :: right, x ∈ nodes) ∧ ∀ x ∈ right, ¬ P x := by
  induction h with
  | @single node hNode =>
    obtain ⟨x, hx, hP⟩ := hMem
    obtain rfl := List.mem_singleton.mp hx
    exact ⟨x, [], hP, .single hNode, fun _ => id, by simp⟩
  | @cons source next target nodes hAdj hRest ih =>
    by_cases hLater : ∃ x ∈ nodes, P x
    · obtain ⟨middle, right, hP, hPath, hSub, hFree⟩ := ih hLater
      exact ⟨middle, right, hP, hPath, fun x hx => List.mem_cons_of_mem _ (hSub x hx), hFree⟩
    · -- no later node has the property, so the one that has it is the source
      have hNone : ∀ x ∈ nodes, ¬ P x := fun x hx hP => hLater ⟨x, hx, hP⟩
      obtain ⟨x, hx, hP⟩ := hMem
      rcases List.mem_cons.mp hx with rfl | hx
      · exact ⟨x, nodes, hP, .cons hAdj hRest, fun _ => id, hNone⟩
      · exact absurd hP (hNone x hx)

/-- The same at the first of the nodes with a property: none of those before it has it. -/
theorem split_first {P : Nat → Prop} (h : g.Path source target nodes) (hMem : ∃ x ∈ nodes, P x) :
    ∃ middle left, P middle ∧ g.Path source middle (left ++ [middle]) ∧ ∀ x ∈ left, ¬ P x := by
  induction h with
  | @single node hNode =>
    obtain ⟨x, hx, hP⟩ := hMem
    obtain rfl := List.mem_singleton.mp hx
    exact ⟨x, [], hP, .single hNode, by simp⟩
  | @cons source next target nodes hAdj hRest ih =>
    by_cases hSource : P source
    · exact ⟨source, [], hSource, .single hAdj.source_lt, by simp⟩
    · obtain ⟨x, hx, hP⟩ := hMem
      have hLater : x ∈ nodes := by
        rcases List.mem_cons.mp hx with rfl | hx
        · exact absurd hP hSource
        · exact hx
      obtain ⟨middle, left, hMiddle, hLeft, hFree⟩ := ih ⟨x, hLater, hP⟩
      refine ⟨middle, source :: left, hMiddle, .cons hAdj hLeft, ?_⟩
      intro y hy
      rcases List.mem_cons.mp hy with rfl | hy
      · exact hSource
      · exact hFree y hy

theorem reverse (h : g.Path source target nodes) :
    g.reverse.Path target source nodes.reverse := by
  induction h with
  | single hNode => exact .single hNode
  | cons hAdj _ ih =>
    rw [List.reverse_cons]
    exact ih.snoc (adj_reverse.mpr hAdj)

theorem of_reverse (h : g.reverse.Path source target nodes) :
    g.Path target source nodes.reverse := by
  induction h with
  | single hNode => exact .single hNode
  | cons hAdj _ ih =>
    rw [List.reverse_cons]
    exact ih.snoc (adj_reverse.mp hAdj)

end Path

/-! ## Reachability -/

namespace Reaches

variable {source middle target : Nat}

theorem refl (h : source < g.size) : g.Reaches source source :=
  ⟨_, .single h⟩

theorem trans (hLeft : g.Reaches source middle) (hRight : g.Reaches middle target) :
    g.Reaches source target := by
  obtain ⟨_, hLeft⟩ := hLeft
  obtain ⟨_, hRight⟩ := hRight
  obtain ⟨nodes, hPath, -⟩ := hLeft.append hRight
  exact ⟨nodes, hPath⟩

theorem tail (h : g.Reaches source middle) (hAdj : g.Adj middle target) :
    g.Reaches source target := by
  obtain ⟨_, hPath⟩ := h
  exact ⟨_, hPath.snoc hAdj⟩

/-- Reachability is the reflexive and transitive closure of adjacency on the nodes. -/
theorem iff_reflTransGen :
    g.Reaches source target ↔
      source < g.size ∧ Relation.ReflTransGen g.Adj source target := by
  constructor
  · rintro ⟨nodes, hPath⟩
    refine ⟨hPath.source_lt, ?_⟩
    induction hPath with
    | single _ => exact .refl
    | cons hAdj _ ih => exact .head hAdj ih
  · rintro ⟨hSource, hSteps⟩
    induction hSteps with
    | refl => exact .refl hSource
    | tail _ hAdj ih => exact ih.tail hAdj

theorem iff_reverse : g.reverse.Reaches source target ↔ g.Reaches target source :=
  ⟨fun ⟨_, hPath⟩ => ⟨_, hPath.of_reverse⟩, fun ⟨_, hPath⟩ => ⟨_, hPath.reverse⟩⟩

end Reaches

end BytecodeFlow.Digraph
