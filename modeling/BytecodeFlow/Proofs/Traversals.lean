import BytecodeFlow.Digraph.SearchStack
import BytecodeFlow.Proofs.Reachability

/-!
# Traversals agree on what is reachable

The depth-first and the breadth-first search are loops over an agenda that mark a node when they put
it there. Both loops end, since every node is put on the agenda at most once, and what they list is
what the searches by a step bound list (`loops_agendaSearch`).

The breadth-first search lists the nodes by their distance from the start. At any time its agenda
consists of nodes at some distance, followed by nodes that are one step farther away
(`Digraph.Levels`); when the first part is used up, the second one takes its place.

* `Traversal.Searches.nodup`: no search lists a node twice.
* `Digraph.pairwise_breadthFirst`: the order of the breadth-first search.
* `Digraph.markReachable_eq`: searches from several starts with one table of marks.
-/

namespace BytecodeFlow

namespace Traversal

variable {next : Nat → List Nat} {bound fuel : Nat} {agenda seen listed : List Nat}

/-- A search lists no node twice, and of the nodes seen before it lists those on its agenda only. -/
theorem Searches.nodup (h : Searches next fuel agenda seen listed)
    (hNext : ∀ x, ∀ y ∈ next x, y < bound) (hFair : Fair bound fuel agenda seen) :
    listed.Nodup ∧ ∀ x ∈ listed, x ∈ seen → x ∈ agenda := by
  induction h with
  | stopped => simp
  | done => simp
  | @take _ node agenda seen fresh later listed hNodup hFresh hLater _ ih =>
    obtain ⟨hListed, hOld⟩ := ih (hFair.step hNext hNodup hFresh hLater)
    -- what is listed later and was seen before lies on the agenda behind the node
    have hBehind : ∀ x ∈ listed, x ∈ seen → x ∈ agenda := by
      intro x hx hSeen
      rcases List.mem_append.mp
        (hLater.mem_iff.mp (hOld x hx (List.mem_append_right _ hSeen))) with hWaits | hNew
      · exact hWaits
      · exact absurd hSeen ((hFresh x).mp hNew).2
    refine ⟨List.nodup_cons.mpr ⟨fun hNode => ?_, hListed⟩, fun x hx hSeen => ?_⟩
    · have hSeen := hFair.agenda_sub node List.mem_cons_self
      exact (List.nodup_cons.mp hFair.agenda_nodup).1 (hBehind node hNode hSeen)
    · rcases List.mem_cons.mp hx with rfl | hx
      · exact List.mem_cons_self
      · exact List.mem_cons_of_mem _ (hBehind x hx hSeen)

end Traversal

/-! ## The loops -/

namespace AgendaOrder

open Traversal

/-- The search by a step bound. -/
def search (next : Nat → List Nat) : AgendaOrder → Nat → List Nat → List Nat → List Nat
  | .stack => depthFirst next
  | .queue => breadthFirst next

variable {next : Nat → List Nat} {order : AgendaOrder}

theorem foldl_put (fresh agenda : List Nat) : fresh.foldl order.put agenda =
    match order with
    | .stack => fresh.reverse ++ agenda
    | .queue => agenda ++ fresh := by
  induction fresh generalizing agenda with
  | nil => cases order <;> simp
  | cons node fresh ih =>
    rw [List.foldl_cons, ih]
    cases order <;> simp [put]

theorem search_nil (fuel : Nat) (seen : List Nat) : order.search next fuel [] seen = [] := by
  cases order <;> cases fuel <;> rfl

theorem search_cons (fuel node : Nat) (agenda seen : List Nat) :
    order.search next (fuel + 1) (node :: agenda) seen =
      node :: order.search next fuel
        ((unseen seen (order.arrange (next node))).foldl order.put agenda)
        (unseen seen (order.arrange (next node)) ++ seen) := by
  rw [foldl_put]
  cases order <;> rfl

theorem mem_arrange {nodes : List Nat} {x : Nat} : x ∈ order.arrange nodes ↔ x ∈ nodes := by
  cases order <;> simp [arrange]

theorem foldl_put_perm (fresh agenda : List Nat) :
    (fresh.foldl order.put agenda).Perm (agenda ++ fresh) := by
  rw [foldl_put]
  cases order with
  | stack => exact perm_reverse_append fresh agenda
  | queue => exact .refl _

end AgendaOrder

namespace AgendaSearch

open Traversal

variable {α : Type} {g : Digraph α} {marks : Array Bool} {seen : List Nat}

/-- Of a list of nodes, those are put on the agenda that are not seen yet. -/
theorem foldl_meet {bound : Nat} (order : AgendaOrder) (nodes agenda listed : List Nat)
    (hMarks : Marks bound marks seen) (hNodes : ∀ x ∈ nodes, x < bound) :
    ∃ marks', Marks bound marks' (unseen seen nodes ++ seen) ∧
      nodes.foldl (meet order) ⟨agenda, marks, listed⟩ =
        ⟨(unseen seen nodes).foldl order.put agenda, marks', listed⟩ := by
  induction nodes generalizing seen agenda marks with
  | nil => exact ⟨marks, hMarks, rfl⟩
  | cons node nodes ih =>
    obtain ⟨hNode, hNodes⟩ := List.forall_mem_cons.mp hNodes
    rw [List.foldl_cons]
    by_cases hSeen : node ∈ seen
    · have hMeet : meet order ⟨agenda, marks, listed⟩ node = ⟨agenda, marks, listed⟩ :=
        if_pos ((hMarks.marked_iff node).mpr hSeen)
      rw [hMeet, unseen, if_pos (List.contains_iff_mem.mpr hSeen)]
      exact ih agenda hMarks hNodes
    · have hMeet : meet order ⟨agenda, marks, listed⟩ node =
          ⟨order.put agenda node, marks.setIfInBounds node true, listed⟩ :=
        if_neg (mt (hMarks.marked_iff node).mp hSeen)
      rw [hMeet, unseen, if_neg (mt List.contains_iff_mem.mp hSeen)]
      obtain ⟨marks', hMarks', hFold⟩ := ih (order.put agenda node) (hMarks.mark hNode) hNodes
      refine ⟨marks', hMarks'.congr fun x => ?_, hFold⟩
      simp only [List.mem_append, List.mem_cons]
      tauto

/-- The loop ends, and lists what the search by a step bound lists. -/
theorem loops_agenda (order : AgendaOrder) {fuel : Nat} {agenda : List Nat} (listed : List Nat)
    (hMarks : Marks g.size marks seen) (hFair : Fair g.size fuel agenda seen) :
    ∃ marks', Loops (step order g) ⟨agenda, marks, listed⟩
      ⟨[], marks', listed ++ order.search g.successors fuel agenda seen⟩ := by
  induction fuel generalizing agenda seen marks listed with
  | zero =>
    obtain rfl := hFair.agenda_eq_nil
    rw [AgendaOrder.search_nil, List.append_nil]
    exact ⟨marks, .stop rfl⟩
  | succ fuel ih =>
    cases agenda with
    | nil =>
      rw [AgendaOrder.search_nil, List.append_nil]
      exact ⟨marks, .stop rfl⟩
    | cons node agenda =>
      obtain ⟨marks₁, hMarks₁, hFold⟩ :=
        foldl_meet order (order.arrange (g.successors node)) agenda (listed ++ [node]) hMarks
          fun x hx => g.successors_lt node x (AgendaOrder.mem_arrange.mp hx)
      have hFresh : ∀ x, x ∈ unseen seen (order.arrange (g.successors node)) ↔
          x ∈ g.successors node ∧ x ∉ seen := by
        intro x
        rw [mem_unseen, AgendaOrder.mem_arrange]
      obtain ⟨marks', hLoops⟩ := ih (listed ++ [node]) hMarks₁
        (hFair.step g.successors_lt nodup_unseen hFresh (AgendaOrder.foldl_put_perm _ _))
      refine ⟨marks', .next (congrArg some hFold) ?_⟩
      rw [AgendaOrder.search_cons]
      simpa using hLoops

end AgendaSearch

namespace Digraph

open Traversal

variable {α : Type} {g : Digraph α} {start : Nat}

theorem loops_agendaSearch (order : AgendaOrder) (start : Nat) :
    ∃ last, Loops (AgendaSearch.step order g) (.start g start) last ∧
      last.listed = match order with
        | .stack => g.depthFirst start
        | .queue => g.breadthFirst start := by
  by_cases hStart : start < g.size
  · obtain ⟨marks, hLoops⟩ := AgendaSearch.loops_agenda (g := g) order []
      ((marks_replicate g.size).mark hStart) (Fair.start (List.nodup_singleton start) (by simpa))
    refine ⟨_, by simpa [AgendaSearch.start, hStart] using hLoops, ?_⟩
    cases order <;> simp [AgendaOrder.search, depthFirst, breadthFirst, hStart]
  · refine ⟨_, .stop (by simp [AgendaSearch.start, hStart, AgendaSearch.step]), ?_⟩
    cases order <;> simp [AgendaSearch.start, depthFirst, breadthFirst, hStart]

/-- A search along the edges lists no node twice. -/
theorem nodup_searched {listed : List Nat}
    (h : Searches g.successors g.size [start] [start] listed) :
    (if start < g.size then listed else []).Nodup := by
  split
  · rename_i hStart
    exact (h.nodup g.successors_lt (Fair.start (List.nodup_singleton start) (by simpa))).1
  · exact List.nodup_nil

theorem nodup_depthFirst (g : Digraph α) (start : Nat) : (g.depthFirst start).Nodup :=
  nodup_searched (searches_depthFirst _ _ _)

theorem nodup_breadthFirst (g : Digraph α) (start : Nat) : (g.breadthFirst start).Nodup :=
  nodup_searched (searches_breadthFirst _ _ _)

/-! ## Distances -/

/-- The shortest paths from `source` to `target` have `d` edges. -/
structure IsDistance (g : Digraph α) (source target d : Nat) : Prop where
  attained : ∃ nodes, g.Path source target nodes ∧ nodes.length = d + 1
  least : ∀ nodes, g.Path source target nodes → d + 1 ≤ nodes.length

namespace IsDistance

variable {source target middle d e : Nat}

theorem unique (h : g.IsDistance source target d) (h' : g.IsDistance source target e) : d = e := by
  obtain ⟨nodes, hPath, hLength⟩ := h.attained
  obtain ⟨nodes', hPath', hLength'⟩ := h'.attained
  have hLe := h.least nodes' hPath'
  have hGe := h'.least nodes hPath
  omega

theorem reaches (h : g.IsDistance source target d) : g.Reaches source target := by
  obtain ⟨nodes, hPath, -⟩ := h.attained
  exact ⟨nodes, hPath⟩

theorem self (h : source < g.size) : g.IsDistance source source 0 := by
  refine ⟨⟨[source], .single h, rfl⟩, fun nodes hPath => ?_⟩
  exact List.length_pos_of_mem hPath.source_mem

theorem eq_of_zero (h : g.IsDistance source target 0) : target = source := by
  obtain ⟨nodes, hPath, hLength⟩ := h.attained
  cases hPath with
  | single _ => rfl
  | cons _ hRest =>
    have hPos := List.length_pos_of_mem hRest.source_mem
    rw [List.length_cons] at hLength
    omega

/-- The end of an edge is at most one step farther away than its start. -/
theorem le_succ (h : g.IsDistance source middle d) (hAdj : g.Adj middle target)
    (h' : g.IsDistance source target e) : e ≤ d + 1 := by
  obtain ⟨nodes, hPath, hLength⟩ := h.attained
  have hLeast := h'.least _ (hPath.snoc hAdj)
  rw [List.length_append, List.length_singleton] at hLeast
  omega

/-- A shortest path comes to its end from a node that is one step nearer. -/
theorem exists_pred (h : g.IsDistance source target (d + 1)) :
    ∃ u, g.Adj u target ∧ g.IsDistance source u d := by
  obtain ⟨nodes, hPath, hLength⟩ := h.attained
  cases hPath using Path.snoc_induction with
  | single _ => cases hLength
  | @snoc middle _ nodes hPath hAdj _ =>
    refine ⟨middle, hAdj, ⟨nodes, hPath, by simpa using hLength⟩, fun shorter hShorter => ?_⟩
    have hLeast := h.least _ (hShorter.snoc hAdj)
    simpa using hLeast

end IsDistance

theorem exists_isDistance {source target : Nat} (h : g.Reaches source target) :
    ∃ d, g.IsDistance source target d := by
  classical
  have hSome : ∃ d, ∃ nodes, g.Path source target nodes ∧ nodes.length = d + 1 := by
    obtain ⟨nodes, hPath⟩ := h
    have hPos := List.length_pos_of_mem hPath.source_mem
    exact ⟨nodes.length - 1, nodes, hPath, by omega⟩
  refine ⟨Nat.find hSome, Nat.find_spec hSome, fun nodes hPath => ?_⟩
  have hPos := List.length_pos_of_mem hPath.source_mem
  have hLeast := Nat.find_min' hSome ⟨nodes, hPath, (Nat.succ_pred_eq_of_pos hPos).symm⟩
  rw [Nat.pred_eq_sub_one] at hLeast
  omega

/-! ## The order of the breadth-first search -/

/-- What holds between two steps of the breadth-first search, where its agenda is `front ++ back`:
the nodes in front are at the distance `d`, those at the back are one step farther away. All nodes
up to `d` are seen, none beyond `d + 1`, and a node in between waits at the back or will be met from
a node in front. -/
structure Levels (g : Digraph α) (start : Nat) (front back seen : List Nat) (d : Nat) : Prop where
  front_at : ∀ x ∈ front, g.IsDistance start x d
  back_at : ∀ x ∈ back, g.IsDistance start x (d + 1)
  seen_of_le : ∀ x e, g.IsDistance start x e → e ≤ d → x ∈ seen
  le_of_seen : ∀ x e, g.IsDistance start x e → x ∈ seen → e ≤ d + 1
  between : ∀ x, g.IsDistance start x (d + 1) →
    x ∈ back ∨ x ∉ seen ∧ ∃ u ∈ front, g.Adj u x

namespace Levels

variable {front back seen : List Nat} {node d : Nat}

theorem init (hStart : start < g.size) : g.Levels start [start] [] [start] 0 := by
  have hSelf := IsDistance.self hStart
  refine ⟨by simpa using hSelf, by simp, fun x e hx hLe => ?_, fun x e hx hSeen => ?_,
    fun x hx => ?_⟩
  · obtain rfl := Nat.le_zero.mp hLe
    exact List.mem_singleton.mpr hx.eq_of_zero
  · obtain rfl := List.mem_singleton.mp hSeen
    rw [hx.unique hSelf]
    exact Nat.zero_le _
  · obtain ⟨u, hAdj, hu⟩ := hx.exists_pred
    refine Or.inr ⟨fun hSeen => ?_, u, List.mem_singleton.mpr hu.eq_of_zero, hAdj⟩
    obtain rfl := List.mem_singleton.mp hSeen
    cases hx.unique hSelf

/-- The search lists a node in front, and its new neighbours come to the back. -/
theorem take (h : g.Levels start (node :: front) back seen d) :
    g.Levels start front (back ++ unseen seen (g.successors node))
      (unseen seen (g.successors node) ++ seen) d := by
  obtain ⟨hNode, hFront⟩ := List.forall_mem_cons.mp h.front_at
  -- a new neighbour is one step farther away than the node, or it would have been seen
  have hFresh : ∀ x ∈ unseen seen (g.successors node), g.IsDistance start x (d + 1) := by
    intro x hx
    obtain ⟨hNext, hNew⟩ := mem_unseen.mp hx
    have hAdj := mem_successors.mp hNext
    obtain ⟨e, he⟩ := exists_isDistance (hNode.reaches.tail hAdj)
    have hLe := hNode.le_succ hAdj he
    have hGt : ¬ e ≤ d := fun hLe => hNew (h.seen_of_le x e he hLe)
    obtain rfl : e = d + 1 := by omega
    exact he
  refine ⟨hFront, ?_, ?_, ?_, ?_⟩
  · intro x hx
    rcases List.mem_append.mp hx with hx | hx
    · exact h.back_at x hx
    · exact hFresh x hx
  · intro x e he hLe
    exact List.mem_append_right _ (h.seen_of_le x e he hLe)
  · intro x e he hx
    rcases List.mem_append.mp hx with hx | hx
    · exact (he.unique (hFresh x hx)).le
    · exact h.le_of_seen x e he hx
  · intro x hx
    rcases h.between x hx with hBack | ⟨hNew, u, hu, hAdj⟩
    · exact Or.inl (List.mem_append_left _ hBack)
    · by_cases hNext : x ∈ g.successors node
      · exact Or.inl (List.mem_append_right _ (mem_unseen.mpr ⟨hNext, hNew⟩))
      · refine Or.inr ⟨by simp [mem_unseen, hNext, hNew], u, ?_, hAdj⟩
        rcases List.mem_cons.mp hu with rfl | hu
        · exact absurd (mem_successors.mpr hAdj) hNext
        · exact hu

/-- Where no node is in front, the nodes at the back come to the front. -/
theorem shift (h : g.Levels start [] back seen d) (hSeen : ∀ x ∈ back, x ∈ seen) :
    g.Levels start back [] seen (d + 1) := by
  have hBack : ∀ x, g.IsDistance start x (d + 1) → x ∈ back := by
    intro x hx
    rcases h.between x hx with hBack | ⟨-, u, hu, -⟩
    · exact hBack
    · cases hu
  refine ⟨h.back_at, by simp, ?_, ?_, ?_⟩
  · intro x e he hLe
    rcases Nat.le_succ_iff.mp hLe with hLe | rfl
    · exact h.seen_of_le x e he hLe
    · exact hSeen x (hBack x he)
  · intro x e he hx
    have hLe := h.le_of_seen x e he hx
    omega
  · intro x hx
    obtain ⟨u, hAdj, hu⟩ := hx.exists_pred
    refine Or.inr ⟨fun hOld => ?_, u, hBack u hu, hAdj⟩
    have hLe := h.le_of_seen x _ hx hOld
    omega

/-- The first node of the agenda is in front, at the distance of the old front or farther away. -/
theorem exists_front {agenda : List Nat} (h : g.Levels start front back seen d)
    (hAgenda : front ++ back = node :: agenda) (hSeen : ∀ x ∈ node :: agenda, x ∈ seen) :
    ∃ front' back' d', d ≤ d' ∧ agenda = front' ++ back' ∧
      g.Levels start (node :: front') back' seen d' := by
  cases front with
  | nil =>
    obtain rfl : back = node :: agenda := hAgenda
    exact ⟨agenda, [], d + 1, Nat.le_succ d, (List.append_nil agenda).symm, h.shift hSeen⟩
  | cons first front =>
    obtain ⟨rfl, rfl⟩ := List.cons.inj hAgenda
    exact ⟨front, back, d, le_rfl, rfl, h⟩

end Levels

/-- What the search still lists is ordered by distance, and none of it is nearer than the front. -/
theorem levelled_breadthFirst {fuel d : Nat} {front back seen : List Nat}
    (h : g.Levels start front back seen d) (hFair : Fair g.size fuel (front ++ back) seen) :
    (Traversal.breadthFirst g.successors fuel (front ++ back) seen).Pairwise
        (fun x y => ∀ e f, g.IsDistance start x e → g.IsDistance start y f → e ≤ f) ∧
      ∀ y ∈ Traversal.breadthFirst g.successors fuel (front ++ back) seen, ∀ f,
        g.IsDistance start y f → d ≤ f := by
  induction fuel generalizing front back seen d with
  | zero => simp [Traversal.breadthFirst]
  | succ fuel ih =>
    cases hAgenda : front ++ back with
    | nil => simp [Traversal.breadthFirst]
    | cons node agenda =>
      rw [hAgenda] at hFair
      obtain ⟨front', back', d', hLe, rfl, hLevels⟩ := h.exists_front hAgenda hFair.agenda_sub
      have hNext := hFair.step g.successors_lt nodup_unseen (fun _ => mem_unseen) (.refl _)
      rw [List.append_assoc] at hNext
      obtain ⟨hSorted, hFar⟩ := ih hLevels.take hNext
      have hNode := hLevels.front_at node List.mem_cons_self
      rw [Traversal.breadthFirst, List.append_assoc]
      refine ⟨List.pairwise_cons.mpr ⟨fun y hy e f he hf => ?_, hSorted⟩, fun y hy f hf => ?_⟩
      · rw [he.unique hNode]
        exact hFar y hy f hf
      · rcases List.mem_cons.mp hy with rfl | hy
        · rw [hf.unique hNode]
          exact hLe
        · exact hLe.trans (hFar y hy f hf)

/-- The breadth-first search lists the nodes by their distance from the start. -/
theorem pairwise_breadthFirst (hStart : start < g.size) :
    (g.breadthFirst start).Pairwise
      fun x y => ∀ e f, g.IsDistance start x e → g.IsDistance start y f → e ≤ f := by
  have hFair : Fair g.size g.size [start] [start] :=
    Fair.start (List.nodup_singleton start) (by simpa)
  rw [breadthFirst, if_pos hStart]
  exact (levelled_breadthFirst (Levels.init hStart) hFair).1

/-! ## Several starts -/

/-- The nodes of a list are marked one after the other. -/
theorem marks_foldl {bound : Nat} {marks : Array Bool} {seen : List Nat} (nodes : List Nat)
    (hMarks : Marks bound marks seen) (hNodes : ∀ x ∈ nodes, x < bound) :
    Marks bound (nodes.foldl (fun marks node => marks.setIfInBounds node true) marks)
      (seen ++ nodes) := by
  induction nodes generalizing marks seen with
  | nil => rwa [List.append_nil]
  | cons node nodes ih =>
    obtain ⟨hNode, hNodes⟩ := List.forall_mem_cons.mp hNodes
    refine (ih (hMarks.mark hNode) hNodes).congr fun x => ?_
    simp only [List.mem_append, List.mem_cons]
    tauto

theorem marks_markReachable (g : Digraph α) (starts : List Nat) :
    Marks g.size (g.markReachable starts) (g.reachableFrom starts) := by
  unfold markReachable reachableFrom
  generalize hMarks : Array.replicate g.size false = marks
  have hSeen : Marks g.size marks [] := hMarks ▸ marks_replicate g.size
  clear hMarks
  generalize ([] : List Nat) = seen at hSeen ⊢
  induction starts generalizing marks seen with
  | nil => exact hSeen
  | cons start starts ih =>
    rw [List.foldl_cons, List.foldl_cons]
    refine ih _ _ ?_
    by_cases hOld : start ∈ seen
    · have hMark := (hSeen.marked_iff start).mpr hOld
      rw [if_pos (by simp [hMark]), if_pos (List.contains_iff_mem.mpr hOld)]
      exact hSeen
    · have hMark := mt (hSeen.marked_iff start).mp hOld
      rw [if_neg (mt List.contains_iff_mem.mp hOld)]
      by_cases hStart : start < g.size
      · rw [if_neg (by simp [hMark, hStart])]
        refine marks_foldl _ hSeen fun x hx => ?_
        obtain ⟨nodes, hPath⟩ := mem_breadthFirst_iff.mp hx
        exact hPath.target_lt
      · -- outside the graph there is nothing to list
        rw [if_pos (by simp; omega), breadthFirst, if_neg hStart, List.append_nil]
        exact hSeen

/-- The searches from several starts can share their marks. -/
theorem markReachable_eq (g : Digraph α) (starts : List Nat) :
    g.markReachable starts = g.reachable starts := by
  have hMarks := marks_markReachable g starts
  refine Array.ext (hMarks.size_eq.trans (by simp [reachable])) fun x hx _ => ?_
  have hMarked := hMarks.marked_iff x
  rw [Array.getElem?_eq_getElem hx, Option.getD_some] at hMarked
  rw [Bool.eq_iff_iff, hMarked]
  simp [reachable]

/-! ## What the traversals list -/

/-- **All traversals see the same nodes.** From a node of the graph, the loops of the depth-first
and of the breadth-first search end, and both list the nodes that the start reaches, each of them
once, the breadth-first search by their distance from the start. The searches from several starts
mark what any of them reaches, and there is a path exactly to what the start reaches. -/
theorem traversals_agree (g : Digraph α) :
    (∀ start, start < g.size →
      (∃ last, Loops (AgendaSearch.step .stack g) (.start g start) last ∧
        last.listed = g.depthFirst start) ∧
      (∃ last, Loops (AgendaSearch.step .queue g) (.start g start) last ∧
        last.listed = g.breadthFirst start) ∧
      (g.depthFirst start).Nodup ∧ (∀ x, x ∈ g.depthFirst start ↔ g.Reaches start x) ∧
      (g.breadthFirst start).Nodup ∧ (∀ x, x ∈ g.breadthFirst start ↔ g.Reaches start x) ∧
      ∃ distance : Nat → Nat,
        (∀ x, g.Reaches start x → g.IsDistance start x (distance x)) ∧
        (g.breadthFirst start).Pairwise fun x y => distance x ≤ distance y) ∧
    (∀ starts, g.markReachable starts = g.reachable starts ∧
      (g.reachable starts).size = g.size ∧
      ∀ x, (g.reachable starts)[x]?.getD false = true ↔ ∃ start ∈ starts, g.Reaches start x) ∧
    ∀ source target, g.hasPath source target = true ↔ g.Reaches source target := by
  refine ⟨fun start hStart => ⟨loops_agendaSearch .stack start, loops_agendaSearch .queue start,
    nodup_depthFirst g start, fun x => mem_depthFirst_iff, nodup_breadthFirst g start,
    fun x => mem_breadthFirst_iff, ?_⟩, fun starts => ⟨markReachable_eq g starts, ?_, fun x =>
    reachable_iff⟩, fun source target => hasPath_iff⟩
  · have hSome : ∀ x, ∃ d, g.Reaches start x → g.IsDistance start x d := by
      intro x
      by_cases hReach : g.Reaches start x
      · obtain ⟨d, hd⟩ := exists_isDistance hReach
        exact ⟨d, fun _ => hd⟩
      · exact ⟨0, fun h => absurd h hReach⟩
    choose distance hDistance using hSome
    refine ⟨distance, hDistance, ?_⟩
    refine (pairwise_breadthFirst hStart).imp_of_mem fun hx hy hLe => ?_
    have hFirst := hDistance _ (mem_breadthFirst_iff.mp hx)
    have hSecond := hDistance _ (mem_breadthFirst_iff.mp hy)
    exact hLe _ _ hFirst hSecond
  · simp [reachable]

/-- A cycle with a second way through it, a branch that leaves it, and a node that leads into it. -/
def ringRoad : Digraph Nat :=
  Draft.freeze
    { nodes := #[0, 1, 2, 3, 4, 5]
      edges := #[⟨0, 1, 1⟩, ⟨0, 2, 1⟩, ⟨1, 3, 1⟩, ⟨2, 3, 1⟩, ⟨3, 0, 1⟩, ⟨2, 4, 1⟩, ⟨3, 4, 1⟩,
        ⟨5, 0, 1⟩]
      edge_lt := by decide }

theorem traversals_agree_ringRoad :
    0 < ringRoad.size ∧
      (∃ last, Loops (AgendaSearch.step .stack ringRoad) (.start ringRoad 0) last ∧
        last.listed = [0, 1, 3, 4, 2]) ∧
      (∃ last, Loops (AgendaSearch.step .queue ringRoad) (.start ringRoad 0) last ∧
        last.listed = [0, 1, 2, 3, 4]) ∧
      ¬ ringRoad.Reaches 0 5 ∧
      (∃ d e, ringRoad.IsDistance 0 2 d ∧ ringRoad.IsDistance 0 3 e ∧ d ≤ e) ∧
      (∃ start ∈ [7, 4, 5], ringRoad.Reaches start 1) ∧ ringRoad.Reaches 3 2 := by
  have hStart : 0 < ringRoad.size := by decide
  have hDepth : ringRoad.depthFirst 0 = [0, 1, 3, 4, 2] := by decide
  have hBreadth : ringRoad.breadthFirst 0 = [0, 1, 2, 3, 4] := by decide
  obtain ⟨hSearch, hMarks, hPaths⟩ := traversals_agree ringRoad
  obtain ⟨hStack, hQueue, -, -, -, hMem, distance, hDistance, hSorted⟩ := hSearch 0 hStart
  rw [hBreadth] at hSorted
  have hLe := List.pairwise_pair.mp (hSorted.sublist (by decide : [2, 3].Sublist [0, 1, 2, 3, 4]))
  refine ⟨hStart, hDepth ▸ hStack, hBreadth ▸ hQueue, fun hReach => ?_, ⟨distance 2, distance 3,
    hDistance 2 ((hMem 2).mp (by decide)), hDistance 3 ((hMem 3).mp (by decide)), hLe⟩,
    ((hMarks [7, 4, 5]).2.2 1).mp (by decide), (hPaths 3 2).mp (by decide)⟩
  exact absurd ((hMem 5).mpr hReach) (by decide)

end Digraph

end BytecodeFlow
