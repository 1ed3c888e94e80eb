import BytecodeFlow.Digraph.Route
import BytecodeFlow.Proofs.Reachability

/-!
# Cheapest routes

The search for a cheapest route settles one node after the other. Between two steps (`Explored`)
the cost of a settled node is at most a floor, the entries of the agenda are at or above it, and a
node that is known but not settled has an entry of its own cost. The node before a known node is
settled, and it was settled earlier than the node itself; so the links lead back to the source
without a turn in circles, whatever the weights are (`Explored.trace`).

* `Explored.follow`: following an edge keeps the cost and the link of every settled node.
* `Explored.frontier`: a walk ends at a settled node that is known at no higher cost, or some entry
  of the agenda is as cheap. Hence a node is settled at the least cost of all walks to it.
* `Explored.step`: each step takes an entry from the agenda, and an entry is put there only for an
  edge of a node that was not settled before. So the loop ends (`loops_routeSearch`).
* `shortestRoute_isCheapest`: what the search returns.

Costs are sums of natural numbers, without a bound.
-/

namespace BytecodeFlow

namespace RouteEntry

theorem takeNext_eq_none {entries : List RouteEntry} (h : takeNext entries = none) :
    entries = [] := by
  cases entries with
  | nil => rfl
  | cons first entries =>
    unfold takeNext at h
    split at h
    · cases h
    · split at h <;> cases h

theorem perm_of_takeNext {entries others : List RouteEntry} {entry : RouteEntry}
    (h : takeNext entries = some (entry, others)) : (entry :: others).Perm entries := by
  induction entries generalizing entry others with
  | nil => cases h
  | cons first entries ih =>
    unfold takeNext at h
    split at h
    · rename_i hNone
      cases h
      rw [takeNext_eq_none hNone]
    · rename_i best rest hSome
      have hPerm := ih hSome
      split at h <;> cases h
      · exact (List.Perm.swap first entry rest).trans (hPerm.cons first)
      · exact hPerm.cons _

theorem cost_le_of_precedes {left right : RouteEntry} (h : left.precedes right = true) :
    left.cost ≤ right.cost := by
  simp only [precedes, Bool.or_eq_true, decide_eq_true_eq, Bool.and_eq_true, beq_iff_eq] at h
  omega

theorem cost_le_of_not_precedes {left right : RouteEntry} (h : ¬ left.precedes right = true) :
    right.cost ≤ left.cost := by
  simp only [precedes, Bool.or_eq_true, decide_eq_true_eq, Bool.and_eq_true, beq_iff_eq] at h
  omega

/-- The entry that is taken next has the least cost. -/
theorem cost_le_of_takeNext {entries others : List RouteEntry} {entry : RouteEntry}
    (h : takeNext entries = some (entry, others)) : ∀ other ∈ entries, entry.cost ≤ other.cost := by
  induction entries generalizing entry others with
  | nil => cases h
  | cons first entries ih =>
    unfold takeNext at h
    split at h
    · rename_i hNone
      cases h
      rw [takeNext_eq_none hNone]
      simp
    · rename_i best rest hSome
      have hBest := ih hSome
      split at h <;> cases h
      · rename_i hPrecedes
        exact List.forall_mem_cons.mpr ⟨cost_le_of_precedes hPrecedes, hBest⟩
      · rename_i hPrecedes
        refine List.forall_mem_cons.mpr ⟨le_rfl, fun other hOther => ?_⟩
        exact (cost_le_of_not_precedes hPrecedes).trans (hBest other hOther)

end RouteEntry

namespace RouteSearch

variable {search : RouteSearch} {entry : RouteEntry} {edge : Edge}

theorem lt_size_of_cost? {x cost : Nat} (h : search.cost? x = some cost) :
    x < search.costs.size := by
  by_contra hNot
  rw [cost?, Array.getElem?_eq_none (Nat.le_of_not_lt hNot)] at h
  cases h

/-- The target of an edge gets a lower cost, a link and an entry on the agenda. -/
structure Improved (entry : RouteEntry) (edge : Edge) (search after : RouteSearch) : Prop where
  cheaper : ∀ cost, search.cost? edge.target = some cost → entry.cost + edge.weight < cost
  cost?_eq : ∀ x, after.cost? x =
    if x = edge.target then some (entry.cost + edge.weight) else search.cost? x
  previous?_eq : ∀ x, after.previous? x =
    if x = edge.target then some entry.node else search.previous? x
  settled_eq : after.settled = search.settled
  agenda_eq : after.agenda = ⟨entry.cost + edge.weight, edge.target⟩ :: search.agenda
  costs_size : after.costs.size = search.costs.size
  previous_size : after.previous.size = search.previous.size

theorem Improved.lowered {after : RouteSearch} (h : Improved entry edge search after) {x cost : Nat}
    (hx : search.cost? x = some cost) : ∃ lower ≤ cost, after.cost? x = some lower := by
  rw [h.cost?_eq]
  split
  · rename_i hEq
    exact ⟨_, (h.cheaper cost (hEq ▸ hx)).le, rfl⟩
  · exact ⟨cost, le_rfl, hx⟩

/-- Following an edge changes nothing if the target is known to be as cheap. -/
theorem follow_cases (entry : RouteEntry) (hCosts : edge.target < search.costs.size)
    (hPrevious : edge.target < search.previous.size) :
    (search.follow entry edge = search ∧
      ∃ cost ≤ entry.cost + edge.weight, search.cost? edge.target = some cost) ∨
    Improved entry edge search (search.follow entry edge) := by
  simp only [follow]
  split
  · rename_i hCheaper
    refine Or.inr ⟨?_, Traversal.getD_setIfInBounds hCosts _ _,
      Traversal.getD_setIfInBounds hPrevious _ _, rfl, rfl, Array.size_setIfInBounds,
      Array.size_setIfInBounds⟩
    intro cost hCost
    simpa [hCost] using hCheaper
  · rename_i hCheaper
    cases hCost : search.cost? edge.target with
    | none => simp [hCost] at hCheaper
    | some cost =>
      refine Or.inl ⟨rfl, cost, ?_, rfl⟩
      simpa [hCost] using hCheaper

end RouteSearch

namespace Digraph

variable {α : Type} {g : Digraph α} {source target : Nat}

/-- The edges lead one after the other from `source` to the given node. -/
inductive Walk (g : Digraph α) (source : Nat) : Nat → List Edge → Prop where
  | nil : source < g.size → Walk g source source []
  | snoc {edges : List Edge} {e : Edge} :
      Walk g source e.source edges → e ∈ g.edges → Walk g source e.target (edges ++ [e])

/-- The sum of the weights of the edges. -/
def totalWeight (edges : List Edge) : Nat :=
  (edges.map Edge.weight).sum

theorem totalWeight_snoc (edges : List Edge) (e : Edge) :
    totalWeight (edges ++ [e]) = totalWeight edges + e.weight := by
  simp [totalWeight]

theorem exists_walk_of_path {nodes : List Nat} (h : g.Path source target nodes) :
    ∃ edges, g.Walk source target edges := by
  induction h using Path.snoc_induction with
  | single hSource => exact ⟨[], .nil hSource⟩
  | snoc _ hAdj ih =>
    obtain ⟨edges, hWalk⟩ := ih
    obtain ⟨e, he, rfl, rfl⟩ := hAdj
    exact ⟨edges ++ [e], .snoc hWalk he⟩

/-- The weight is the least one of an edge from `s` to `t`. -/
def IsCheapest (g : Digraph α) (s t weight : Nat) : Prop :=
  (∃ e ∈ g.edges, e.source = s ∧ e.target = t ∧ e.weight = weight) ∧
    ∀ e ∈ g.edges, e.source = s → e.target = t → weight ≤ e.weight

/-! ## What is known between two steps -/

/-- The cost of a node other than the source comes from an edge out of a settled node. If the node
itself is settled, it was settled later. The nodes of `order` are settled, the last one first. -/
def Linked (g : Digraph α) (order : List Nat) (search : RouteSearch) (x cost : Nat) : Prop :=
  ∃ e ∈ g.edges, e.target = x ∧ search.previous? x = some e.source ∧ e.source ∈ order ∧
    (∃ before, search.cost? e.source = some before ∧ before + e.weight = cost) ∧
    (x ∈ order → [x, e.source].Sublist order)

/-- What holds between two steps of the search from `source`. The nodes of `order` are settled, the
last one first. -/
structure Explored (g : Digraph α) (source floor : Nat) (order : List Nat)
    (search : RouteSearch) : Prop where
  costs_size : search.costs.size = g.size
  previous_size : search.previous.size = g.size
  settled_size : search.settled.size = g.size
  isSettled_iff : ∀ x, search.isSettled x = true ↔ x ∈ order
  order_nodup : order.Nodup
  source_cost : search.cost? source = some 0
  linked : ∀ x cost, search.cost? x = some cost → x ≠ source → g.Linked order search x cost
  /-- an entry may be out of date, but then it is too dear -/
  agenda_above : ∀ entry ∈ search.agenda,
    floor ≤ entry.cost ∧ ∃ cost ≤ entry.cost, search.cost? entry.node = some cost
  pending : ∀ x cost, search.cost? x = some cost → x ∉ order → ⟨cost, x⟩ ∈ search.agenda
  settled_below : ∀ x ∈ order, ∃ cost ≤ floor, search.cost? x = some cost

/-- The edges out of the given nodes are followed: none of them leads to a lower cost. -/
def Relaxed (g : Digraph α) (nodes : List Nat) (search : RouteSearch) : Prop :=
  ∀ e ∈ g.edges, e.source ∈ nodes → ∃ before cost, search.cost? e.source = some before ∧
    search.cost? e.target = some cost ∧ cost ≤ before + e.weight

/-- An edge that gives its target its cost is a cheapest one between its nodes. -/
theorem Relaxed.isCheapest {nodes : List Nat} {search : RouteSearch} (h : g.Relaxed nodes search)
    {e : Edge} (he : e ∈ g.edges) (hMem : e.source ∈ nodes) {before : Nat}
    (hBefore : search.cost? e.source = some before)
    (hTarget : search.cost? e.target = some (before + e.weight)) :
    g.IsCheapest e.source e.target e.weight := by
  refine ⟨⟨e, he, rfl, rfl, rfl⟩, fun f hf hfSource hfTarget => ?_⟩
  obtain ⟨known, reached, hKnown, hReached, hStep⟩ := h f hf (hfSource ▸ hMem)
  rw [hfSource, hBefore] at hKnown
  rw [hfTarget, hTarget] at hReached
  cases hKnown
  cases hReached
  omega

theorem explored_start (hSource : source < g.size) :
    g.Explored source 0 [] (.start g.size source) := by
  have hCost : ∀ x, (RouteSearch.start g.size source).cost? x =
      if x = source then some 0 else none := by
    intro x
    have hTable : source < (Array.replicate g.size (none : Option Nat)).size := by
      rwa [Array.size_replicate]
    refine (Traversal.getD_setIfInBounds hTable (some 0) none x).trans ?_
    rw [Traversal.getD_replicate]
  refine ⟨by simp [RouteSearch.start], by simp [RouteSearch.start], by simp [RouteSearch.start],
    ?_, List.nodup_nil, by simp [hCost], ?_, ?_, ?_, by simp⟩
  · intro x
    have hOpen : (RouteSearch.start g.size source).isSettled x = false :=
      Traversal.getD_replicate _ _ _
    simp [hOpen]
  · intro x cost hx hNe
    simp [hCost, hNe] at hx
  · intro entry hEntry
    obtain rfl := List.mem_singleton.mp hEntry
    exact ⟨le_rfl, 0, le_rfl, by simp [hCost]⟩
  · intro x cost hx _
    rw [hCost] at hx
    split at hx
    · rename_i hEq
      cases hx
      exact List.mem_singleton.mpr (by rw [hEq])
    · cases hx

/-- The edges out of nodes that are not settled. Each of them may still bring an entry. -/
def openEdges (g : Digraph α) (order : List Nat) : List Edge :=
  g.edges.toList.filter fun e => !order.contains e.source

theorem length_openEdges_cons {order : List Nat} {node : Nat} (hOpen : node ∉ order) :
    (g.openEdges (node :: order)).length + (g.edgesFrom node).length =
      (g.openEdges order).length := by
  have hSplit := List.length_eq_length_filter_add (l := g.openEdges order) (·.source == node)
  have hNode : (g.openEdges order).filter (·.source == node) = g.edgesFrom node := by
    rw [openEdges, List.filter_filter, edgesFrom_eq]
    refine List.filter_congr fun e _ => ?_
    by_cases hEq : e.source = node <;> simp [hEq, hOpen]
  have hOther : (g.openEdges order).filter (!·.source == node) = g.openEdges (node :: order) := by
    rw [openEdges, List.filter_filter, openEdges]
    refine List.filter_congr fun e _ => ?_
    by_cases hEq : e.source = node <;> simp [hEq]
  rw [hSplit, hNode, hOther, Nat.add_comm]

/-- How a search ends: the target is the last node that was settled, at the least cost of all walks
to it, or there is no walk to it and its cost is not known. -/
def Ended (g : Digraph α) (source target : Nat) (search : RouteSearch) : Prop :=
  ∃ floor order, g.Explored source floor order search ∧
    ((∃ earlier cost, order = target :: earlier ∧ search.cost? target = some cost ∧
        g.Relaxed earlier search ∧
        ∀ edges, g.Walk source target edges → cost ≤ totalWeight edges) ∨
      (search.cost? target = none ∧ ∀ edges, ¬ g.Walk source target edges))

/-- What holds while the search runs: the target is open and the edges behind all settled nodes are
followed, or the target is settled and the search is at its end. -/
def Searching (g : Digraph α) (source target : Nat) (search : RouteSearch) : Prop :=
  (∃ floor order, g.Explored source floor order search ∧ g.Relaxed order search ∧
      target ∉ order) ∨
    (search.isSettled target = true ∧ g.Ended source target search)

/-- What is left to do: the entries of the agenda, and the edges that may still bring one. -/
def workLeft (g : Digraph α) (search : RouteSearch) : Nat :=
  search.agenda.length + (g.edges.toList.filter fun e => !search.isSettled e.source).length

variable {floor : Nat} {order : List Nat} {search : RouteSearch} {entry : RouteEntry}

/-- What following edges from the node of an entry does to a search. It changes no settled node. -/
structure Followed (g : Digraph α) (source : Nat) (order : List Nat) (entry : RouteEntry)
    (edges : List Edge) (search after : RouteSearch) : Prop where
  explored : g.Explored source entry.cost order after
  lowered : ∀ x cost, search.cost? x = some cost → ∃ lower ≤ cost, after.cost? x = some lower
  kept : ∀ x ∈ order, after.cost? x = search.cost? x
  targets : ∀ e ∈ edges, ∃ cost ≤ entry.cost + e.weight, after.cost? e.target = some cost
  agenda_length : after.agenda.length ≤ search.agenda.length + edges.length

theorem Followed.trans {edges more : List Edge} {middle after : RouteSearch}
    (h : g.Followed source order entry edges search middle)
    (hMore : g.Followed source order entry more middle after) :
    g.Followed source order entry (edges ++ more) search after := by
  refine ⟨hMore.explored, fun x cost hx => ?_, fun x hx => (hMore.kept x hx).trans (h.kept x hx),
    fun e he => ?_, ?_⟩
  · obtain ⟨lower, hLower, hx⟩ := h.lowered x cost hx
    obtain ⟨lowest, hLowest, hx⟩ := hMore.lowered x lower hx
    exact ⟨lowest, hLowest.trans hLower, hx⟩
  · rcases List.mem_append.mp he with he | he
    · obtain ⟨cost, hCost, hx⟩ := h.targets e he
      obtain ⟨lower, hLower, hx⟩ := hMore.lowered _ cost hx
      exact ⟨lower, hLower.trans hCost, hx⟩
    · exact hMore.targets e he
  · have hLength := h.agenda_length
    have hLength' := hMore.agenda_length
    rw [List.length_append]
    omega

/-- The edges out of a node are followed once it is settled. -/
theorem Followed.relaxed {after : RouteSearch}
    (h : g.Followed source (entry.node :: order) entry (g.edgesFrom entry.node) search after)
    (hRelaxed : g.Relaxed order search) (hCost : search.cost? entry.node = some entry.cost) :
    g.Relaxed (entry.node :: order) after := by
  intro e he hSource
  rcases List.mem_cons.mp hSource with hEntry | hSource
  · obtain ⟨cost, hLe, hTarget⟩ := h.targets e (mem_edgesFrom.mpr ⟨he, hEntry⟩)
    refine ⟨entry.cost, cost, ?_, hTarget, hLe⟩
    rw [hEntry, h.kept _ List.mem_cons_self, hCost]
  · obtain ⟨before, cost, hBefore, hTarget, hLe⟩ := hRelaxed e he hSource
    obtain ⟨lower, hLower, hAfter⟩ := h.lowered _ cost hTarget
    refine ⟨before, lower, ?_, hAfter, hLower.trans hLe⟩
    rw [h.kept _ (List.mem_cons_of_mem _ hSource), hBefore]

namespace Explored

theorem cost_lt (h : g.Explored source floor order search) {x cost : Nat}
    (hCost : search.cost? x = some cost) : x < g.size := by
  rw [← h.costs_size]
  exact RouteSearch.lt_size_of_cost? hCost

/-! ## Steps -/

section Improvement

variable {e : Edge} {after : RouteSearch}

/-- A settled node is not dearer than the one that is settled now, so it is not improved. -/
theorem target_not_mem (h : g.Explored source entry.cost order search)
    (hImproved : RouteSearch.Improved entry e search after) : e.target ∉ order := by
  intro hMem
  obtain ⟨cost, hLe, hKnown⟩ := h.settled_below _ hMem
  have hLess := hImproved.cheaper cost hKnown
  omega

theorem cost?_kept (h : g.Explored source entry.cost order search)
    (hImproved : RouteSearch.Improved entry e search after) {x : Nat} (hx : x ∈ order) :
    after.cost? x = search.cost? x := by
  have hNe : x ≠ e.target := fun hEq => h.target_not_mem hImproved (hEq ▸ hx)
  rw [hImproved.cost?_eq, if_neg hNe]

theorem linked_improved (h : g.Explored source entry.cost order search)
    (hImproved : RouteSearch.Improved entry e search after) (hNode : entry.node ∈ order)
    (hCost : search.cost? entry.node = some entry.cost) (he : e ∈ g.edges)
    (hSource : e.source = entry.node) {x cost : Nat} (hx : after.cost? x = some cost)
    (hNe : x ≠ source) : g.Linked order after x cost := by
  rw [hImproved.cost?_eq] at hx
  split at hx
  · rename_i hEq
    refine ⟨e, he, hEq.symm, ?_, hSource ▸ hNode, ⟨entry.cost, ?_, Option.some.inj hx⟩, ?_⟩
    · rw [hImproved.previous?_eq, if_pos hEq, hSource]
    · rw [hSource, h.cost?_kept hImproved hNode, hCost]
    · exact fun hMem => absurd (hEq ▸ hMem) (h.target_not_mem hImproved)
  · rename_i hEq
    obtain ⟨f, hf, hTarget, hPrevious, hMem, ⟨before, hBefore, hSum⟩, hLater⟩ :=
      h.linked x cost hx hNe
    refine ⟨f, hf, hTarget, ?_, hMem, ⟨before, ?_, hSum⟩, hLater⟩
    · rw [hImproved.previous?_eq, if_neg hEq, hPrevious]
    · rw [h.cost?_kept hImproved hMem, hBefore]

theorem improve (h : g.Explored source entry.cost order search)
    (hImproved : RouteSearch.Improved entry e search after) (hNode : entry.node ∈ order)
    (hCost : search.cost? entry.node = some entry.cost) (he : e ∈ g.edges)
    (hSource : e.source = entry.node) : g.Explored source entry.cost order after := by
  refine ⟨?_, ?_, ?_, ?_, h.order_nodup, ?_, ?_, ?_, ?_, ?_⟩
  · rw [hImproved.costs_size, h.costs_size]
  · rw [hImproved.previous_size, h.previous_size]
  · rw [hImproved.settled_eq, h.settled_size]
  · intro x
    rw [← h.isSettled_iff, RouteSearch.isSettled, hImproved.settled_eq]
    rfl
  · have hNe : source ≠ e.target := by
      intro hEq
      have hLess := hImproved.cheaper 0 (hEq ▸ h.source_cost)
      omega
    rw [hImproved.cost?_eq, if_neg hNe, h.source_cost]
  · intro x cost hx hNe
    exact h.linked_improved hImproved hNode hCost he hSource hx hNe
  · rw [hImproved.agenda_eq]
    refine List.forall_mem_cons.mpr
      ⟨⟨Nat.le_add_right _ _, _, le_rfl, ?_⟩, fun other hOther => ?_⟩
    · rw [hImproved.cost?_eq, if_pos rfl]
    · obtain ⟨hFloor, cost, hLe, hKnown⟩ := h.agenda_above other hOther
      obtain ⟨lower, hLower, hAfter⟩ := hImproved.lowered hKnown
      exact ⟨hFloor, lower, hLower.trans hLe, hAfter⟩
  · intro x cost hx hOpen
    rw [hImproved.agenda_eq]
    rw [hImproved.cost?_eq] at hx
    split at hx
    · rename_i hEq
      rw [hEq, ← Option.some.inj hx]
      exact List.mem_cons_self
    · exact List.mem_cons_of_mem _ (h.pending x cost hx hOpen)
  · intro x hx
    rw [h.cost?_kept hImproved hx]
    exact h.settled_below x hx

end Improvement

/-- An edge from the node that was settled last can be followed. -/
theorem follow (h : g.Explored source entry.cost order search) (hNode : entry.node ∈ order)
    (hCost : search.cost? entry.node = some entry.cost) {e : Edge} (he : e ∈ g.edges)
    (hSource : e.source = entry.node) :
    g.Followed source order entry [e] search (search.follow entry e) := by
  have hTarget : e.target < g.size := (g.edge_lt e he).2
  rcases RouteSearch.follow_cases entry (h.costs_size ▸ hTarget) (h.previous_size ▸ hTarget) with
    ⟨hSame, hKnown⟩ | hImproved
  · rw [hSame]
    exact ⟨h, fun x cost hx => ⟨cost, le_rfl, hx⟩, fun _ _ => rfl, by simpa using hKnown,
      Nat.le_succ _⟩
  · generalize search.follow entry e = after at hImproved ⊢
    refine ⟨h.improve hImproved hNode hCost he hSource, fun _ _ => hImproved.lowered,
      fun _ => h.cost?_kept hImproved, ?_, ?_⟩
    · intro f hf
      rw [List.mem_singleton.mp hf]
      exact ⟨_, le_rfl, by rw [hImproved.cost?_eq, if_pos rfl]⟩
    · rw [hImproved.agenda_eq]
      rfl

/-- All edges from the node that was settled last are followed. -/
theorem foldl_follow (h : g.Explored source entry.cost order search) (hNode : entry.node ∈ order)
    (hCost : search.cost? entry.node = some entry.cost) (edges : List Edge)
    (hEdges : ∀ e ∈ edges, e ∈ g.edges ∧ e.source = entry.node) :
    g.Followed source order entry edges search
      (edges.foldl (RouteSearch.follow entry) search) := by
  induction edges generalizing search with
  | nil => exact ⟨h, fun x cost hx => ⟨cost, le_rfl, hx⟩, fun _ _ => rfl, by simp, le_rfl⟩
  | cons e edges ih =>
    obtain ⟨⟨he, hSource⟩, hEdges⟩ := List.forall_mem_cons.mp hEdges
    have hFirst := h.follow hNode hCost he hSource
    exact hFirst.trans (ih hFirst.explored ((hFirst.kept _ hNode).trans hCost) hEdges)

/-- An entry that is taken and whose node is not settled has the cost of its node. -/
theorem cost_of_takeNext (h : g.Explored source floor order search) {others : List RouteEntry}
    (hNext : RouteEntry.takeNext search.agenda = some (entry, others))
    (hOpen : entry.node ∉ order) :
    search.cost? entry.node = some entry.cost := by
  have hMem : entry ∈ search.agenda :=
    (RouteEntry.perm_of_takeNext hNext).mem_iff.mp List.mem_cons_self
  obtain ⟨-, cost, hLe, hCost⟩ := h.agenda_above entry hMem
  have hLeast := RouteEntry.cost_le_of_takeNext hNext _ (h.pending _ cost hCost hOpen)
  rw [hCost, Nat.le_antisymm hLe hLeast]

/-- An entry whose node is settled can be dropped. -/
theorem drop (h : g.Explored source floor order search) {others : List RouteEntry}
    (hNext : RouteEntry.takeNext search.agenda = some (entry, others))
    (hNode : entry.node ∈ order) :
    g.Explored source floor order { search with agenda := others } := by
  have hPerm := RouteEntry.perm_of_takeNext hNext
  refine { h with agenda_above := ?_, pending := ?_ }
  · intro other hOther
    exact h.agenda_above other (hPerm.mem_iff.mp (List.mem_cons_of_mem _ hOther))
  · intro x cost hx hOpen
    rcases List.mem_cons.mp (hPerm.mem_iff.mpr (h.pending x cost hx hOpen)) with rfl | hMem
    · exact absurd hNode hOpen
    · exact hMem

/-- A node that is taken for the first time is settled at the cost of its entry. -/
theorem settle (h : g.Explored source floor order search) {others : List RouteEntry}
    (hNext : RouteEntry.takeNext search.agenda = some (entry, others))
    (hOpen : entry.node ∉ order) :
    g.Explored source entry.cost (entry.node :: order)
      (({ search with agenda := others } : RouteSearch).settle entry.node) := by
  have hPerm := RouteEntry.perm_of_takeNext hNext
  have hCost := h.cost_of_takeNext hNext hOpen
  have hFloor := (h.agenda_above entry (hPerm.mem_iff.mp List.mem_cons_self)).1
  have hLt : entry.node < search.settled.size := h.settled_size ▸ h.cost_lt hCost
  refine ⟨h.costs_size, h.previous_size, ?_, ?_, List.nodup_cons.mpr ⟨hOpen, h.order_nodup⟩,
    h.source_cost, ?_, ?_, ?_, ?_⟩
  · exact Array.size_setIfInBounds.trans h.settled_size
  · intro x
    have hLookup := Traversal.getD_setIfInBounds hLt true false x
    rw [List.mem_cons, ← h.isSettled_iff]
    refine (Eq.congr_left hLookup).trans ?_
    by_cases hx : x = entry.node
    · simp [hx]
    · rw [if_neg hx, or_iff_right hx]
      rfl
  · intro x cost hx hxSource
    obtain ⟨e, he, hTarget, hPrevious, hMem, hSum, hLater⟩ := h.linked x cost hx hxSource
    refine ⟨e, he, hTarget, hPrevious, List.mem_cons_of_mem _ hMem, hSum, fun hxMem => ?_⟩
    rcases List.mem_cons.mp hxMem with rfl | hxMem
    · exact List.cons_sublist_cons.mpr (List.singleton_sublist.mpr hMem)
    · exact (hLater hxMem).cons _
  · intro other hOther
    have hMem := hPerm.mem_iff.mp (List.mem_cons_of_mem _ hOther)
    exact ⟨RouteEntry.cost_le_of_takeNext hNext other hMem, (h.agenda_above other hMem).2⟩
  · intro x cost hx hNot
    rw [List.mem_cons, not_or] at hNot
    obtain ⟨hNe, hNot⟩ := hNot
    rcases List.mem_cons.mp (hPerm.mem_iff.mpr (h.pending x cost hx hNot)) with rfl | hMem
    · exact absurd rfl hNe
    · exact hMem
  · refine List.forall_mem_cons.mpr ⟨⟨entry.cost, le_rfl, hCost⟩, fun x hx => ?_⟩
    obtain ⟨cost, hLe, hKnown⟩ := h.settled_below x hx
    exact ⟨cost, hLe.trans hFloor, hKnown⟩

/-! ## Walks and links -/

/-- A walk ends at a settled node that is known at no higher cost, or an entry is as cheap. -/
theorem frontier (h : g.Explored source floor order search) (hRelaxed : g.Relaxed order search)
    {x : Nat} {edges : List Edge} (hWalk : g.Walk source x edges) :
    (x ∈ order ∧ ∃ cost ≤ totalWeight edges, search.cost? x = some cost) ∨
      ∃ entry ∈ search.agenda, entry.cost ≤ totalWeight edges := by
  -- a known node is settled, or it is on the agenda
  have hKnown : ∀ y cost total, search.cost? y = some cost → cost ≤ total →
      (y ∈ order ∧ ∃ cost ≤ total, search.cost? y = some cost) ∨
        ∃ entry ∈ search.agenda, entry.cost ≤ total := by
    intro y cost total hCost hLe
    by_cases hy : y ∈ order
    · exact Or.inl ⟨hy, cost, hLe, hCost⟩
    · exact Or.inr ⟨_, h.pending y cost hCost hy, hLe⟩
  induction hWalk with
  | nil _ => exact hKnown source 0 _ h.source_cost (Nat.zero_le _)
  | @snoc edges e _ he ih =>
    rw [totalWeight_snoc]
    rcases ih with ⟨hSettled, before, hLe, hBefore⟩ | ⟨entry, hEntry, hLe⟩
    · obtain ⟨known, cost, hSource, hTarget, hStep⟩ := hRelaxed e he hSettled
      obtain rfl := Option.some.inj (hBefore.symm.trans hSource)
      exact hKnown e.target cost _ hTarget (by omega)
    · exact Or.inr ⟨entry, hEntry, by omega⟩

/-- What was settled before a node stands behind it. -/
theorem mem_earlier {x y : Nat} {later earlier : List Nat} (hNodup : (later ++ x :: earlier).Nodup)
    (hSub : [x, y].Sublist (later ++ x :: earlier)) : y ∈ earlier := by
  have hNodup' := List.nodup_reverse.mpr hNodup
  have hSub' := hSub.reverse
  simp only [List.reverse_append, List.reverse_cons, List.append_assoc, List.singleton_append,
    List.reverse_nil, List.nil_append] at hNodup' hSub'
  exact List.mem_reverse.mp (Traversal.mem_of_sublist_pair hNodup' hSub')

/-- The links lead from a settled node back to the source, along a simple path of cheapest edges
whose weights make up the cost of the node. -/
theorem trace (h : g.Explored source floor order search) {later earlier : List Nat} {x cost : Nat}
    (hOrder : order = later ++ x :: earlier) (hRelaxed : g.Relaxed earlier search)
    (hCost : search.cost? x = some cost) {fuel : Nat} (hFuel : earlier.length < fuel) :
    ∃ nodes, search.trace source fuel x = some nodes ∧ g.Path source x nodes.reverse ∧
      nodes.Nodup ∧ (∀ y ∈ nodes, y ∈ x :: earlier) ∧
      ∃ weights, List.Forall₂ (fun step => g.IsCheapest step.1 step.2)
        (nodes.reverse.zip nodes.reverse.tail) weights ∧ weights.sum = cost := by
  -- by induction on the number of nodes that were settled before
  generalize hLength : earlier.length = n at hFuel
  induction n using Nat.strong_induction_on generalizing later earlier x cost fuel with
  | _ n ih =>
    obtain ⟨fuel, rfl⟩ : ∃ k, fuel = k + 1 := ⟨fuel - 1, by omega⟩
    unfold RouteSearch.trace
    by_cases hSource : x = source
    · subst hSource
      obtain rfl := Option.some.inj (h.source_cost.symm.trans hCost)
      exact ⟨[x], by simp, .single (h.cost_lt hCost), by simp, by simp, [], .nil, rfl⟩
    · obtain ⟨e, he, rfl, hPrevious, hMem, ⟨before, hBefore, hSum⟩, hLater⟩ :=
        h.linked x cost hCost hSource
      have hNodup : (later ++ e.target :: earlier).Nodup := hOrder ▸ h.order_nodup
      have hEarlier := mem_earlier hNodup (hOrder ▸ hLater (by simp [hOrder]))
      obtain ⟨between, first, rfl⟩ := List.append_of_mem hEarlier
      rw [List.length_append, List.length_cons] at hLength
      have hFirst : order = (later ++ e.target :: between) ++ e.source :: first := by simp [hOrder]
      obtain ⟨nodes, hTrace, hPath, hNodes, hSettled, weights, hWeights, hTotal⟩ :=
        ih first.length (by omega) hFirst (fun f hf hMem => hRelaxed f hf (by simp [hMem])) hBefore
          rfl (show first.length < fuel by omega)
      have hCheapest := hRelaxed.isCheapest he hEarlier hBefore (hSum ▸ hCost)
      refine ⟨e.target :: nodes, by simp [hSource, hPrevious, hTrace], ?_, ?_, ?_,
        weights ++ [e.weight], ?_, ?_⟩
      · rw [List.reverse_cons]
        exact hPath.snoc ⟨e, he, rfl, rfl⟩
      · refine List.nodup_cons.mpr ⟨fun hMem => ?_, hNodes⟩
        have hOnce := (List.nodup_cons.mp (List.nodup_append.mp hNodup).2.1).1
        exact hOnce (List.mem_append_right _ (hSettled _ hMem))
      · intro y hy
        rcases List.mem_cons.mp hy with rfl | hy
        · exact List.mem_cons_self
        · exact List.mem_cons_of_mem _ (List.mem_append_right _ (hSettled y hy))
      · rw [List.reverse_cons, hPath.zip_tail_snoc]
        exact List.rel_append hWeights (.cons hCheapest .nil)
      · rw [List.sum_append, hTotal, List.sum_singleton, hSum]

/-! ## The whole search -/

theorem ended_of_nil (h : g.Explored source floor order search) (hRelaxed : g.Relaxed order search)
    (hOpen : target ∉ order) (hAgenda : search.agenda = []) : g.Ended source target search := by
  refine ⟨floor, order, h, Or.inr ⟨?_, fun edges hWalk => ?_⟩⟩
  · cases hCost : search.cost? target with
    | none => rfl
    | some cost =>
      have hPending := h.pending target cost hCost hOpen
      rw [hAgenda] at hPending
      cases hPending
  · rcases h.frontier hRelaxed hWalk with ⟨hSettled, -⟩ | ⟨entry, hEntry, -⟩
    · exact hOpen hSettled
    · rw [hAgenda] at hEntry
      cases hEntry

/-- When the target is taken for the first time, no walk to it is cheaper than its entry. -/
theorem ended_of_target (h : g.Explored source floor order search)
    (hRelaxed : g.Relaxed order search) {others : List RouteEntry}
    (hNext : RouteEntry.takeNext search.agenda = some (entry, others))
    (hOpen : entry.node ∉ order) :
    g.Ended source entry.node
      (({ search with agenda := others } : RouteSearch).settle entry.node) := by
  refine ⟨_, _, h.settle hNext hOpen, Or.inl ⟨order, entry.cost, rfl,
    h.cost_of_takeNext hNext hOpen, hRelaxed, fun edges hWalk => ?_⟩⟩
  rcases h.frontier hRelaxed hWalk with ⟨hSettled, -⟩ | ⟨other, hOther, hLe⟩
  · exact absurd hSettled hOpen
  · exact (RouteEntry.cost_le_of_takeNext hNext other hOther).trans hLe

theorem workLeft_eq (h : g.Explored source floor order search) :
    g.workLeft search = search.agenda.length + (g.openEdges order).length := by
  have hSettled : ∀ x, search.isSettled x = order.contains x := by
    intro x
    rw [Bool.eq_iff_iff, h.isSettled_iff, List.contains_iff_mem]
  simp only [workLeft, openEdges, hSettled]

/-- A step settles the target or keeps it open, and leaves less to do. -/
theorem step (h : g.Explored source floor order search) (hRelaxed : g.Relaxed order search)
    (hOpen : target ∉ order) {after : RouteSearch}
    (hStep : RouteSearch.step g target search = some after) :
    g.Searching source target after ∧ g.workLeft after < g.workLeft search := by
  have hTarget : ¬ search.isSettled target = true := fun hMem => hOpen ((h.isSettled_iff _).mp hMem)
  rw [RouteSearch.step, if_neg hTarget] at hStep
  cases hNext : RouteEntry.takeNext search.agenda with
  | none =>
    rw [hNext] at hStep
    cases hStep
  | some pair =>
    obtain ⟨entry, others⟩ := pair
    simp only [hNext] at hStep
    have hLength := (RouteEntry.perm_of_takeNext hNext).length_eq
    rw [List.length_cons] at hLength
    rw [h.workLeft_eq]
    split at hStep
    · rename_i hSettled
      have hDropped := h.drop hNext ((h.isSettled_iff _).mp hSettled)
      obtain rfl := Option.some.inj hStep
      refine ⟨Or.inl ⟨floor, order, hDropped, hRelaxed, hOpen⟩, ?_⟩
      rw [hDropped.workLeft_eq]
      simp only
      omega
    · rename_i hSettled
      have hNode : entry.node ∉ order := fun hMem => hSettled ((h.isSettled_iff _).mpr hMem)
      have hEdges := length_openEdges_cons (g := g) hNode
      have hNow := h.settle hNext hNode
      split at hStep
      · rename_i hEntry
        subst hEntry
        obtain rfl := Option.some.inj hStep
        refine ⟨Or.inr ⟨(hNow.isSettled_iff _).mpr List.mem_cons_self,
          h.ended_of_target hRelaxed hNext hNode⟩, ?_⟩
        rw [hNow.workLeft_eq]
        simp only [RouteSearch.settle]
        omega
      · rename_i hEntry
        have hCost := h.cost_of_takeNext hNext hNode
        have hFollowed := hNow.foldl_follow List.mem_cons_self hCost
          (g.edgesFrom entry.node) fun e he => mem_edgesFrom.mp he
        obtain rfl := Option.some.inj hStep
        refine ⟨Or.inl ⟨_, _, hFollowed.explored, hFollowed.relaxed hRelaxed hCost, ?_⟩, ?_⟩
        · rw [List.mem_cons, not_or]
          exact ⟨Ne.symm hEntry, hOpen⟩
        · have hAgenda : _ ≤ others.length + _ := hFollowed.agenda_length
          rw [hFollowed.explored.workLeft_eq]
          omega

end Explored

namespace Searching

theorem start (hSource : source < g.size) :
    g.Searching source target (.start g.size source) := by
  refine Or.inl ⟨0, [], explored_start hSource, fun e _ hMem => ?_, List.not_mem_nil⟩
  cases hMem

theorem step (h : g.Searching source target search) {after : RouteSearch}
    (hStep : RouteSearch.step g target search = some after) :
    g.Searching source target after ∧ g.workLeft after < g.workLeft search := by
  rcases h with ⟨floor, order, hExplored, hRelaxed, hOpen⟩ | ⟨hSettled, -⟩
  · exact hExplored.step hRelaxed hOpen hStep
  · rw [RouteSearch.step, if_pos hSettled] at hStep
    cases hStep

/-- Where no step is left, the target is settled or the agenda is empty. -/
theorem ended (h : g.Searching source target search)
    (hStop : RouteSearch.step g target search = none) : g.Ended source target search := by
  rcases h with ⟨floor, order, hExplored, hRelaxed, hOpen⟩ | ⟨-, hEnded⟩
  · refine hExplored.ended_of_nil hRelaxed hOpen (RouteEntry.takeNext_eq_none ?_)
    have hTarget : ¬ search.isSettled target = true :=
      fun hMem => hOpen ((hExplored.isSettled_iff _).mp hMem)
    rw [RouteSearch.step, if_neg hTarget] at hStop
    split at hStop
    · assumption
    · split at hStop
      · cases hStop
      · split at hStop <;> cases hStop
  · exact hEnded

end Searching

/-- The loop ends, and the search is what it ends with. -/
theorem loops_routeSearch (hSource : source < g.size) :
    Loops (RouteSearch.step g target) (.start g.size source) (g.routeSearch source target) ∧
      g.Ended source target (g.routeSearch source target) := by
  have hFuel : g.workLeft (.start g.size source) ≤ g.edges.size + 1 := by
    rw [(explored_start hSource).workLeft_eq]
    simp [RouteSearch.start, openEdges, Nat.add_comm]
  have hStart : g.Searching source target (.start g.size source) := .start hSource
  have hLoops : Loops (RouteSearch.step g target) (.start g.size source)
      (g.routeSearch source target) :=
    loops_runSteps (g.Searching source target) g.workLeft
      (fun _ _ hSearching hStep => hSearching.step hStep) hStart hFuel
  obtain ⟨hLast, hStop⟩ :=
    hLoops.keeps (fun _ _ hSearching hStep => (hSearching.step hStep).1) hStart
  exact ⟨hLoops, hLast.ended hStop⟩

/-! ## Routes -/

/-- What makes a route from `source` to `target` a cheapest one. -/
structure IsCheapestRoute (g : Digraph α) (source target : Nat) (route : Route) : Prop where
  path : g.Path source target route.nodes
  nodup : route.nodes.Nodup
  /-- the cost is that of the cheapest edges between the nodes -/
  cost_eq : ∃ weights, List.Forall₂ (fun step => g.IsCheapest step.1 step.2) route.steps weights ∧
    weights.sum = route.cost
  least : ∀ edges, g.Walk source target edges → route.cost ≤ totalWeight edges

theorem Ended.route {search : RouteSearch} (h : g.Ended source target search) :
    (∃ route, search.route? source target = some route ∧
        g.IsCheapestRoute source target route) ∨
      (search.route? source target = none ∧ ∀ edges, ¬ g.Walk source target edges) := by
  obtain ⟨floor, order, hExplored, ⟨earlier, cost, rfl, hCost, hRelaxed, hLeast⟩ | hNone⟩ := h
  · have hLength : (target :: earlier).length ≤ g.size := by
      refine Traversal.length_le_of_nodup hExplored.order_nodup fun x hx => ?_
      obtain ⟨_, -, hKnown⟩ := hExplored.settled_below x hx
      exact hExplored.cost_lt hKnown
    rw [List.length_cons, ← hExplored.costs_size] at hLength
    obtain ⟨nodes, hTrace, hPath, hNodup, -, hWeights⟩ :=
      hExplored.trace (List.nil_append _).symm hRelaxed hCost hLength
    refine Or.inl ⟨⟨nodes.reverse, cost⟩, ?_, hPath, List.nodup_reverse.mpr hNodup, hWeights,
      hLeast⟩
    simp only [RouteSearch.route?, hCost, hTrace]
  · exact Or.inr ⟨by simp only [RouteSearch.route?, hNone.1], hNone.2⟩

/-- Between two nodes of the graph, the search returns a cheapest route, or there is no walk. -/
theorem shortestRoute?_spec (hSource : source < g.size) (hTarget : target < g.size) :
    (∃ route, g.shortestRoute? source target = some route ∧
        g.IsCheapestRoute source target route) ∨
      (g.shortestRoute? source target = none ∧ ∀ edges, ¬ g.Walk source target edges) := by
  unfold shortestRoute?
  rw [if_pos ⟨hSource, hTarget⟩]
  exact (loops_routeSearch hSource).2.route

theorem reaches_iff_exists_walk :
    g.Reaches source target ↔ ∃ edges, g.Walk source target edges := by
  constructor
  · rintro ⟨nodes, hPath⟩
    exact exists_walk_of_path hPath
  · rintro ⟨edges, hWalk⟩
    induction hWalk with
    | nil hSource => exact .refl hSource
    | snoc _ he ih => exact ih.tail ⟨_, he, rfl, rfl⟩

/-- **Cheapest routes.** There is a route exactly if the source reaches the target. It is a simple
path along the cheapest edges between its nodes, its cost is the sum of their weights, and no walk
from the source to the target costs less. From a node to itself it is that node alone, and numbers
outside the graph have no route. The route is read off the last state of a loop that ends. -/
theorem shortestRoute_isCheapest (g : Digraph α) (source target : Nat) :
    ((g.shortestRoute? source target).isSome = true ↔ g.Reaches source target) ∧
      (∀ route, g.shortestRoute? source target = some route →
        g.IsCheapestRoute source target route ∧ (source = target → route.nodes = [source])) ∧
      (¬ (source < g.size ∧ target < g.size) → g.shortestRoute? source target = none) ∧
      (source < g.size ∧ target < g.size →
        ∃ last, Loops (RouteSearch.step g target) (.start g.size source) last ∧
          g.shortestRoute? source target = last.route? source target) := by
  have hLoop : source < g.size ∧ target < g.size →
      ∃ last, Loops (RouteSearch.step g target) (.start g.size source) last ∧
        g.shortestRoute? source target = last.route? source target :=
    fun hInside => ⟨_, (loops_routeSearch hInside.1).1, if_pos hInside⟩
  by_cases hInside : source < g.size ∧ target < g.size
  · rcases shortestRoute?_spec hInside.1 hInside.2 with
      ⟨found, hFound, hCheapest⟩ | ⟨hNone, hNoWalk⟩
    · rw [hFound] at hLoop ⊢
      refine ⟨⟨fun _ => ⟨_, hCheapest.path⟩, fun _ => rfl⟩, ?_, fun hNot => absurd hInside hNot,
        hLoop⟩
      intro route hRoute
      obtain rfl := Option.some.inj hRoute
      refine ⟨hCheapest, ?_⟩
      rintro rfl
      exact hCheapest.path.eq_singleton hCheapest.nodup
    · rw [hNone] at hLoop ⊢
      rw [reaches_iff_exists_walk]
      refine ⟨⟨by simp, ?_⟩, by simp, fun _ => rfl, hLoop⟩
      rintro ⟨edges, hWalk⟩
      exact absurd hWalk (hNoWalk edges)
  · have hNone : g.shortestRoute? source target = none := if_neg hInside
    rw [hNone] at hLoop ⊢
    refine ⟨⟨by simp, ?_⟩, by simp, fun _ => rfl, hLoop⟩
    rintro ⟨nodes, hPath⟩
    exact absurd ⟨hPath.source_lt, hPath.target_lt⟩ hInside

/-- Two edges of different weights from the first node to the second, a loop without weight, and a
direct way to the third node that a later one undercuts. -/
def detours : Digraph Nat :=
  Draft.freeze
    { nodes := #[0, 1, 2, 3, 4]
      edges := #[⟨0, 1, 5⟩, ⟨0, 2, 3⟩, ⟨0, 1, 2⟩, ⟨1, 2, 0⟩, ⟨2, 1, 0⟩, ⟨2, 3, 1⟩, ⟨4, 3, 0⟩]
      edge_lt := by decide }

theorem shortestRoute_isCheapest_detours :
    detours.shortestRoute? 0 3 = some ⟨[0, 1, 2, 3], 3⟩ ∧
      detours.IsCheapestRoute 0 3 ⟨[0, 1, 2, 3], 3⟩ ∧ ¬ detours.Reaches 0 4 ∧
      detours.shortestRoute? 0 5 = none := by
  have hRoute : detours.shortestRoute? 0 3 = some ⟨[0, 1, 2, 3], 3⟩ := by decide
  refine ⟨hRoute, ((shortestRoute_isCheapest detours 0 3).2.1 _ hRoute).1, fun hReach => ?_, ?_⟩
  · exact absurd ((shortestRoute_isCheapest detours 0 4).1.mpr hReach) (by decide)
  · exact (shortestRoute_isCheapest detours 0 5).2.2.1 (by decide)

end Digraph

end BytecodeFlow
