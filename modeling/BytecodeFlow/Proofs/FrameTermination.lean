import BytecodeFlow.Proofs.FrameSearch

/-!
# The search for stack frames ends

The first round visits every node after one of its predecessors. The layout of the entry is exact,
and so is what an exact layout leaves, so the round makes all layouts exact (`exact_sweep`).

From then on a visit that changes a layout keeps its height and lowers its slack. The agenda never
holds more nodes than the graph has. So the slack, weighted by more than that number, together with
the length of the agenda falls with every visit (`weight_visit`), and the bound on the number of
visits is large enough to empty the agenda (`solve_spec`).
-/

namespace BytecodeFlow.FrameProblem

variable {problem : FrameProblem} {search next : FrameSearch} {node : Nat} {agenda : List Nat}

/-- The layout of the node is exact. -/
def ExactAt (inputs : Array (Option FrameLayout)) (node : Nat) : Prop :=
  ∃ layout, layoutAt inputs node = some layout ∧ layout.isExact = true

/-! ## The first round -/

/-- An exact layout stays exact, and a node with an exact predecessor gets an exact layout. -/
theorem Invariant.exactAt_visit (h : problem.Invariant search) (hProblem : problem.WellFormed)
    (hAgenda : search.agenda = node :: agenda)
    (hVisit : problem.visit search node agenda = .ok next) :
    (∀ k, ExactAt search.inputs k → ExactAt next.inputs k) ∧
      ∀ source, problem.isLive source = true → problem.graph.Adj source node →
        ExactAt search.inputs source → ExactAt next.inputs node := by
  obtain ⟨layout, refined, hVisited⟩ := h.visited hProblem hAgenda hVisit
  obtain ⟨hBeneath, -, hDemands⟩ :=
    h.regular.refine_beneath hProblem hVisited.layout_eq hVisited.refine_eq
  have hRefined : layoutAt next.inputs node = some refined := by
    rw [hVisited.layoutAt_eq, if_pos rfl]
  constructor
  · rintro k ⟨other, hOther, hExact⟩
    by_cases hk : k = node
    · subst hk
      obtain rfl := Option.some.inj (hVisited.layout_eq.symm.trans hOther)
      exact ⟨refined, hRefined, (hBeneath.exact hExact).1⟩
    · exact ⟨other, by rw [hVisited.layoutAt_eq, if_neg hk, hOther], hExact⟩
  · rintro source hLive hAdj ⟨before, hBefore, hExact⟩
    obtain ⟨effect, hEdge⟩ := hProblem.exists_edge hLive hAdj
    obtain ⟨after, hApply, hAfter⟩ := hDemands _
      ((mem_demands hProblem).mpr (Or.inl ⟨source, effect, before, hLive, hEdge, hBefore, rfl⟩))
    have hAfterExact := FrameLayout.apply_isExact hExact hApply
    exact ⟨refined, hRefined, (hAfter.exact hAfterExact).1⟩

/-- A node of the first round is the entry, or it comes after one of its predecessors. -/
theorem sweep_pred (hProblem : problem.WellFormed) {before behind : List Nat}
    (hSplit : problem.sweep = before ++ node :: behind) :
    node = problem.entry ∨
      ∃ source ∈ before, problem.isLive source = true ∧ problem.graph.Adj source node := by
  obtain ⟨-, hReached, hPred⟩ :=
    problem.graph.reversePostorder_spec (hProblem.lt_size hProblem.entry_live)
  have hMem : node ∈ problem.sweep := by simp [hSplit]
  have hLive := (mem_sweep hProblem).mp hMem
  rcases hPred node ((hReached node).mpr (hProblem.reaches hLive)) with hEntry | hSource
  · exact Or.inl hEntry
  · obtain ⟨source, hAdj, hSub⟩ := hSource
    have hSourceLive : problem.isLive source = true :=
      hProblem.live_of_adj ((hReached source).mp (hSub.subset List.mem_cons_self)) hAdj
    have hFilter : [source, node].Sublist problem.sweep := by
      have hKept := hSub.filter problem.isLive
      rwa [List.filter_cons_of_pos hSourceLive, List.filter_cons_of_pos hLive,
        List.filter_nil] at hKept
    have hNodup := nodup_sweep hProblem
    rw [hSplit] at hFilter hNodup
    exact Or.inr ⟨source, Traversal.mem_of_sublist_pair hNodup hFilter, hSourceLive, hAdj⟩

/-- In the first round, each node finds an exact predecessor and gets an exact layout itself. -/
theorem sweep_visit (hProblem : problem.WellFormed) {visited todo extra : List Nat}
    (hSplit : problem.sweep = visited ++ node :: todo) (h : problem.Invariant search)
    (hAgenda : search.agenda = node :: todo ++ extra)
    (hVisited : ∀ k ∈ visited, ExactAt search.inputs k)
    (hVisit : problem.visit search node (todo ++ extra) = .ok next) :
    (∃ more, next.agenda = todo ++ more) ∧ ∀ k ∈ visited ++ [node], ExactAt next.inputs k := by
  obtain ⟨hKept, hGained⟩ := h.exactAt_visit hProblem hAgenda hVisit
  obtain ⟨layout, refined, hStep⟩ := h.visited hProblem hAgenda hVisit
  constructor
  · rw [hStep.agenda_eq]
    split
    · exact ⟨extra, rfl⟩
    · exact ⟨_, List.append_assoc _ _ _⟩
  · intro k hk
    rcases List.mem_append.mp hk with hk | hk
    · exact hKept k (hVisited k hk)
    · rw [List.mem_singleton.mp hk]
      rcases sweep_pred hProblem hSplit with rfl | ⟨source, hSource, hLive, hAdj⟩
      · exact hKept _ ⟨_, h.regular.entry, rfl⟩
      · exact hGained source hLive hAdj (hVisited source hSource)

/-- After the first round all layouts are exact. -/
theorem exact_sweep (hProblem : problem.WellFormed) (visited todo extra : List Nat)
    (hSplit : problem.sweep = visited ++ todo) (h : problem.Invariant search)
    (hAgenda : search.agenda = todo ++ extra) (hVisited : ∀ k ∈ visited, ExactAt search.inputs k)
    (hRun : problem.run todo.length search = .ok next) :
    ∀ k, problem.isLive k = true → ExactAt next.inputs k := by
  induction todo generalizing search visited extra with
  | nil =>
    cases hRun
    intro k hLive
    rw [List.append_nil] at hSplit
    exact hVisited k (hSplit ▸ (mem_sweep hProblem).mpr hLive)
  | cons node todo ih =>
    rw [List.length_cons, run_succ_of_cons hAgenda] at hRun
    obtain ⟨middle, hVisit, hRest⟩ := bind_eq_ok.mp hRun
    obtain ⟨⟨more, hMore⟩, hExact⟩ := sweep_visit hProblem hSplit h hAgenda hVisited hVisit
    exact ih (visited ++ [node]) more (by simp [hSplit]) (h.visit hProblem hAgenda hVisit) hMore
      hExact hRest

/-! ## The visits after it -/

/-- A layout that is exact keeps its height, and changes only towards less slack. -/
theorem slack_lt_of_beneath {layout refined : FrameLayout} (h : layout.Beneath refined)
    (hExact : layout.isExact = true) (hVoid : refined.VoidFree) (hChanged : refined ≠ layout) :
    refined.slack < layout.slack := by
  obtain ⟨hRefined, hWords⟩ := h.exact hExact
  rcases (h.below_of_exact hExact).values.slack hWords hVoid with hSame | hLess
  · refine absurd ?_ hChanged
    obtain ⟨values, isExact⟩ := layout
    obtain ⟨values', isExact'⟩ := refined
    obtain rfl : values = values' := hSame
    rw [show isExact = true from hExact, show isExact' = true from hRefined]
  · exact hLess

theorem slack_eq_sum : search.slack = ∑ k ∈ Finset.range search.inputs.size,
    ((layoutAt search.inputs k).map FrameLayout.slack).getD 0 := by
  have hList : search.inputs.toList.map (fun input => (input.map FrameLayout.slack).getD 0) =
      (List.range search.inputs.size).map
        fun k => ((layoutAt search.inputs k).map FrameLayout.slack).getD 0 := by
    refine List.ext_getElem (by simp) fun k hk hk' => ?_
    have hSize : k < search.inputs.size := by simpa using hk
    simp [layoutAt, hSize]
  unfold FrameSearch.slack
  rw [← List.foldr_map, ← List.sum_eq_foldr, hList]
  rfl

theorem Visited.slack_eq {layout : FrameLayout}
    (h : problem.Visited search node agenda layout layout next) : next.slack = search.slack := by
  rw [slack_eq_sum, slack_eq_sum, h.size_eq]
  refine Finset.sum_congr rfl fun k _ => ?_
  rw [h.layoutAt_eq]
  split
  · rename_i hk
    rw [hk, h.layout_eq]
  · rfl

theorem Visited.slack_lt {layout refined : FrameLayout}
    (h : problem.Visited search node agenda layout refined next)
    (hNode : node < search.inputs.size) (hLess : refined.slack < layout.slack) :
    next.slack < search.slack := by
  rw [slack_eq_sum, slack_eq_sum, h.size_eq]
  refine Finset.sum_lt_sum (fun k _ => ?_) ⟨node, Finset.mem_range.mpr hNode, ?_⟩
  · rw [h.layoutAt_eq]
    split
    · rename_i hk
      rw [hk, h.layout_eq]
      exact hLess.le
    · exact le_rfl
  · rw [h.layoutAt_eq, if_pos rfl, h.layout_eq]
    exact hLess

/-- How many visits are left at most. -/
def weight (search : FrameSearch) : Nat :=
  search.slack * (search.inputs.size + 1) + search.agenda.length

theorem Invariant.agenda_length_le (h : problem.Invariant search)
    (hProblem : problem.WellFormed) : search.agenda.length ≤ search.inputs.size := by
  rw [h.regular.size_eq]
  exact Traversal.length_le_of_nodup h.agenda_nodup
    fun k hk => hProblem.lt_size (h.agenda_live k hk)

/-- Once all layouts are exact, every visit lowers the weight. -/
theorem Invariant.weight_visit (h : problem.Invariant search) (hProblem : problem.WellFormed)
    (hExact : ∀ k, problem.isLive k = true → ExactAt search.inputs k)
    (hAgenda : search.agenda = node :: agenda)
    (hVisit : problem.visit search node agenda = .ok next) : weight next < weight search := by
  obtain ⟨layout, refined, hVisited⟩ := h.visited hProblem hAgenda hVisit
  have hSize := hVisited.size_eq
  by_cases hChanged : refined = layout
  · -- nothing changes but the agenda, which gets shorter
    subst hChanged
    unfold weight
    rw [hVisited.slack_eq, hSize, hVisited.agenda_eq, if_pos rfl, hAgenda, List.length_cons]
    omega
  · -- the slack falls, and its weight exceeds the length of any agenda
    have hLive := h.regular.isLive hVisited.layout_eq
    have hNode : node < search.inputs.size := by
      rw [h.regular.size_eq]
      exact hProblem.lt_size hLive
    obtain ⟨hBeneath, hVoid, -⟩ :=
      h.regular.refine_beneath hProblem hVisited.layout_eq hVisited.refine_eq
    obtain ⟨_, hLayout, hLayoutExact⟩ := hExact node hLive
    obtain rfl := Option.some.inj (hVisited.layout_eq.symm.trans hLayout)
    have hSlack := hVisited.slack_lt hNode
      (slack_lt_of_beneath hBeneath hLayoutExact hVoid hChanged)
    have hLength := (h.visit hProblem hAgenda hVisit).agenda_length_le hProblem
    have hStep : (next.slack + 1) * (search.inputs.size + 1) ≤
        search.slack * (search.inputs.size + 1) := Nat.mul_le_mul_right _ hSlack
    rw [Nat.add_mul] at hStep
    unfold weight
    rw [hSize] at hLength ⊢
    omega

/-- A run of enough visits empties the agenda. -/
theorem Invariant.run_drains (h : problem.Invariant search) (hProblem : problem.WellFormed)
    (hExact : ∀ k, problem.isLive k = true → ExactAt search.inputs k) {fuel : Nat}
    (hFuel : weight search ≤ fuel) (hRun : problem.run fuel search = .ok next) :
    next.agenda = [] ∧ ∀ k, problem.isLive k = true → ExactAt next.inputs k := by
  induction fuel generalizing search with
  | zero =>
    have hLength : search.agenda.length = 0 := by
      unfold weight at hFuel
      omega
    cases hRun
    exact ⟨List.eq_nil_of_length_eq_zero hLength, hExact⟩
  | succ fuel ih =>
    cases hAgenda : search.agenda with
    | nil =>
      rw [run_of_nil hAgenda] at hRun
      cases hRun
      exact ⟨hAgenda, hExact⟩
    | cons node agenda =>
      rw [run_succ_of_cons hAgenda] at hRun
      obtain ⟨middle, hVisit, hRest⟩ := bind_eq_ok.mp hRun
      have hLess := h.weight_visit hProblem hExact hAgenda hVisit
      obtain ⟨hKept, -⟩ := h.exactAt_visit hProblem hAgenda hVisit
      exact ih (h.visit hProblem hAgenda hVisit) (fun k hk => hKept k (hExact k hk)) (by omega)
        hRest

/-- The first round is all that is on the agenda at the start. -/
theorem agenda_start (h : problem.start = .ok search) :
    search.agenda = problem.sweep ∧ search.visits = 0 := by
  obtain ⟨inputs, -, h⟩ := bind_eq_ok.mp h
  cases h
  exact ⟨rfl, rfl⟩

/-- The search ends with exact layouts and an empty agenda. -/
theorem solve_spec (hProblem : problem.WellFormed) (h : problem.solve = .ok search) :
    problem.Invariant search ∧ search.agenda = [] ∧
      ∀ k, problem.isLive k = true → ExactAt search.inputs k := by
  obtain ⟨first, hStart, h⟩ := bind_eq_ok.mp h
  obtain ⟨swept, hSweep, hRun⟩ := bind_eq_ok.mp h
  have hFirst := invariant_start hProblem hStart
  have hSwept := hFirst.run hProblem hSweep
  have hExact := exact_sweep hProblem [] problem.sweep [] rfl hFirst
    (by rw [(agenda_start hStart).1, List.append_nil]) (by simp) hSweep
  have hBound : weight swept ≤ swept.visitBound := by
    have hLength := hSwept.agenda_length_le hProblem
    unfold weight FrameSearch.visitBound
    rw [Nat.add_mul]
    omega
  exact ⟨hSwept.run hProblem hRun, hSwept.run_drains hProblem hExact hBound hRun⟩

end BytecodeFlow.FrameProblem
