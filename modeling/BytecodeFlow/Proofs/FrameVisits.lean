import BytecodeFlow.Proofs.FrameTermination
import BytecodeFlow.StackFrames.Basic

/-!
# The visits of the search for stack frames

The search is a loop that visits the first node of its agenda until none is left or a visit fails.
`Visits` follows this loop from one search to a later one, with the nodes that it visits, and `Ends`
says where it stops and with what result. Neither knows of a bound, unlike the runs by which the
search is computed.

The loop goes through the nodes of the first round in their order, since a visit only adds nodes
behind them (`visits_round`). It stops with the result that is computed (`exists_ends`), and a loop
that stops has no longer way to go (`Visits.prefix_of_ends`). So every search ends, and it does so
with exact layouts unless a visit of the first round fails (`frameSearch_ends`).
-/

namespace BytecodeFlow

namespace FrameProblem

variable {problem : FrameProblem} {search next last : FrameSearch} {node : Nat}
  {nodes agenda : List Nat} {result : Except Error FrameSearch}

/-- The loop visits these nodes one after the other, each of them the first of the agenda. -/
inductive Visits (problem : FrameProblem) : FrameSearch → List Nat → FrameSearch → Prop
  | nil (search : FrameSearch) : Visits problem search [] search
  | cons {search next last : FrameSearch} {node : Nat} {nodes agenda : List Nat}
      (hAgenda : search.agenda = node :: agenda)
      (hVisit : problem.visit search node agenda = .ok next)
      (hRest : Visits problem next nodes last) : Visits problem search (node :: nodes) last

/-- The loop stops: nothing is left to visit, or the next visit fails. -/
inductive Ends (problem : FrameProblem) : FrameSearch → Except Error FrameSearch → Prop
  | done {search : FrameSearch} (hAgenda : search.agenda = []) : Ends problem search (.ok search)
  | failed {search : FrameSearch} {node : Nat} {agenda : List Nat} {error : Error}
      (hAgenda : search.agenda = node :: agenda)
      (hVisit : problem.visit search node agenda = .error error) :
      Ends problem search (.error error)

/-! ## One visit -/

/-- A visit is counted, and it adds nodes at the end of the agenda only. -/
theorem visit_agenda (h : problem.visit search node agenda = .ok next) :
    next.visits = search.visits + 1 ∧ ∃ more, next.agenda = agenda ++ more := by
  unfold visit at h
  split at h
  · cases h
    exact ⟨rfl, [], (List.append_nil _).symm⟩
  · obtain ⟨refined, -, h⟩ := bind_eq_ok.mp h
    split at h <;> cases h
    · exact ⟨rfl, [], (List.append_nil _).symm⟩
    · exact ⟨rfl, _, rfl⟩

/-! ## Many visits -/

theorem Visits.trans {more : List Nat} (h : problem.Visits search nodes next)
    (hMore : problem.Visits next more last) : problem.Visits search (nodes ++ more) last := by
  induction h with
  | nil => exact hMore
  | cons hAgenda hVisit _ ih => exact .cons hAgenda hVisit (ih hMore)

theorem Visits.visits_eq (h : problem.Visits search nodes last) :
    last.visits = search.visits + nodes.length := by
  induction h with
  | nil => rfl
  | cons _ hVisit _ ih =>
    rw [ih, (visit_agenda hVisit).1, List.length_cons, Nat.add_assoc, Nat.add_comm 1]

/-- There is one way to go, and it does not lead past an end. -/
theorem Visits.prefix_of_ends (h : problem.Visits search nodes last)
    (hEnds : problem.Ends last result) {others : List Nat}
    (hOthers : problem.Visits search others next) : others <+: nodes := by
  induction hOthers generalizing nodes with
  | nil => exact List.nil_prefix
  | cons hAgenda hVisit _ ih =>
    cases h with
    | nil =>
      -- where the loop stops there is no other visit to make
      cases hEnds with
      | done hDone => cases hAgenda.symm.trans hDone
      | failed hOther hFailed =>
        cases hAgenda.symm.trans hOther
        cases hVisit.symm.trans hFailed
    | cons hOther hVisit' hRest =>
      cases hAgenda.symm.trans hOther
      cases hVisit.symm.trans hVisit'
      exact (List.prefix_cons_inj _).mpr (ih hRest)

/-- A round goes through the nodes at the front of the agenda in their order, or a visit fails. -/
theorem visits_round (problem : FrameProblem) (todo extra : List Nat)
    (hAgenda : search.agenda = todo ++ extra) :
    (∃ swept, problem.run todo.length search = .ok swept ∧ problem.Visits search todo swept) ∨
      ∃ nodes failing behind last error, todo = nodes ++ failing :: behind ∧
        problem.run todo.length search = .error error ∧ problem.Visits search nodes last ∧
        problem.Ends last (.error error) := by
  induction todo generalizing search extra with
  | nil => exact Or.inl ⟨search, rfl, .nil search⟩
  | cons node todo ih =>
    rw [List.length_cons, run_succ_of_cons hAgenda]
    cases hVisit : problem.visit search node (todo ++ extra) with
    | error error =>
      exact Or.inr ⟨[], node, todo, search, error, rfl, rfl, .nil search, .failed hAgenda hVisit⟩
    | ok middle =>
      obtain ⟨-, more, hMore⟩ := visit_agenda hVisit
      rw [List.append_assoc] at hMore
      rcases ih _ hMore with
        ⟨swept, hRun, hSwept⟩ | ⟨nodes, failing, behind, last, error, rfl, hRun, hLast, hEnds⟩
      · exact Or.inl ⟨swept, hRun, .cons hAgenda hVisit hSwept⟩
      · exact Or.inr ⟨node :: nodes, failing, behind, last, error, rfl, hRun,
          .cons hAgenda hVisit hLast, hEnds⟩

/-- A run that fails or empties the agenda is a loop that stops. -/
theorem exists_ends {fuel : Nat} (hRun : problem.run fuel search = result)
    (hDrained : ∀ last, result = .ok last → last.agenda = []) :
    ∃ nodes last, problem.Visits search nodes last ∧ problem.Ends last result ∧
      nodes.length ≤ fuel := by
  induction fuel generalizing search with
  | zero =>
    subst hRun
    exact ⟨[], search, .nil search, .done (hDrained search rfl), le_rfl⟩
  | succ fuel ih =>
    cases hAgenda : search.agenda with
    | nil =>
      rw [run_of_nil hAgenda] at hRun
      subst hRun
      exact ⟨[], search, .nil search, .done hAgenda, Nat.zero_le _⟩
    | cons node agenda =>
      rw [run_succ_of_cons hAgenda] at hRun
      cases hVisit : problem.visit search node agenda with
      | error error =>
        rw [hVisit] at hRun
        subst hRun
        exact ⟨[], search, .nil search, .failed hAgenda hVisit, Nat.zero_le _⟩
      | ok middle =>
        rw [hVisit] at hRun
        obtain ⟨nodes, last, hNodes, hEnds, hLength⟩ := ih hRun
        exact ⟨node :: nodes, last, .cons hAgenda hVisit hNodes, hEnds, Nat.succ_le_succ hLength⟩

/-- The loop stops with the computed result, after a first round that makes all layouts exact or in
which a visit fails. -/
theorem ends_solve (hProblem : problem.WellFormed) (hStart : problem.start = .ok search) :
    ∃ nodes last, problem.Visits search nodes last ∧ problem.Ends last problem.solve ∧
      ((∃ failing behind error, problem.sweep = nodes ++ failing :: behind ∧
          problem.solve = .error error) ∨
        ∃ swept rest, problem.Visits search problem.sweep swept ∧ nodes = problem.sweep ++ rest ∧
          problem.Visits swept rest last ∧ rest.length ≤ swept.visitBound ∧
          ∀ k, problem.isLive k = true → ExactAt swept.inputs k) := by
  have hAgenda : search.agenda = problem.sweep ++ [] := by
    rw [(agenda_start hStart).1, List.append_nil]
  have hSolve : problem.solve = problem.run problem.sweep.length search >>= fun swept =>
      problem.run swept.visitBound swept := by
    rw [solve, hStart]
    rfl
  rcases problem.visits_round problem.sweep [] hAgenda with
    ⟨swept, hSweep, hSwept⟩ | ⟨nodes, failing, behind, last, error, hSplit, hSweep, hLast, hEnds⟩
  · -- the visits after the first round empty the agenda, since the bound on them is large enough
    rw [hSweep] at hSolve
    obtain ⟨rest, last, hRest, hEnds, hLength⟩ := exists_ends hSolve.symm
      fun last hLast => (solve_spec hProblem hLast).2.1
    exact ⟨_, last, hSwept.trans hRest, hEnds, Or.inr ⟨swept, rest, hSwept, rfl, hRest,
      hLength, exact_sweep hProblem [] problem.sweep [] rfl (invariant_start hProblem hStart)
        hAgenda (by simp) hSweep⟩⟩
  · rw [hSweep] at hSolve
    exact ⟨nodes, last, hLast, hSolve ▸ hEnds, Or.inl ⟨failing, behind, error, hSplit, hSolve⟩⟩

end FrameProblem

namespace FlowGraph

open FrameProblem

variable {flow : FlowGraph} {locals : VariableTable} {problem : FrameProblem} {first : FrameSearch}

/-- The first round goes through the live nodes in reverse postorder. -/
theorem agenda_start_eq (hProblem : problem.Describes flow locals)
    (hShape : flow.WellShaped) (hStart : problem.start = .ok first) :
    first.agenda = (flow.graph.reversePostorder flow.entry).filter (· != flow.exit) := by
  rw [(agenda_start hStart).1, sweep, hProblem.graph_eq, hProblem.entry_eq]
  refine List.filter_congr fun node hNode => ?_
  obtain ⟨nodes, hPath⟩ := hShape.isLive_entry.1
  obtain ⟨-, hReached, -⟩ := flow.graph.reversePostorder_spec hPath.source_lt
  rw [Bool.eq_iff_iff, hProblem.isLive_iff, bne_iff_ne]
  exact ⟨fun hLive => hLive.2, fun hExit => ⟨(hReached node).mp hNode, hExit⟩⟩

theorem visits_of_ends (hProblem : ofFlow flow locals = .ok problem)
    (hStart : problem.start = .ok first) {nodes : List Nat} {last : FrameSearch}
    (hVisits : problem.Visits first nodes last) (hEnds : problem.Ends last problem.solve)
    {frames : StackFrames} (hFrames : flow.stackFrames locals = .ok frames) :
    frames.visits = nodes.length := by
  obtain ⟨_, hProblem', hFrames⟩ := bind_eq_ok.mp hFrames
  obtain rfl := Except.ok.inj (hProblem.symm.trans hProblem')
  obtain ⟨search, hSolve, hFrames⟩ := bind_eq_ok.mp hFrames
  obtain ⟨outputs, -, hFrames⟩ := bind_eq_ok.mp hFrames
  cases hFrames
  rw [hSolve] at hEnds
  cases hEnds with
  | done => rw [hVisits.visits_eq, (agenda_start hStart).2, Nat.zero_add]

/-- **The search for stack frames ends.** It visits finitely many nodes, and unless a visit of the
first round fails, all layouts are exact after this round. -/
theorem frameSearch_ends {method : MethodId} {instructions : List Instruction}
    {handlers : List HandlerRange} {settings : Settings}
    (hBuild : build method instructions handlers settings = .ok flow)
    (hProblem : ofFlow flow locals = .ok problem) (hStart : problem.start = .ok first) :
    first.agenda = (flow.graph.reversePostorder flow.entry).filter (· != flow.exit) ∧
    ∃ nodes last, problem.Visits first nodes last ∧ problem.Ends last problem.solve ∧
      (∀ others next, problem.Visits first others next → others <+: nodes) ∧
      (∀ frames, flow.stackFrames locals = .ok frames → frames.visits = nodes.length) ∧
      ((∃ failing behind error, first.agenda = nodes ++ failing :: behind ∧
          problem.solve = .error error) ∨
        ∃ swept rest, problem.Visits first first.agenda swept ∧ nodes = first.agenda ++ rest ∧
          problem.Visits swept rest last ∧ rest.length ≤ swept.visitBound ∧
          ∀ node, flow.IsLive node →
            ∃ layout, swept.inputs[node]? = some (some layout) ∧ layout.isExact = true) := by
  have hShape := build_wellShaped hBuild
  have hDescribes := ofFlow_describes hProblem
  obtain ⟨nodes, last, hVisits, hEnds, hRound⟩ := ends_solve (hDescribes.wellFormed hShape) hStart
  refine ⟨agenda_start_eq hDescribes hShape hStart, nodes, last, hVisits, hEnds,
    fun _ _ hOthers => hVisits.prefix_of_ends hEnds hOthers,
    fun _ hFrames => visits_of_ends hProblem hStart hVisits hEnds hFrames, ?_⟩
  rw [(agenda_start hStart).1]
  refine hRound.imp_right ?_
  rintro ⟨swept, rest, hSwept, hNodes, hRest, hLength, hExact⟩
  refine ⟨swept, rest, hSwept, hNodes, hRest, hLength, fun node hLive => ?_⟩
  obtain ⟨layout, hLayout, hLayoutExact⟩ := hExact node ((hDescribes.isLive_iff node).mpr hLive)
  exact ⟨layout, by simpa [layoutAt, Option.getD_eq_iff] using hLayout, hLayoutExact⟩

/-- A loop that moves a string from the top of the stack to the value below. -/
def carousel : List Instruction :=
  let method : MethodId := ⟨"Carousel", "run", "(Z)V"⟩
  [⟨method, 0, "0", .constant .null, none⟩, ⟨method, 1, "1", .constant .null, none⟩,
    ⟨method, 2, "2", .load .int 0, none⟩, ⟨method, 3, "3", .branch .equal 6, none⟩,
    ⟨method, 4, "4", .shuffle .pop, none⟩, ⟨method, 5, "5", .constant (.string "next"), none⟩,
    ⟨method, 6, "6", .shuffle .swap, none⟩, ⟨method, 7, "7", .goto 2, none⟩]

/-- The first round takes nine visits, and eighteen more carry the string around the loop. -/
theorem frameSearch_ends_carousel :
    ∃ flow problem first frames, build ⟨"Carousel", "run", "(Z)V"⟩ carousel [] {} = .ok flow ∧
      ofFlow flow [] = .ok problem ∧ problem.start = .ok first ∧
      flow.stackFrames [] = .ok frames ∧ first.agenda = [0, 1, 2, 3, 4, 5, 6, 7, 8] ∧
      ∃ nodes last, problem.Visits first nodes last ∧ problem.Ends last problem.solve ∧
        nodes.length = 27 := by
  have hRun : ((build ⟨"Carousel", "run", "(Z)V"⟩ carousel [] {}).bind fun flow =>
      (ofFlow flow []).bind fun problem => problem.start.bind fun first =>
        (flow.stackFrames []).map fun frames => (first.agenda, frames.visits)).toOption =
      some ([0, 1, 2, 3, 4, 5, 6, 7, 8], 27) := by
    decide +kernel
  cases hBuild : build ⟨"Carousel", "run", "(Z)V"⟩ carousel [] {} with
  | error _ => simp [hBuild, Except.bind, Except.toOption] at hRun
  | ok flow =>
    cases hProblem : ofFlow flow [] with
    | error _ => simp [hBuild, hProblem, Except.bind, Except.toOption] at hRun
    | ok problem =>
      cases hStart : problem.start with
      | error _ => simp [hBuild, hProblem, hStart, Except.bind, Except.toOption] at hRun
      | ok first =>
        cases hFrames : flow.stackFrames [] with
        | error _ =>
          simp [hBuild, hProblem, hStart, hFrames, Except.bind, Except.map, Except.toOption] at hRun
        | ok frames =>
          simp only [hBuild, hProblem, hStart, hFrames, Except.bind, Except.map, Except.toOption,
            Option.some.injEq, Prod.mk.injEq] at hRun
          obtain ⟨hAgenda, hCount⟩ := hRun
          obtain ⟨-, nodes, last, hVisits, hEnds, -, hLength, -⟩ :=
            frameSearch_ends hBuild hProblem hStart
          exact ⟨flow, problem, first, frames, rfl, hProblem, hStart, hFrames, hAgenda, nodes, last,
            hVisits, hEnds, (hLength frames hFrames).symm.trans hCount⟩

end FlowGraph

end BytecodeFlow
