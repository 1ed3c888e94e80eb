import Mathlib.Data.List.Forall2
import Mathlib.Tactic
import BytecodeFlow.GraphCache.Batch

/-!
# Schedules of a batch

What a batch of calls comes to does not depend on its schedule. Two calls for one method may both
miss it and both build its graph, but only the first graph that is offered stays, and both calls hand
out that one.

The argument is an invariant of the batch (`Batch.Sound`). What the cache holds more than at the
start are analyses of methods of the source, one for each (`Filled`). A call that has answered gave
what its method is due (`Due`), and this stays right because graphs are only ever added.

Every call answers after three steps of its own, whatever the others do (`stepsLeft_run`). Calls that
run to their ends one after the other are one schedule among the others (`run_inOrder`).
-/

namespace BytecodeFlow

/-- The source knows a body of the method, and its analysis gives the result. -/
def MethodSource.AnalysesTo (source : MethodSource) (settings : Settings) (method : MethodId)
    (result : Except Error FlowGraph) : Prop :=
  ∃ body, source.body? method = some body ∧ body.analyze settings = result

theorem MethodSource.AnalysesTo.unique {source : MethodSource} {settings : Settings}
    {method : MethodId} {result other : Except Error FlowGraph}
    (h : source.AnalysesTo settings method result)
    (hOther : source.AnalysesTo settings method other) : result = other := by
  obtain ⟨body, hBody, hResult⟩ := h
  obtain ⟨body', hBody', hOther⟩ := hOther
  rw [hBody] at hBody'
  cases hBody'
  rw [← hResult, hOther]

namespace GraphCache

variable {source : MethodSource} {first now last : GraphCache} {method : MethodId}
  {graph : CachedGraph} {added : List (MethodId × CachedGraph)}

/-! ## Adding graphs -/

theorem insertNew_of_none (h : now.get? method = none) (graph : CachedGraph) :
    now.insertNew method graph = { now with entries := now.entries ++ [(method, graph)] } := by
  rw [insertNew, h]

theorem insertNew_of_some {other : CachedGraph} (h : now.get? method = some other)
    (graph : CachedGraph) : now.insertNew method graph = now := by
  rw [insertNew, h]

theorem get?_insertNew (now : GraphCache) (method : MethodId) (graph : CachedGraph)
    (wanted : MethodId) :
    (now.insertNew method graph).get? wanted =
      (now.get? wanted).or (if wanted = method then some graph else none) := by
  cases hMethod : now.get? method with
  | some other =>
    rw [insertNew_of_some hMethod]
    by_cases hWanted : wanted = method
    · rw [hWanted, hMethod, Option.some_or]
    · rw [if_neg hWanted, Option.or_none]
  | none =>
    rw [insertNew_of_none hMethod, get?, List.lookup_append, List.lookup_cons, List.lookup_nil]
    by_cases hWanted : wanted = method
    · rw [if_pos hWanted, beq_iff_eq.mpr hWanted]
      rfl
    · rw [if_neg hWanted, beq_eq_false_iff_ne.mpr hWanted]
      rfl

/-- The second cache is the first one with graphs added: of methods of the source that were not
cached, one for each, and each the analysis of the body. -/
structure Filled (source : MethodSource) (first now : GraphCache)
    (added : List (MethodId × CachedGraph)) : Prop where
  settings_eq : now.settings = first.settings
  entries_eq : now.entries = first.entries ++ added
  nodup : (added.map Prod.fst).Nodup
  listed : ∀ entry ∈ added, entry.1 ∈ source.methods
  fresh : ∀ entry ∈ added, first.get? entry.1 = none
  analysed : ∀ entry ∈ added, source.AnalysesTo first.settings entry.1 (.ok entry.2.flow)

/-- The result that a call for a method is due, where `first` is the cache at the start and `last`
the cache at the end. -/
inductive Due (source : MethodSource) (first last : GraphCache) (method : MethodId) :
    Except Error (Option CachedGraph) → Prop
  | cached {graph : CachedGraph} (hCached : first.get? method = some graph) :
      Due source first last method (.ok (some graph))
  | unknown (hNew : first.get? method = none) (hUnknown : source.body? method = none) :
      Due source first last method (.ok none)
  | failed {error : Error} (hNew : first.get? method = none)
      (hFails : source.AnalysesTo first.settings method (.error error)) :
      Due source first last method (.error error)
  | analysed {graph : CachedGraph} (hNew : first.get? method = none)
      (hAnalysed : source.AnalysesTo first.settings method (.ok graph.flow))
      (hKept : last.get? method = some graph) : Due source first last method (.ok (some graph))

/-- What is due stays due while graphs are added. -/
theorem Due.mono {result : Except Error (Option CachedGraph)}
    (h : Due source first now method result)
    (hKept : ∀ graph, now.get? method = some graph → last.get? method = some graph) :
    Due source first last method result := by
  cases h with
  | cached hCached => exact .cached hCached
  | unknown hNew hUnknown => exact .unknown hNew hUnknown
  | failed hNew hFails => exact .failed hNew hFails
  | analysed hNew hAnalysed hGet => exact .analysed hNew hAnalysed (hKept _ hGet)

namespace Filled

theorem refl (source : MethodSource) (first : GraphCache) : Filled source first first [] where
  settings_eq := rfl
  entries_eq := (List.append_nil _).symm
  nodup := List.nodup_nil
  listed := by simp
  fresh := by simp
  analysed := by simp

theorem get?_eq (h : Filled source first now added) (method : MethodId) :
    now.get? method = (first.get? method).or (added.lookup method) := by
  rw [get?, h.entries_eq, List.lookup_append]
  rfl

theorem mem_added (h : Filled source first now added) (hNew : first.get? method = none)
    (hGet : now.get? method = some graph) : (method, graph) ∈ added := by
  rw [h.get?_eq, hNew, Option.none_or, List.lookup_eq_some_iff] at hGet
  obtain ⟨before, after, rfl, -⟩ := hGet
  simp

theorem get?_first (h : Filled source first now added) (hGet : now.get? method = none) :
    first.get? method = none := by
  rw [h.get?_eq] at hGet
  exact (Option.or_eq_none_iff.mp hGet).1

/-- What the cache holds for a method is due to its callers. -/
theorem due (h : Filled source first now added) (hGet : now.get? method = some graph) :
    Due source first now method (.ok (some graph)) := by
  cases hFirst : first.get? method with
  | some other =>
    rw [h.get?_eq, hFirst, Option.some_or] at hGet
    cases hGet
    exact .cached hFirst
  | none => exact .analysed hFirst (h.analysed _ (h.mem_added hFirst hGet)) hGet

/-- A call that does not fail hands out what the cache holds. -/
theorem get?_of_due (h : Filled source first now added) {given : Option CachedGraph}
    (hDue : Due source first now method (.ok given)) : now.get? method = given := by
  cases hDue with
  | cached hCached => rw [h.get?_eq, hCached, Option.some_or]
  | analysed _ _ hKept => exact hKept
  | unknown hNew hUnknown =>
    rw [Option.eq_none_iff_forall_ne_some]
    intro graph hGet
    obtain ⟨body, hBody, -⟩ := h.analysed _ (h.mem_added hNew hGet)
    rw [hUnknown] at hBody
    cases hBody

theorem insertNew (h : Filled source first now added) (hListed : method ∈ source.methods)
    (hNew : first.get? method = none)
    (hAnalysed : source.AnalysesTo first.settings method (.ok graph.flow)) :
    ∃ added, Filled source first (now.insertNew method graph) added := by
  cases hGet : now.get? method with
  | some other =>
    rw [insertNew_of_some hGet]
    exact ⟨added, h⟩
  | none =>
    rw [insertNew_of_none hGet]
    have hAbsent : method ∉ added.map Prod.fst := by
      rw [h.get?_eq, hNew, Option.none_or, List.lookup_eq_none_iff] at hGet
      intro hMem
      obtain ⟨entry, hEntry, hKey⟩ := List.mem_map.mp hMem
      have hApart := hGet entry hEntry
      rw [hKey, bne_self_eq_false] at hApart
      cases hApart
    refine ⟨added ++ [(method, graph)], h.settings_eq, ?_, ?_, ?_, ?_, ?_⟩
    · rw [h.entries_eq, List.append_assoc]
    · rw [List.map_append, List.nodup_append]
      refine ⟨h.nodup, List.nodup_singleton _, ?_⟩
      intro a ha b hb
      rw [List.map_singleton, List.mem_singleton] at hb
      exact hb ▸ ne_of_mem_of_not_mem ha hAbsent
    · exact List.forall_mem_append.mpr ⟨h.listed, List.forall_mem_singleton.mpr hListed⟩
    · exact List.forall_mem_append.mpr ⟨h.fresh, List.forall_mem_singleton.mpr hNew⟩
    · exact List.forall_mem_append.mpr ⟨h.analysed, List.forall_mem_singleton.mpr hAnalysed⟩

end Filled

end GraphCache

/-! ## The steps of a call -/

namespace CallStage

open GraphCache

/-- What the next step of a call can do. -/
inductive Steps (source : MethodSource) (method : MethodId) :
    CallStage → GraphCache → CallStage → GraphCache → Prop
  | hit {cache : GraphCache} {graph : CachedGraph} (hGet : cache.get? method = some graph) :
      Steps source method .started cache (.answered (.ok (some graph))) cache
  | miss {cache : GraphCache} (hGet : cache.get? method = none) :
      Steps source method .started cache .missed cache
  | unknown {cache : GraphCache} (hUnknown : source.body? method = none) :
      Steps source method .missed cache (.answered (.ok none)) cache
  | fail {cache : GraphCache} {error : Error}
      (hFails : source.AnalysesTo cache.settings method (.error error)) :
      Steps source method .missed cache (.answered (.error error)) cache
  | build {cache : GraphCache} {flow : FlowGraph}
      (hAnalysed : source.AnalysesTo cache.settings method (.ok flow)) :
      Steps source method .missed cache (.built (cache.stamp flow).1) (cache.stamp flow).2
  | offer {cache : GraphCache} {graph : CachedGraph} :
      Steps source method (.built graph) cache
        (.answered (.ok ((cache.insertNew method graph).get? method)))
        (cache.insertNew method graph)
  | rest {cache : GraphCache} {result : Except Error (Option CachedGraph)} :
      Steps source method (.answered result) cache (.answered result) cache

theorem steps_step (source : MethodSource) (method : MethodId) (cache : GraphCache)
    (stage : CallStage) :
    Steps source method stage cache (stage.step source method cache).1
      (stage.step source method cache).2 := by
  cases stage with
  | started =>
    unfold step
    cases hGet : cache.get? method with
    | some graph => exact .hit hGet
    | none => exact .miss hGet
  | missed =>
    unfold step
    cases hBody : source.body? method with
    | none => exact .unknown hBody
    | some body =>
      cases hAnalyze : body.analyze cache.settings with
      | error error =>
        simp only [hAnalyze]
        exact .fail ⟨body, hBody, hAnalyze⟩
      | ok flow =>
        simp only [hAnalyze]
        exact .build ⟨body, hBody, hAnalyze⟩
  | built graph => exact .offer
  | answered result => exact .rest

variable {source : MethodSource} {method : MethodId} {stage stage' : CallStage}
  {first now now' : GraphCache} {added : List (MethodId × CachedGraph)}

/-- A step loses no graph of the cache. -/
theorem Steps.get?_eq_some (h : Steps source method stage now stage' now') {wanted : MethodId}
    {graph : CachedGraph} (hGet : now.get? wanted = some graph) :
    now'.get? wanted = some graph := by
  cases h with
  | offer => rw [get?_insertNew, hGet, Option.some_or]
  | _ => exact hGet

/-- What is known at a stage of a call. -/
def Sound (source : MethodSource) (first now : GraphCache) (method : MethodId) : CallStage → Prop
  | .started => True
  | .missed => first.get? method = none
  | .built graph =>
    first.get? method = none ∧ source.AnalysesTo first.settings method (.ok graph.flow)
  | .answered result => Due source first now method result

theorem Sound.mono (h : stage.Sound source first now method)
    (hKept : ∀ graph, now.get? method = some graph → now'.get? method = some graph) :
    stage.Sound source first now' method := by
  cases stage with
  | answered result => exact Due.mono h hKept
  | _ => exact h

/-- A step fills the cache further, or leaves it, and what it makes of its call is sound. -/
theorem Steps.sound (h : Steps source method stage now stage' now')
    (hFilled : Filled source first now added) (hListed : method ∈ source.methods)
    (hSound : stage.Sound source first now method) :
    (∃ added, Filled source first now' added) ∧ stage'.Sound source first now' method := by
  have hSettings := hFilled.settings_eq
  cases h with
  | hit hGet => exact ⟨⟨added, hFilled⟩, hFilled.due hGet⟩
  | miss hGet => exact ⟨⟨added, hFilled⟩, hFilled.get?_first hGet⟩
  | unknown hUnknown => exact ⟨⟨added, hFilled⟩, .unknown hSound hUnknown⟩
  | fail hFails => exact ⟨⟨added, hFilled⟩, .failed hSound (hSettings ▸ hFails)⟩
  | build hAnalysed =>
    refine ⟨⟨added, ?_⟩, hSound, hSettings ▸ hAnalysed⟩
    exact ⟨hSettings, hFilled.entries_eq, hFilled.nodup, hFilled.listed, hFilled.fresh,
      hFilled.analysed⟩
  | @offer _ graph =>
    obtain ⟨added, hOffered⟩ := hFilled.insertNew hListed hSound.1 hSound.2
    refine ⟨⟨added, hOffered⟩, ?_⟩
    -- The cache holds a graph of the method now, whoever built it.
    obtain ⟨kept, hKept⟩ : ∃ kept, (now.insertNew method graph).get? method = some kept := by
      rw [get?_insertNew, if_pos rfl]
      cases now.get? method with
      | some other => exact ⟨other, rfl⟩
      | none => exact ⟨graph, rfl⟩
    rw [hKept]
    exact hOffered.due hKept
  | rest => exact ⟨⟨added, hFilled⟩, hSound⟩

/-- An upper bound for the steps that a call still needs. -/
def stepsLeft : CallStage → Nat
  | .started => 3
  | .missed => 2
  | .built _ => 1
  | .answered _ => 0

theorem Steps.stepsLeft_le (h : Steps source method stage now stage' now') :
    stage'.stepsLeft ≤ stage.stepsLeft - 1 := by
  cases h <;> simp [stepsLeft]

end CallStage

/-! ## Runs of a batch -/

namespace Batch

open GraphCache

variable {source : MethodSource} {first : GraphCache} {batch : Batch}

/-- The calls are for the methods of the source, and the cache and every call are sound. -/
structure Sound (source : MethodSource) (first : GraphCache) (batch : Batch) : Prop where
  methods_eq : batch.calls.map AnalysisCall.method = source.methods
  filled : ∃ added, Filled source first batch.cache added
  sound : ∀ call ∈ batch.calls, call.stage.Sound source first batch.cache call.method

theorem sound_start (cache : GraphCache) (source : MethodSource) :
    Sound source cache (start cache source) where
  methods_eq := by
    rw [start, List.map_map]
    exact List.map_id source.methods
  filled := ⟨[], .refl source cache⟩
  sound := by simp [start, CallStage.Sound]

theorem advance_eq {number : Nat} {call : AnalysisCall}
    (h : batch.calls[number]? = some call) (source : MethodSource) :
    batch.advance source number =
      ⟨(call.stage.step source call.method batch.cache).2, batch.calls.set number
        { call with stage := (call.stage.step source call.method batch.cache).1 }⟩ := by
  rw [advance, h]

theorem methods_set {calls : List AnalysisCall} {number : Nat} {call : AnalysisCall}
    (h : calls[number]? = some call) (stage : CallStage) :
    (calls.set number { call with stage }).map AnalysisCall.method =
      calls.map AnalysisCall.method := by
  apply List.ext_getElem?
  intro i
  rw [List.map_set, List.getElem?_set]
  by_cases hNumber : number = i
  · have hLt := (List.getElem?_eq_some_iff.mp h).1
    rw [← hNumber, if_pos rfl, if_pos (by simpa using hLt), List.getElem?_map, h]
    rfl
  · rw [if_neg hNumber]

/-- A step of any call keeps a batch sound. -/
theorem Sound.advance (h : Sound source first batch) (number : Nat) :
    Sound source first (batch.advance source number) := by
  cases hCall : batch.calls[number]? with
  | none =>
    rw [Batch.advance, hCall]
    exact h
  | some call =>
    have hMem := List.mem_of_getElem? hCall
    have hListed : call.method ∈ source.methods := by
      rw [← h.methods_eq]
      exact List.mem_map_of_mem hMem
    have hStep := CallStage.steps_step source call.method batch.cache call.stage
    obtain ⟨added, hFilled⟩ := h.filled
    obtain ⟨hFilled', hStage⟩ := hStep.sound hFilled hListed (h.sound call hMem)
    rw [advance_eq hCall]
    refine ⟨?_, hFilled', ?_⟩
    · rw [methods_set hCall, h.methods_eq]
    · -- The other calls stay sound, because the step loses no graph of the cache.
      intro other hOther
      rcases List.mem_or_eq_of_mem_set hOther with hOther | rfl
      · exact (h.sound other hOther).mono fun _ => hStep.get?_eq_some
      · exact hStage

theorem Sound.run (h : Sound source first batch) (schedule : List Nat) :
    Sound source first (batch.run source schedule) := by
  induction schedule generalizing batch with
  | nil => exact h
  | cons number schedule ih => exact ih (h.advance number)

theorem results?_eq_some_iff {results : List (Except Error (Option CachedGraph))} :
    batch.results? = some results ↔
      List.Forall₂ (fun call result => call.stage = .answered result) batch.calls results := by
  obtain ⟨cache, calls⟩ := batch
  unfold results?
  induction calls generalizing results with
  | nil => simp [eq_comm]
  | cons call calls ih =>
    have hCall : ∀ result, call.result? = some result ↔ call.stage = .answered result := by
      intro result
      unfold AnalysisCall.result?
      cases call.stage <;> simp
    simp only [List.mapM_cons, Option.bind_eq_bind, Option.bind_eq_some_iff, Option.pure_def,
      Option.some.injEq, List.forall₂_cons_left_iff, hCall]
    constructor
    · intro h
      obtain ⟨result, hResult, rest, hRest, rfl⟩ := h
      exact ⟨result, rest, hResult, ih.mp hRest, rfl⟩
    · intro h
      obtain ⟨result, rest, hResult, hRest, rfl⟩ := h
      exact ⟨result, hResult, rest, ih.mpr hRest, rfl⟩

/-- What the calls of a sound batch have answered is what their methods are due. -/
theorem Sound.due (h : Sound source first batch)
    {results : List (Except Error (Option CachedGraph))} (hResults : batch.results? = some results) :
    List.Forall₂ (Due source first batch.cache) source.methods results := by
  obtain ⟨now, calls⟩ := batch
  obtain ⟨hMethods, -, hSound⟩ := h
  replace hResults := results?_eq_some_iff.mp hResults
  dsimp only at hMethods hSound hResults
  rw [← hMethods, List.forall₂_map_left_iff]
  clear hMethods
  induction hResults with
  | nil => exact .nil
  | @cons call result calls results hStage _ ih =>
    refine .cons ?_ (ih fun other hOther => hSound other (List.mem_cons_of_mem call hOther))
    have hCall := hSound call List.mem_cons_self
    rw [hStage] at hCall
    exact hCall

/-! ## Ends -/

/-- A call needs fewer steps by as many as it takes, and none more for those that others take. -/
theorem stepsLeft_advance {number : Nat} {call : AnalysisCall}
    (h : batch.calls[number]? = some call) (source : MethodSource) (other : Nat) :
    ∃ call', (batch.advance source other).calls[number]? = some call' ∧
      call'.stage.stepsLeft ≤ call.stage.stepsLeft - if other = number then 1 else 0 := by
  by_cases hNumber : other = number
  · subst hNumber
    have hLt := (List.getElem?_eq_some_iff.mp h).1
    rw [advance_eq h, if_pos rfl]
    refine ⟨_, List.getElem?_set_self hLt, ?_⟩
    exact (CallStage.steps_step source call.method batch.cache call.stage).stepsLeft_le
  · rw [if_neg hNumber]
    refine ⟨call, ?_, Nat.le_refl _⟩
    cases hOther : batch.calls[other]? with
    | none =>
      rw [advance, hOther]
      exact h
    | some otherCall =>
      rw [advance_eq hOther]
      exact (List.getElem?_set_ne hNumber).trans h

theorem stepsLeft_run {number : Nat} {call : AnalysisCall} (h : batch.calls[number]? = some call)
    (source : MethodSource) (schedule : List Nat) :
    ∃ call', (batch.run source schedule).calls[number]? = some call' ∧
      call'.stage.stepsLeft ≤ call.stage.stepsLeft - schedule.count number := by
  induction schedule generalizing batch call with
  | nil => exact ⟨call, h, by simp⟩
  | cons other schedule ih =>
    obtain ⟨middle, hMiddle, hFirst⟩ := stepsLeft_advance h source other
    obtain ⟨call', hCall', hRest⟩ := ih hMiddle
    refine ⟨call', hCall', ?_⟩
    by_cases hNumber : other = number
    · rw [hNumber, List.count_cons_self]
      rw [if_pos hNumber] at hFirst
      omega
    · rw [List.count_cons_of_ne hNumber]
      rw [if_neg hNumber] at hFirst
      omega

theorem exists_results (h : ∀ call ∈ batch.calls, call.stage.stepsLeft = 0) :
    ∃ results, batch.results? = some results := by
  obtain ⟨cache, calls⟩ := batch
  simp only [results?_eq_some_iff] at h ⊢
  induction calls with
  | nil => exact ⟨[], .nil⟩
  | cons call calls ih =>
    obtain ⟨results, hResults⟩ := ih fun other hOther => h other (List.mem_cons_of_mem call hOther)
    have hCall := h call List.mem_cons_self
    cases hStage : call.stage with
    | answered result => exact ⟨result :: results, .cons hStage hResults⟩
    | _ =>
      rw [hStage] at hCall
      cases hCall

/-- Three turns for each call are enough. -/
theorem exists_results_run (cache : GraphCache) (source : MethodSource) {schedule : List Nat}
    (hTurns : ∀ number < source.methods.length, 3 ≤ schedule.count number) :
    ∃ results, ((start cache source).run source schedule).results? = some results := by
  apply exists_results
  intro call hCall
  obtain ⟨number, hNumber⟩ := List.mem_iff_getElem?.mp hCall
  have hMethods := ((sound_start cache source).run schedule).methods_eq
  have hLt : number < source.methods.length := by
    have hBound := (List.getElem?_eq_some_iff.mp hNumber).1
    rw [← hMethods, List.length_map]
    exact hBound
  have hStart : (start cache source).calls[number]? =
      some { method := source.methods[number] } := by
    rw [start, List.getElem?_map, List.getElem?_eq_getElem hLt]
    rfl
  obtain ⟨call', hCall', hLeft⟩ := stepsLeft_run hStart source schedule
  rw [hNumber] at hCall'
  cases hCall'
  have hTurn := hTurns number hLt
  have hThree : CallStage.started.stepsLeft = 3 := rfl
  dsimp only at hLeft
  omega

/-! ## One call after the other -/

/-- The schedule by which `count` calls, from the given number on, take all their steps in turn. -/
def inOrder (number count : Nat) : List Nat :=
  (List.range' number count).flatMap (List.replicate 3)

theorem advance_middle (source : MethodSource) (cache : GraphCache) (done : List AnalysisCall)
    (call : AnalysisCall) (rest : List AnalysisCall) :
    (⟨cache, done ++ call :: rest⟩ : Batch).advance source done.length =
      ⟨(call.stage.step source call.method cache).2, done ++
        { call with stage := (call.stage.step source call.method cache).1 } :: rest⟩ := by
  have hCall : (⟨cache, done ++ call :: rest⟩ : Batch).calls[done.length]? = some call := by simp
  rw [advance_eq hCall]
  simp

/-- A call that takes its steps without a break gives what an analysis of its method gives. -/
theorem run_replicate (source : MethodSource) (cache : GraphCache) (done : List AnalysisCall)
    (method : MethodId) (rest : List AnalysisCall) :
    (⟨cache, done ++ { method } :: rest⟩ : Batch).run source (List.replicate 3 done.length) =
      ⟨(cache.analyze source method).2, done ++
        { method, stage := .answered (cache.analyze source method).1 } :: rest⟩ := by
  change (((⟨cache, done ++ { method } :: rest⟩ : Batch).advance source done.length).advance source
    done.length).advance source done.length = _
  rw [advance_middle, advance_middle, advance_middle]
  unfold GraphCache.analyze
  cases hGet : cache.get? method with
  | some graph => simp [CallStage.step, hGet]
  | none =>
    cases hBody : source.body? method with
    | none => simp [CallStage.step, hGet, hBody]
    | some body =>
      cases hAnalyze : body.analyze cache.settings with
      | error error => simp [CallStage.step, hGet, hBody, hAnalyze]
      | ok flow => simp [CallStage.step, hGet, hBody, hAnalyze]

theorem run_inOrder (source : MethodSource) (cache : GraphCache) (done : List AnalysisCall)
    (methods : List MethodId) :
    ∃ calls, (⟨cache, done ++ methods.map (AnalysisCall.mk · .started)⟩ : Batch).run source
        (inOrder done.length methods.length) =
          ⟨(cache.analyzeEach source methods).2, done ++ calls⟩ ∧
      List.Forall₂ (fun call result => call.stage = .answered result) calls
        (cache.analyzeEach source methods).1 := by
  induction methods generalizing cache done with
  | nil => exact ⟨[], rfl, .nil⟩
  | cons method methods ih =>
    obtain ⟨calls, hRun, hCalls⟩ := ih (cache.analyze source method).2
      (done ++ [{ method, stage := .answered (cache.analyze source method).1 }])
    refine ⟨{ method, stage := .answered (cache.analyze source method).1 } :: calls, ?_,
      .cons rfl hCalls⟩
    have hSplit : inOrder done.length (methods.length + 1) =
        List.replicate 3 done.length ++ inOrder (done.length + 1) methods.length := rfl
    rw [List.length_cons, hSplit, Batch.run, List.foldl_append, List.map_cons]
    change Batch.run source (Batch.run source _ _) _ = _
    rw [run_replicate]
    simpa [analyzeEach] using hRun

/-- The analysis of all methods in turn is a run of the batch. -/
theorem analyzeAll_eq_run (cache : GraphCache) (source : MethodSource) :
    ((start cache source).run source (inOrder 0 source.methods.length)).cache =
        (cache.analyzeAll source).2 ∧
      ((start cache source).run source (inOrder 0 source.methods.length)).results? =
        some (cache.analyzeEach source source.methods).1 := by
  obtain ⟨calls, hRun, hCalls⟩ := run_inOrder source cache [] source.methods
  have hStart : (start cache source).run source (inOrder 0 source.methods.length) =
      ⟨(cache.analyzeEach source source.methods).2, calls⟩ := hRun
  rw [hStart]
  exact ⟨rfl, results?_eq_some_iff.mpr hCalls⟩

end Batch

/-! ## What the results come to -/

namespace GraphCache

variable {source : MethodSource} {first last last' : GraphCache} {method : MethodId}
  {methods : List MethodId} {results : List (Except Error (Option CachedGraph))}
  {added added' : List (MethodId × CachedGraph)}

section Gather

variable {β γ : Type}

theorem gather_error_cons (error : Error) (results : List (Except Error (Option β))) :
    gather (.error error :: results) = .error error := by
  rw [gather, List.mapM_cons]
  rfl

theorem gather_ok_cons (given : Option β) (results : List (Except Error (Option β))) :
    gather (.ok given :: results) = (gather results).map (given.toList ++ ·) := by
  rw [gather, gather, List.mapM_cons]
  cases results.mapM id with
  | error error => rfl
  | ok rest =>
    cases given with
    | none => rfl
    | some graph => rfl

theorem gather_map (f : β → γ) (results : List (Except Error (Option β))) :
    gather (results.map (Except.map (Option.map f))) = (gather results).map (List.map f) := by
  induction results with
  | nil => rfl
  | cons result results ih =>
    cases result with
    | error error =>
      rw [List.map_cons, gather_error_cons]
      exact gather_error_cons _ _
    | ok given =>
      rw [List.map_cons, gather_ok_cons]
      change gather (.ok (given.map f) :: _) = _
      rw [gather_ok_cons, ih]
      cases gather results with
      | error error => rfl
      | ok rest =>
        cases given with
        | none => rfl
        | some graph => rfl

end Gather

/-- The method is not cached, and the analysis of its body fails. -/
def FailsWith (source : MethodSource) (first : GraphCache) (method : MethodId) (error : Error) :
    Prop :=
  first.get? method = none ∧ source.AnalysesTo first.settings method (.error error)

theorem Due.not_failsWith {given : Option CachedGraph}
    (h : Due source first last method (.ok given)) (error : Error) :
    ¬ FailsWith source first method error := by
  intro hFails
  obtain ⟨hNew, hError⟩ := hFails
  cases h with
  | cached hCached =>
    rw [hNew] at hCached
    cases hCached
  | unknown _ hUnknown =>
    obtain ⟨body, hBody, -⟩ := hError
    rw [hUnknown] at hBody
    cases hBody
  | analysed _ hAnalysed _ => cases hAnalysed.unique hError

/-- The first failure is the answer. Without one, the answer is made of the graphs that the cache
holds in the end. -/
theorem Filled.gather_of_due (hFilled : Filled source first last added)
    (h : List.Forall₂ (Due source first last) methods results) :
    (∃ before method after error, methods = before ++ method :: after ∧
      (∀ other ∈ before, ∀ error, ¬ FailsWith source first other error) ∧
      FailsWith source first method error ∧ gather results = .error error) ∨
    (∀ method ∈ methods, ∀ error, ¬ FailsWith source first method error) ∧
      gather results = .ok (methods.filterMap last.get?) := by
  induction h with
  | nil => exact Or.inr ⟨by simp, rfl⟩
  | @cons method result methods results hDue _ ih =>
    cases result with
    | error error =>
      cases hDue with
      | failed hNew hFails =>
        exact Or.inl ⟨[], method, methods, error, rfl, by simp, ⟨hNew, hFails⟩,
          gather_error_cons _ _⟩
    | ok given =>
      have hHead := hDue.not_failsWith
      rcases ih with ⟨before, failing, after, error, rfl, hBefore, hFails, hGather⟩ |
        ⟨hNone, hGather⟩
      · refine Or.inl ⟨method :: before, failing, after, error, rfl, ?_, hFails, ?_⟩
        · exact List.forall_mem_cons.mpr ⟨hHead, hBefore⟩
        · rw [gather_ok_cons, hGather]
          rfl
      · refine Or.inr ⟨List.forall_mem_cons.mpr ⟨hHead, hNone⟩, ?_⟩
        rw [gather_ok_cons, hGather, List.filterMap_cons, hFilled.get?_of_due hDue]
        cases given with
        | none => rfl
        | some graph => rfl

/-- The flow graph that a call for a method is due. -/
def flowDue (cache : GraphCache) (source : MethodSource) (method : MethodId) :
    Except Error (Option FlowGraph) :=
  match cache.get? method, source.body? method with
  | some graph, _ => .ok (some graph.flow)
  | none, none => .ok none
  | none, some body => (body.analyze cache.settings).map some

theorem Due.map_flow {result : Except Error (Option CachedGraph)}
    (h : Due source first last method result) :
    result.map (Option.map CachedGraph.flow) = first.flowDue source method := by
  unfold flowDue
  cases h with
  | cached hCached =>
    rw [hCached]
    rfl
  | unknown hNew hUnknown =>
    rw [hNew, hUnknown]
    rfl
  | failed hNew hFails =>
    obtain ⟨body, hBody, hError⟩ := hFails
    rw [hNew, hBody]
    simp only [hError]
    rfl
  | analysed hNew hAnalysed _ =>
    obtain ⟨body, hBody, hFlow⟩ := hAnalysed
    rw [hNew, hBody]
    simp only [hFlow]
    rfl

/-- The flow graphs of the answer are determined at the start. -/
theorem gather_map_flow (h : List.Forall₂ (Due source first last) methods results) :
    (gather results).map (List.map CachedGraph.flow) =
      gather (methods.map (first.flowDue source)) := by
  rw [← gather_map]
  congr 1
  induction h with
  | nil => rfl
  | cons hDue _ ih => rw [List.map_cons, List.map_cons, ih, hDue.map_flow]

theorem exists_due (h : List.Forall₂ (Due source first last) methods results)
    (hMethod : method ∈ methods) : ∃ result, Due source first last method result := by
  induction h with
  | nil => cases hMethod
  | cons hDue _ ih =>
    rcases List.mem_cons.mp hMethod with rfl | hMethod
    · exact ⟨_, hDue⟩
    · exact ih hMethod

/-- The graphs that were not there at the start are the analyses of the methods of the source. -/
theorem Filled.flow_eq_some_iff (hFilled : Filled source first last added)
    (h : List.Forall₂ (Due source first last) source.methods results)
    (hNew : first.get? method = none) (flow : FlowGraph) :
    (last.get? method).map CachedGraph.flow = some flow ↔
      method ∈ source.methods ∧ source.AnalysesTo first.settings method (.ok flow) := by
  constructor
  · intro hFlow
    obtain ⟨graph, hGet, rfl⟩ := Option.map_eq_some_iff.mp hFlow
    have hEntry := hFilled.mem_added hNew hGet
    exact ⟨hFilled.listed _ hEntry, hFilled.analysed _ hEntry⟩
  · intro hMethod
    obtain ⟨hListed, hAnalysed⟩ := hMethod
    obtain ⟨result, hDue⟩ := exists_due h hListed
    cases hDue with
    | cached hCached =>
      rw [hNew] at hCached
      cases hCached
    | unknown _ hUnknown =>
      obtain ⟨body, hBody, -⟩ := hAnalysed
      rw [hUnknown] at hBody
      cases hBody
    | failed _ hFails => cases hFails.unique hAnalysed
    | analysed _ hOther hKept =>
      cases hOther.unique hAnalysed
      rw [hKept, Option.map_some]

theorem Filled.mem_keys_iff (hFilled : Filled source first last added)
    (h : List.Forall₂ (Due source first last) source.methods results) (method : MethodId) :
    method ∈ added.map Prod.fst ↔ method ∈ source.methods ∧ first.get? method = none ∧
      ∃ flow, source.AnalysesTo first.settings method (.ok flow) := by
  constructor
  · intro hMem
    obtain ⟨entry, hEntry, rfl⟩ := List.mem_map.mp hMem
    exact ⟨hFilled.listed _ hEntry, hFilled.fresh _ hEntry, _, hFilled.analysed _ hEntry⟩
  · intro hMethod
    obtain ⟨hListed, hNew, flow, hAnalysed⟩ := hMethod
    have hFlow := (hFilled.flow_eq_some_iff h hNew flow).mpr ⟨hListed, hAnalysed⟩
    obtain ⟨graph, hGet, -⟩ := Option.map_eq_some_iff.mp hFlow
    exact List.mem_map_of_mem (hFilled.mem_added hNew hGet)

/-- Two batches on the same cache leave the same flow graphs in it. -/
theorem Filled.map_flow_eq {results' : List (Except Error (Option CachedGraph))}
    (hFilled : Filled source first last added) (hFilled' : Filled source first last' added')
    (h : List.Forall₂ (Due source first last) source.methods results)
    (h' : List.Forall₂ (Due source first last') source.methods results') (method : MethodId) :
    (last.get? method).map CachedGraph.flow = (last'.get? method).map CachedGraph.flow := by
  cases hFirst : first.get? method with
  | some graph =>
    rw [hFilled.get?_eq, hFilled'.get?_eq, hFirst, Option.some_or, Option.some_or]
  | none =>
    apply Option.ext
    intro flow
    rw [hFilled.flow_eq_some_iff h hFirst, hFilled'.flow_eq_some_iff h' hFirst]

/-- However the steps of the calls are interleaved, a batch in which every call has answered comes to
the same. The result of each call is what its method is due, and one that does not fail is what the
cache holds in the end. The answer is the first failure in the order of the methods, or else the
graphs in that order. The cache has all it had and the successful analyses, one graph for each
method. The flow graphs are those of the calls in turn, which are one of the schedules. Every
schedule with three turns for each call brings it to its end. -/
theorem batch_independent_of_schedule (cache : GraphCache) (source : MethodSource) :
    (∀ schedule, (∀ number < source.methods.length, 3 ≤ schedule.count number) →
      ∃ results, ((Batch.start cache source).run source schedule).results? = some results) ∧
    (∃ schedule,
      ((Batch.start cache source).run source schedule).cache = (cache.analyzeAll source).2 ∧
      ((Batch.start cache source).run source schedule).answer? =
        some (cache.analyzeAll source).1) ∧
    ∀ schedule batch results, (Batch.start cache source).run source schedule = batch →
      batch.results? = some results →
      List.Forall₂ (fun method result => Due source cache batch.cache method result ∧
        ∀ given, result = .ok given → batch.cache.get? method = given) source.methods results ∧
      ((∃ before method after error, source.methods = before ++ method :: after ∧
          (∀ other ∈ before, ∀ error, ¬ FailsWith source cache other error) ∧
          FailsWith source cache method error ∧ batch.answer? = some (.error error)) ∨
        (∀ method ∈ source.methods, ∀ error, ¬ FailsWith source cache method error) ∧
          batch.answer? = some (.ok (source.methods.filterMap batch.cache.get?))) ∧
      (∃ added, Filled source cache batch.cache added ∧
        ∀ method, method ∈ added.map Prod.fst ↔ method ∈ source.methods ∧
          cache.get? method = none ∧
          ∃ flow, source.AnalysesTo cache.settings method (.ok flow)) ∧
      batch.answer?.map (Except.map (List.map CachedGraph.flow)) =
        some ((cache.analyzeAll source).1.map (List.map CachedGraph.flow)) ∧
      ∀ method, (batch.cache.get? method).map CachedGraph.flow =
        ((cache.analyzeAll source).2.get? method).map CachedGraph.flow := by
  obtain ⟨hCache, hResults⟩ := Batch.analyzeAll_eq_run cache source
  have hTurn := (Batch.sound_start cache source).run (Batch.inOrder 0 source.methods.length)
  have hTurnDue := hTurn.due hResults
  obtain ⟨turnAdded, hTurnFilled⟩ := hTurn.filled
  rw [hCache] at hTurnDue hTurnFilled
  refine ⟨fun schedule => Batch.exists_results_run cache source, ⟨_, hCache, ?_⟩, ?_⟩
  · rw [Batch.answer?, hResults]
    rfl
  · intro schedule batch results hBatch hResults
    have hSound : Batch.Sound source cache batch :=
      hBatch ▸ (Batch.sound_start cache source).run schedule
    have hDue := hSound.due hResults
    obtain ⟨added, hFilled⟩ := hSound.filled
    have hAnswer : batch.answer? = some (gather results) := by
      rw [Batch.answer?, hResults]
      rfl
    simp only [hAnswer, Option.some.injEq, Option.map_some]
    refine ⟨?_, hFilled.gather_of_due hDue, ⟨added, hFilled, hFilled.mem_keys_iff hDue⟩, ?_,
      hFilled.map_flow_eq hTurnFilled hDue hTurnDue⟩
    · refine hDue.imp fun method result hMethod => ⟨hMethod, ?_⟩
      intro given hGiven
      exact hFilled.get?_of_due (hGiven ▸ hMethod)
    · rw [gather_map_flow hDue]
      exact (gather_map_flow hTurnDue).symm

/-- A source that lists a method twice, one whose body cannot be analysed, and one that it does not
know. -/
def rivals : MethodSource :=
  let run : MethodId := ⟨"Rivals", "run", "()V"⟩
  let stray : MethodId := ⟨"Rivals", "stray", "()V"⟩
  let bodies : List MethodBody :=
    [⟨run, [⟨run, 0, "0", .leave none, none⟩], [], []⟩,
      ⟨stray, [⟨stray, 0, "0", .goto 7, none⟩], [], []⟩]
  { MethodSource.ofList bodies with methods := [run, stray, run, ⟨"Rivals", "lost", "()V"⟩] }

/-- Both calls for the first method miss it and build its graph, and the later graph is the one that
is offered first. In turn only one graph is built. -/
theorem batch_independent_of_schedule_rivals :
    ∃ batch results, (Batch.start {} rivals).run rivals [0, 2, 0, 2, 2, 1, 0, 1, 3, 3] = batch ∧
      batch.results? = some results ∧
      batch.cache.entries.map (fun entry => (entry.1, entry.2.stamp)) =
        [(⟨"Rivals", "run", "()V"⟩, 1)] ∧
      (GraphCache.analyzeAll {} rivals).2.entries.map (fun entry => (entry.1, entry.2.stamp)) =
        [(⟨"Rivals", "run", "()V"⟩, 0)] ∧
      batch.answer?.map (Except.map (List.map CachedGraph.flow)) =
        some ((GraphCache.analyzeAll {} rivals).1.map (List.map CachedGraph.flow)) ∧
      ∀ method, (batch.cache.get? method).map CachedGraph.flow =
        ((GraphCache.analyzeAll {} rivals).2.get? method).map CachedGraph.flow := by
  have hEnds : ((Batch.start {} rivals).run rivals
      [0, 2, 0, 2, 2, 1, 0, 1, 3, 3]).results?.isSome = true := by
    decide +kernel
  obtain ⟨results, hResults⟩ := Option.isSome_iff_exists.mp hEnds
  obtain ⟨-, -, -, hAnswer, hCache⟩ :=
    (batch_independent_of_schedule {} rivals).2.2 _ _ _ rfl hResults
  exact ⟨_, results, rfl, hResults, by decide +kernel, by decide +kernel, hAnswer, hCache⟩

end GraphCache

end BytecodeFlow
