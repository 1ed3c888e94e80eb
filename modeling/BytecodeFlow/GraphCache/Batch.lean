import BytecodeFlow.GraphCache

/-!
# Batches of calls

A source may be analysed by several workers at once. Each method of the source is then the business
of one call, which looks the method up, builds its graph if there is none, and offers the graph to
the cache. Every such step works on the cache without interruption, but between the steps of one
call others may take theirs.

A batch is the cache with the calls on it. A schedule says, by the numbers of the calls, who takes
the next step, and any list of numbers is a schedule.
-/

namespace BytecodeFlow

/-- How far a call for the graph of a method has come. -/
inductive CallStage where
  | started
  /-- the method was not cached when it was looked up -/
  | missed
  /-- the graph is built, but not yet offered to the cache -/
  | built (graph : CachedGraph)
  | answered (result : Except Error (Option CachedGraph))

/-- The next step of a call for the graph of a method. -/
def CallStage.step (source : MethodSource) (method : MethodId) (cache : GraphCache) :
    CallStage → CallStage × GraphCache
  | .started =>
    match cache.get? method with
    | some graph => (.answered (.ok (some graph)), cache)
    | none => (.missed, cache)
  | .missed =>
    match source.body? method with
    | none => (.answered (.ok none), cache)
    | some body =>
      match body.analyze cache.settings with
      | .error error => (.answered (.error error), cache)
      | .ok flow =>
        let (graph, cache) := cache.stamp flow
        (.built graph, cache)
  | .built graph =>
    let cache := cache.insertNew method graph
    (.answered (.ok (cache.get? method)), cache)
  | .answered result => (.answered result, cache)

/-- A call for the graph of a method. -/
structure AnalysisCall where
  method : MethodId
  stage : CallStage := .started

/-- The result of a call that has answered. -/
def AnalysisCall.result? (call : AnalysisCall) : Option (Except Error (Option CachedGraph)) :=
  match call.stage with
  | .answered result => some result
  | _ => none

/-- A cache and the calls that work on it. -/
structure Batch where
  cache : GraphCache
  calls : List AnalysisCall

namespace Batch

/-- One call for each method of a source, in its order. -/
def start (cache : GraphCache) (source : MethodSource) : Batch :=
  ⟨cache, source.methods.map fun method => { method }⟩

/-- The batch after the next step of the call with the given number. -/
def advance (source : MethodSource) (batch : Batch) (number : Nat) : Batch :=
  match batch.calls[number]? with
  | none => batch
  | some call =>
    let (stage, cache) := call.stage.step source call.method batch.cache
    ⟨cache, batch.calls.set number { call with stage }⟩

/-- The batch after the steps of a schedule. -/
def run (source : MethodSource) (batch : Batch) (schedule : List Nat) : Batch :=
  schedule.foldl (advance source) batch

/-- The results of all calls, in their order, once the last of them has answered. -/
def results? (batch : Batch) : Option (List (Except Error (Option CachedGraph))) :=
  batch.calls.mapM AnalysisCall.result?

/-- What the batch comes to once all calls have answered. -/
def answer? (batch : Batch) : Option (Except Error (List CachedGraph)) :=
  batch.results?.map GraphCache.gather

end Batch

end BytecodeFlow
