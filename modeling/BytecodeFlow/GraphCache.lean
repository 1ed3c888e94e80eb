import BytecodeFlow.MethodSource

/-!
# Caching flow graphs

A cache keeps the flow graphs that were built, by method. A graph is built when it is first asked
for, and once it is cached it is handed out again. Failures are not kept.
-/

namespace BytecodeFlow

/-- A flow graph with the stamp of its building; graphs from different buildings differ in it. -/
structure CachedGraph where
  stamp : Nat
  flow : FlowGraph

/-- A cache of flow graphs. -/
structure GraphCache where
  settings : Settings := {}
  entries : List (MethodId × CachedGraph) := []
  /-- the number of graphs built so far -/
  built : Nat := 0

namespace GraphCache

/-- The cached graph of a method. -/
def get? (cache : GraphCache) (method : MethodId) : Option CachedGraph :=
  cache.entries.lookup method

/-- The number of cached graphs. -/
def size (cache : GraphCache) : Nat :=
  cache.entries.length

/-- Whether nothing is cached. -/
def isEmpty (cache : GraphCache) : Bool :=
  cache.entries.isEmpty

/-- A flow graph that was built, with the next stamp. -/
def stamp (cache : GraphCache) (flow : FlowGraph) : CachedGraph × GraphCache :=
  (⟨cache.built, flow⟩, { cache with built := cache.built + 1 })

/-- Adds the graph of a method, unless the method has one. -/
def insertNew (cache : GraphCache) (method : MethodId) (graph : CachedGraph) : GraphCache :=
  match cache.get? method with
  | some _ => cache
  | none => { cache with entries := cache.entries ++ [(method, graph)] }

/-- The graph of a method, which is built if it is not cached, and the cache after that. A method
that the source does not know has none. -/
def analyze (cache : GraphCache) (source : MethodSource) (method : MethodId) :
    Except Error (Option CachedGraph) × GraphCache :=
  match cache.get? method, source.body? method with
  | some graph, _ => (.ok (some graph), cache)
  | none, none => (.ok none, cache)
  | none, some body =>
    match body.analyze cache.settings with
    | .error error => (.error error, cache)
    | .ok flow =>
      let (graph, cache) := cache.stamp flow
      let cache := cache.insertNew method graph
      (.ok (cache.get? method), cache)

/-- The results for a list of methods, in its order, and the cache after them. -/
def analyzeEach (cache : GraphCache) (source : MethodSource) :
    List MethodId → List (Except Error (Option CachedGraph)) × GraphCache
  | [] => ([], cache)
  | method :: methods =>
    let (result, cache) := cache.analyze source method
    let (results, cache) := cache.analyzeEach source methods
    (result :: results, cache)

/-- The graphs among the results for a list of methods, or the first failure. -/
def gather {β : Type} (results : List (Except Error (Option β))) : Except Error (List β) :=
  (results.mapM id).map (·.filterMap id)

/-- The graphs of all methods of a source, in its order, or the first failure. A failure does not
keep the other methods from being analysed. -/
def analyzeAll (cache : GraphCache) (source : MethodSource) :
    Except Error (List CachedGraph) × GraphCache :=
  let (results, cache) := cache.analyzeEach source source.methods
  (gather results, cache)

/-- Removes the graph of a method, which is returned. -/
def invalidate (cache : GraphCache) (method : MethodId) : Option CachedGraph × GraphCache :=
  (cache.get? method, { cache with entries := cache.entries.filter (·.1 != method) })

/-- Removes all graphs. -/
def clear (cache : GraphCache) : GraphCache :=
  { cache with entries := [] }

end GraphCache

end BytecodeFlow
