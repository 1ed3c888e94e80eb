import BytecodeFlow.Digraph.Basic
import BytecodeFlow.Loop

/-!
# Shortest routes

The cheapest route between two nodes by the sum of its edge weights. The search keeps the least
known cost of each node that it has met, and the node before it on a route of that cost. Its agenda
holds costs with their nodes. The least cost is taken first, and of equal costs that of the least
node.

A node is settled when it is taken for the first time. A cheaper route puts its node on the agenda
once more and leaves the older entry there; when the turn of that entry comes, its node is settled
and the entry is dropped. Every entry but the first stands for an edge, which bounds the number of
steps. The route is read off backwards, from the target to the source.
-/

namespace BytecodeFlow

/-- A route through a graph: its nodes from first to last, and the sum of its weights. -/
structure Route where
  nodes : List Nat
  cost : Nat
deriving DecidableEq, Repr

/-- The pairs of nodes that the route runs through. -/
def Route.steps (route : Route) : List (Nat × Nat) :=
  route.nodes.zip route.nodes.tail

/-- A node that can be reached at a cost. -/
structure RouteEntry where
  cost : Nat
  node : Nat
deriving DecidableEq, Repr

namespace RouteEntry

/-- Whether `left` is taken before `right`. -/
def precedes (left right : RouteEntry) : Bool :=
  left.cost < right.cost || (left.cost == right.cost && left.node < right.node)

/-- The entry that is taken next, and the others. -/
def takeNext : List RouteEntry → Option (RouteEntry × List RouteEntry)
  | [] => none
  | entry :: entries =>
    match takeNext entries with
    | none => some (entry, [])
    | some (best, others) =>
      if best.precedes entry then some (best, entry :: others) else some (entry, best :: others)

end RouteEntry

/-- What is known in the course of a search. -/
structure RouteSearch where
  /-- the least known cost of each node -/
  costs : Array (Option Nat)
  /-- the node before each node on a route of that cost -/
  previous : Array (Option Nat)
  settled : Array Bool
  agenda : List RouteEntry
deriving DecidableEq, Repr

namespace RouteSearch

/-- The search at the start, among `size` nodes. -/
def start (size source : Nat) : RouteSearch where
  costs := (Array.replicate size none).setIfInBounds source (some 0)
  previous := Array.replicate size none
  settled := Array.replicate size false
  agenda := [⟨0, source⟩]

/-- The least known cost of a node. -/
def cost? (search : RouteSearch) (node : Nat) : Option Nat :=
  search.costs[node]?.getD none

/-- The node before a node on the cheapest known route. -/
def previous? (search : RouteSearch) (node : Nat) : Option Nat :=
  search.previous[node]?.getD none

/-- Whether a node is settled. -/
def isSettled (search : RouteSearch) (node : Nat) : Bool :=
  search.settled[node]?.getD false

/-- The search with a node settled. -/
def settle (search : RouteSearch) (node : Nat) : RouteSearch :=
  { search with settled := search.settled.setIfInBounds node true }

/-- The search after an edge from the node of an entry is followed. The cost of its target changes
if it gets less. -/
def follow (entry : RouteEntry) (search : RouteSearch) (edge : Edge) : RouteSearch :=
  let cost := entry.cost + edge.weight
  if (search.cost? edge.target).all (cost < ·) then
    { search with
      costs := search.costs.setIfInBounds edge.target (some cost)
      previous := search.previous.setIfInBounds edge.target (some entry.node)
      agenda := ⟨cost, edge.target⟩ :: search.agenda }
  else search

/-- Takes the next entry from the agenda. If its node is not settled, it is settled now, and unless
it is the target, the edges behind it are followed. There is no step left once the target is settled
or the agenda is empty. -/
def step {α : Type} (g : Digraph α) (target : Nat) (search : RouteSearch) : Option RouteSearch :=
  if search.isSettled target then none
  else
    match RouteEntry.takeNext search.agenda with
    | none => none
    | some (entry, others) =>
      let left := { search with agenda := others }
      if search.isSettled entry.node then some left
      else if entry.node = target then some (left.settle entry.node)
      else some ((g.edgesFrom entry.node).foldl (follow entry) (left.settle entry.node))

/-- The nodes of the cheapest known route to `node`, from there back to `source`. -/
def trace (search : RouteSearch) (source : Nat) : Nat → Nat → Option (List Nat)
  | 0, _ => none
  | fuel + 1, node =>
    if node = source then some [node]
    else
      match search.previous? node with
      | none => none
      | some before => (search.trace source fuel before).map (node :: ·)

/-- The cheapest known route from `source` to `target`. -/
def route? (search : RouteSearch) (source target : Nat) : Option Route :=
  match search.cost? target, search.trace source search.costs.size target with
  | some cost, some nodes => some ⟨nodes.reverse, cost⟩
  | _, _ => none

end RouteSearch

namespace Digraph

variable {α : Type}

/-- The search from `source` at its end, with the target settled or no entry left. -/
def routeSearch (g : Digraph α) (source target : Nat) : RouteSearch :=
  runSteps (RouteSearch.step g target) (g.edges.size + 1) (.start g.size source)

/-- The cheapest route from `source` to `target`. -/
def shortestRoute? (g : Digraph α) (source target : Nat) : Option Route :=
  if source < g.size ∧ target < g.size then (g.routeSearch source target).route? source target
  else none

end Digraph

end BytecodeFlow
