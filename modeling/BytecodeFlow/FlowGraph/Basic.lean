import BytecodeFlow.Digraph.Traversal
import BytecodeFlow.FlowGraph.EdgeKind
import BytecodeFlow.Settings

/-!
# Flow graphs

The flow graph of a method has its instructions as nodes, between a node for the method entry and
one for the method exit: the entry is node zero, the instruction at order `k` is node `k + 1`, and
the exit is the last node. Its edges follow the orders at which control may continue, and an
instruction that control does not continue behind has an edge to the exit.

`FlowGraph.build` accepts a stream whose instructions belong to the method and stand at their
orders, whose handlers lie inside it, which control does not leave but at the exit, and whose
unreachable part is one that the settings tolerate.
-/

namespace BytecodeFlow

instance : NodeContent Instruction where
  describe := Instruction.siteText
  order := Instruction.order

/-- The flow graph of a method. -/
structure FlowGraph where
  method : MethodId
  graph : Digraph Instruction
  handlers : List HandlerRange
  exit : Nat

/-- The node of an instruction in a graph with the numbering of a flow graph. The position of the
instruction is counted as orders are, so that the last order shares its position with the one before
it, and an instruction of the last order is found nowhere. -/
def Digraph.locate (g : Digraph Instruction) (instruction : Instruction) : Except Error Nat :=
  let position : Int :=
    if instruction.isMethodExit then g.size - 1 else nextOrder instruction.order
  let found (node : Nat) : Bool :=
    match g.node? node with
    | some content => content == instruction
    | none => false
  if 0 ≤ position ∧ found position.toNat then .ok position.toNat
  else .error (.invalidArgument (.unlocated instruction.text instruction.method.text))

namespace FlowGraph

/-- The first instruction of a stream that does not fit: it belongs to another method, or it does
not stand at its order. The instructions before it stand at theirs, so that an order below the
position is already taken. -/
def checkStream (method : MethodId) : Nat → List Instruction → Except Error Unit
  | _, [] => .ok ()
  | position, instruction :: instructions =>
    if instruction.method ≠ method then
      .error (.precondition
        (.foreignInstruction instruction.text instruction.method.text method.text))
    else if 0 ≤ instruction.order ∧ instruction.order < position then
      .error (.orderCollision instruction.order)
    else if instruction.order ≠ position then
      .error (.precondition (.misplacedInstruction position method.text instruction.order))
    else
      checkStream method (position + 1) instructions

/-- Whether a handler range lies in a stream of `count` instructions. -/
def rangeInside (count : Nat) (range : HandlerRange) : Bool :=
  0 ≤ range.start && range.start ≤ count && 0 ≤ range.stop && range.stop ≤ count &&
    0 ≤ range.handler && range.handler < count

/-- The first handler range that does not lie in a stream of `count` instructions. -/
def checkHandlers (method : MethodId) (count : Nat) (handlers : List HandlerRange) :
    Except Error Unit :=
  match handlers.find? fun range => !rangeInside count range with
  | some range => .error (.precondition (.handlerOutside range.text method.text count))
  | none => .ok ()

/-- The node of an order in the graph of `count` instructions. -/
def nodeOfOrder? (count : Nat) (order : Int) : Option Nat :=
  if order = methodExitOrder then some (count + 1)
  else if 0 ≤ order ∧ order < count then some (order.toNat + 1)
  else none

/-- Adds the edge from `source` to the node of an order. -/
def addFlow (settings : Settings) (handlers : List HandlerRange) (count : Nat) (source : Nat)
    (instruction : Instruction) (draft : Draft Instruction) (order : Int) :
    Except Error (Draft Instruction) :=
  match nodeOfOrder? count order with
  | none =>
    .error (.invariant (.leavesMethod instruction.text instruction.method.text order))
  | some target =>
    let label := (EdgeKind.classify instruction order handlers).label?
    draft.addEdgeLabelled source target (if settings.labelBranches then label else none)

/-- Adds the edges that leave an instruction. -/
def addFlows (settings : Settings) (handlers : List HandlerRange) (count : Nat)
    (draft : Draft Instruction) (source : Nat × Instruction) :
    Except Error (Draft Instruction) := do
  let orders ← source.2.successorsIn handlers
  if orders.isEmpty || (count == 0 && source.1 == 0) then
    draft.addEdgeLabelled source.1 (count + 1) none
  else
    orders.foldlM (addFlow settings handlers count source.1 source.2) draft

/-- The graph of a stream, before its reachability is checked. -/
def connect (method : MethodId) (instructions : List Instruction) (handlers : List HandlerRange)
    (settings : Settings) : Except Error (Digraph Instruction) := do
  let entry := Instruction.methodEntry method
  let nodes := entry :: instructions ++ [Instruction.methodExit method]
  let sources := (List.range (instructions.length + 1)).zip (entry :: instructions)
  let draft ← sources.foldlM (addFlows settings handlers instructions.length) (Draft.ofNodes nodes)
  return draft.freeze

/-- The text of a node in messages. -/
def nodeText (graph : Digraph Instruction) (node : Nat) : String :=
  match graph.node? node with
  | some instruction => instruction.text
  | none => s!"n{node}"

/-- The first unreachable instruction that the settings do not tolerate. A method that never ends
leaves its exit unreachable, which is always tolerated. -/
def checkReachability (method : MethodId) (graph : Digraph Instruction) (exit : Nat)
    (handlers : List HandlerRange) (settings : Settings) : Except Error Unit :=
  let live := graph.reachableFrom [0]
  let dead := graph.nodeIds.filter fun node => node != exit && !live.contains node
  match settings.unreachable with
  | .allow => .ok ()
  | .reject =>
    match dead with
    | [] => .ok ()
    | node :: _ => .error (.invariant (.unreachable (nodeText graph node) method.text))
  | .allowHandlerCode =>
    let handled := graph.reachableFrom (handlers.map fun range => (range.handler + 1).toNat)
    match dead.find? fun node => !handled.contains node with
    | none => .ok ()
    | some node => .error (.invariant (.unreachableFromHandlers (nodeText graph node) method.text))

/-- The flow graph of a method. -/
def build (method : MethodId) (instructions : List Instruction) (handlers : List HandlerRange)
    (settings : Settings) : Except Error FlowGraph := do
  checkStream method 0 instructions
  checkHandlers method instructions.length handlers
  let graph ← connect method instructions handlers settings
  let exit := instructions.length + 1
  checkReachability method graph exit handlers settings
  return { method, graph, handlers, exit }

/-- The flow graph of the method that the first instruction belongs to. -/
def ofStream (instructions : List Instruction) (handlers : List HandlerRange)
    (settings : Settings) : Except Error FlowGraph :=
  match instructions with
  | [] => .error (.precondition .emptyStream)
  | first :: _ => build first.method instructions handlers settings

/-- The node of the method entry. -/
def entry (_ : FlowGraph) : Nat := 0

/-- The number of nodes, with those of the entry and the exit. -/
def size (flow : FlowGraph) : Nat :=
  flow.graph.size

end FlowGraph

end BytecodeFlow
