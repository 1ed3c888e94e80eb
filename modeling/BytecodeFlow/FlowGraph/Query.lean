import BytecodeFlow.Digraph.Route
import BytecodeFlow.Digraph.SimplePath
import BytecodeFlow.FlowGraph.Basic
import BytecodeFlow.Text.Quoted
import BytecodeFlow.TypeStack

/-!
# Questions to flow graphs

Instructions and their neighbours, the kinds of edges and the paths between instructions, the
augmented graph that dominance is computed over, and the operand stack along a path.
-/

namespace BytecodeFlow.FlowGraph

/-- The instruction at an order; the reserved orders are those of the entry and the exit. No order
is behind the last one, so that nothing is found there. -/
def instruction? (flow : FlowGraph) (order : Int) : Option Instruction :=
  if order = methodExitOrder then flow.graph.node? flow.exit
  else match nextOrder? order with
    | none => none
    | some position =>
      if 0 ≤ position ∧ position < flow.exit then flow.graph.node? position.toNat else none

/-- The node of an instruction. -/
def nodeOf (flow : FlowGraph) (instruction : Instruction) : Except Error Nat :=
  flow.graph.locate instruction

/-- The instructions at which control may continue behind an instruction. -/
def successorsOf (flow : FlowGraph) (instruction : Instruction) : Except Error (List Instruction) :=
  (flow.nodeOf instruction).map fun node => flow.graph.contentsOf (flow.graph.successors node)

/-- The instructions behind which control may continue at an instruction. -/
def predecessorsOf (flow : FlowGraph) (instruction : Instruction) :
    Except Error (List Instruction) :=
  (flow.nodeOf instruction).map fun node => flow.graph.contentsOf (flow.graph.predecessors node)

/-- The kind of the edge between two nodes. -/
def kindBetween (flow : FlowGraph) (source target : Nat) : EdgeKind :=
  match flow.graph.node? source, flow.graph.node? target with
  | some first, some second => EdgeKind.classify first second.order flow.handlers
  | _, _ => .unconditional

/-- The kind of the edge between two instructions, if there is one. -/
def edgeKind? (flow : FlowGraph) (source target : Instruction) :
    Except Error (Option EdgeKind) := do
  let s ← flow.nodeOf source
  let t ← flow.nodeOf target
  return if flow.graph.hasEdge s t then some (EdgeKind.classify source target.order flow.handlers)
    else none

/-- The paths between two instructions that visit no instruction twice. Those from the entry or to
the exit are not listed, since they cover the whole method. -/
def acyclicPaths (flow : FlowGraph) (source target : Instruction) :
    Except Error (List (List Instruction)) := do
  let s ← flow.nodeOf source
  let t ← flow.nodeOf target
  if s = flow.entry ∨ t = flow.exit then
    return []
  return (flow.graph.simplePaths s t).map flow.graph.contentsOf

/-- The graph with an edge from the entry to the exit, over which dominance is computed. -/
def augmented (flow : FlowGraph) : Except Error (Digraph Instruction) := do
  if flow.graph.hasEdge flow.entry flow.exit then
    return flow.graph
  let draft ← flow.graph.thaw.addEdgeLabelled flow.entry flow.exit none
  return draft.freeze

/-- The effect of the instruction at `source` on the stack, on the way to `target`. -/
def effectBetween (flow : FlowGraph) (locals : VariableTable) (source target : Nat) :
    Except Error StackEffect :=
  match flow.graph.node? source with
  | some instruction => instruction.effect locals (flow.kindBetween source target).isExceptional
  | none => .ok (.clear none)

/-- The stack after the effects of the edges of a path. -/
def simulate (flow : FlowGraph) (locals : VariableTable) (steps : List (Nat × Nat)) :
    Except Error TypeStack :=
  steps.foldlM (fun stack (source, target) => do
    let effect ← flow.effectBetween locals source target
    (TypeStack.apply stack effect).mapError StackFault.error) []

/-- The text that sums up a flow graph. -/
def summary (flow : FlowGraph) : String :=
  "ControlFlowGraph \x7b method: " ++ Text.quote flow.method.text ++
    s!", nodes: {flow.graph.size}, edges: {flow.graph.edges.size}, handlers: {flow.handlers.length}, .. \x7d"

end BytecodeFlow.FlowGraph
