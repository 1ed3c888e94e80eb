import BytecodeFlow.StackFrames.Search

/-!
# Stack frames

The layout of the operand stack before every instruction that the method entry reaches, and the
layouts that it hands to its successors.
-/

namespace BytecodeFlow

/-- The layouts before and after the instructions of a flow graph. -/
structure StackFrames where
  graph : Digraph Instruction
  /-- the layout before each node -/
  inputs : Array (Option FrameLayout)
  /-- the layouts that each node hands to its successors -/
  outputs : Array (List (Nat × FrameLayout))
  /-- the number of visits that the iteration took -/
  visits : Nat

/-- The stack frames of a flow graph. The declared types of the variables refine references. -/
def FlowGraph.stackFrames (flow : FlowGraph) (locals : VariableTable) :
    Except Error StackFrames := do
  let problem ← FrameProblem.ofFlow flow locals
  let search ← problem.solve
  let outputs ← flow.graph.nodeIds.mapM (problem.outputsOf search.inputs)
  return { graph := flow.graph, inputs := search.inputs, outputs := outputs.toArray,
           visits := search.visits }

namespace StackFrames

/-- The layout before a node. -/
def inputAt (frames : StackFrames) (node : Nat) : Option FrameLayout :=
  frames.inputs[node]?.getD none

/-- The layouts that a node hands to its successors. -/
def outputsAt (frames : StackFrames) (node : Nat) : List (Nat × FrameLayout) :=
  frames.outputs[node]?.getD []

/-- The layout that an instruction hands to a successor. -/
def output? (frames : StackFrames) (instruction successor : Instruction) :
    Except Error (Option FrameLayout) := do
  let node ← frames.graph.locate instruction
  let target ← frames.graph.locate successor
  return ((frames.outputsAt node).find? (·.1 == target)).map Prod.snd

/-- The successors of an instruction with the layouts that they are handed. -/
def outputsOf (frames : StackFrames) (instruction : Instruction) :
    Except Error (List (Instruction × FrameLayout)) := do
  let node ← frames.graph.locate instruction
  return (frames.outputsAt node).filterMap fun (target, layout) =>
    (frames.graph.node? target).map (·, layout)

end StackFrames

end BytecodeFlow
