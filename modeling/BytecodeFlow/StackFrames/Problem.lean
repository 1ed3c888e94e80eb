import BytecodeFlow.FlowGraph.Query
import BytecodeFlow.FrameLayout

/-!
# What stack frames have to satisfy

The nodes of a flow graph that have a stack layout, and the effects of the edges between them. The
method exit has no layout, since a return may leave values behind.
-/

namespace BytecodeFlow

/-- An edge of a node with its effect on the stack. -/
structure EffectEdge where
  target : Nat
  effect : StackEffect
deriving DecidableEq, Repr

/-- The part of a flow graph that has layouts: the nodes that the method entry reaches, the exit
excepted, with the effects of the edges that leave them. -/
structure FrameProblem where
  graph : Digraph Instruction
  entry : Nat
  live : Array Bool
  effects : Array (List EffectEdge)

namespace FrameProblem

/-- Whether a node has a layout. -/
def isLive (problem : FrameProblem) (node : Nat) : Bool :=
  problem.live[node]?.getD false

/-- The edges that leave a node, with their effects. -/
def effectsOf (problem : FrameProblem) (node : Nat) : List EffectEdge :=
  problem.effects[node]?.getD []

/-- The effect of the edge from `source` to `target`. -/
def effect? (problem : FrameProblem) (source target : Nat) : Option StackEffect :=
  ((problem.effectsOf source).find? (·.target == target)).map EffectEdge.effect

/-- The problem of a flow graph. -/
def ofFlow (flow : FlowGraph) (locals : VariableTable) : Except Error FrameProblem := do
  let reached := flow.graph.reachable [flow.entry]
  let live := Array.ofFn fun node : Fin flow.graph.size =>
    node.val != flow.exit && reached[node.val]?.getD false
  let effects ← flow.graph.nodeIds.mapM fun node =>
    if live[node]?.getD false then
      (flow.graph.successors node).mapM fun target =>
        (EffectEdge.mk target) <$> flow.effectBetween locals node target
    else pure []
  return { graph := flow.graph, entry := flow.entry, live, effects := effects.toArray }

/-- The least layout that the effects of a node can be applied to. -/
def minimalInput (problem : FrameProblem) (node : Nat) : Except Error FrameLayout :=
  (problem.effectsOf node).foldlM
    (fun layout edge => layout.merge (FrameLayout.minimalBefore edge.effect))
    (FrameLayout.atLeast [])

/-- The layouts at the start. -/
def initialInputs (problem : FrameProblem) : Except Error (Array (Option FrameLayout)) := do
  let inputs ← problem.graph.nodeIds.mapM fun node =>
    if problem.isLive node then some <$> problem.minimalInput node else pure none
  return inputs.toArray.setIfInBounds problem.entry (some (FrameLayout.exactly []))

/-- The nodes of the first round. -/
def sweep (problem : FrameProblem) : List Nat :=
  (problem.graph.reversePostorder problem.entry).filter problem.isLive

/-- The layouts that a node hands to its successors. -/
def outputsOf (problem : FrameProblem) (inputs : Array (Option FrameLayout)) (node : Nat) :
    Except Error (List (Nat × FrameLayout)) :=
  match inputs[node]?.getD none with
  | some input =>
    (problem.effectsOf node).mapM fun edge => (edge.target, ·) <$> input.apply edge.effect
  | none => .ok []

end FrameProblem

end BytecodeFlow
