import BytecodeFlow.StackFrames.Problem

/-!
# The search for stack frames

The layouts before the instructions are found by iteration. Each starts as the least that the
effects of the instruction need, and the method entry starts with an empty stack. A visit to a node
joins to its layout what its predecessors leave and what its successors need, and a change brings
all neighbours back on the agenda.

The first round visits the nodes in reverse postorder, so that every node comes after one of its
predecessors and every layout is exact at its end. From then on a change only replaces values by
more specific ones, or by the class that both sides share. A value can be replaced three times at
most, which bounds the number of visits.
-/

namespace BytecodeFlow

/-- The layouts found so far, the nodes to visit, and the number of visits. -/
structure FrameSearch where
  inputs : Array (Option FrameLayout)
  agenda : List Nat
  visits : Nat
deriving DecidableEq, Repr

namespace FrameProblem

/-- The search at the start. -/
def start (problem : FrameProblem) : Except Error FrameSearch := do
  let inputs ← problem.initialInputs
  return { inputs, agenda := problem.sweep, visits := 0 }

/-- The layout of a node, joined with what a predecessor leaves. -/
def joinBefore (problem : FrameProblem) (inputs : Array (Option FrameLayout)) (node : Nat)
    (layout : FrameLayout) (source : Nat) : Except Error FrameLayout :=
  match inputs[source]?.getD none, problem.effect? source node with
  | some before, some effect => do layout.merge (← before.apply effect)
  | _, _ => .ok layout

/-- The layout of a node, joined with what a successor needs. -/
def joinAfter (inputs : Array (Option FrameLayout)) (layout : FrameLayout) (edge : EffectEdge) :
    Except Error FrameLayout :=
  match inputs[edge.target]?.getD none with
  | some after => do layout.merge (← after.revert edge.effect)
  | none => .ok layout

/-- The layout of a node, joined with what all its neighbours say of it. -/
def refine (problem : FrameProblem) (inputs : Array (Option FrameLayout)) (node : Nat)
    (layout : FrameLayout) : Except Error FrameLayout := do
  let before ← ((problem.graph.predecessors node).filter problem.isLive).foldlM
    (problem.joinBefore inputs node) layout
  (problem.effectsOf node).foldlM (joinAfter inputs) before

/-- The nodes whose layouts depend on that of a node. -/
def neighbours (problem : FrameProblem) (node : Nat) : List Nat :=
  (problem.graph.predecessors node ++ problem.graph.successors node).filter problem.isLive

/-- The search after a visit to `node`, with `agenda` left to visit. -/
def visit (problem : FrameProblem) (search : FrameSearch) (node : Nat) (agenda : List Nat) :
    Except Error FrameSearch := do
  let visits := search.visits + 1
  match search.inputs[node]?.getD none with
  | none => return { search with agenda, visits }
  | some layout =>
    let refined ← problem.refine search.inputs node layout
    if refined = layout then
      return { search with agenda, visits }
    return {
      inputs := search.inputs.setIfInBounds node (some refined)
      agenda := agenda ++ Traversal.unseen agenda (problem.neighbours node)
      visits }

/-- The search after a number of visits, or once its agenda is empty. -/
def run (problem : FrameProblem) : Nat → FrameSearch → Except Error FrameSearch
  | 0, search => .ok search
  | fuel + 1, search =>
    match search.agenda with
    | [] => .ok search
    | node :: agenda => do problem.run fuel (← problem.visit search node agenda)

end FrameProblem

/-- How often a value can still be replaced by a more specific or a shared one. -/
def StackType.slack : StackType → Nat
  | .any => 3
  | .reference none => 2
  | .reference (some name) => if name = objectClass then 0 else 1
  | _ => 0

/-- How often a layout can still change while it stays exact. -/
def FrameLayout.slack (layout : FrameLayout) : Nat :=
  layout.values.foldr (fun value rest => value.slack + rest) 0

/-- How often the layouts of a search can still change while they stay exact. -/
def FrameSearch.slack (search : FrameSearch) : Nat :=
  search.inputs.toList.foldr (fun input rest => (input.map FrameLayout.slack).getD 0 + rest) 0

/-- A bound on the number of visits that are left once all layouts are exact: a change brings no
node on the agenda twice. -/
def FrameSearch.visitBound (search : FrameSearch) : Nat :=
  (search.slack + 1) * (search.inputs.size + 1)

namespace FrameProblem

/-- The search at its end: the first round, and the visits after it. -/
def solve (problem : FrameProblem) : Except Error FrameSearch := do
  let swept ← problem.run problem.sweep.length (← problem.start)
  problem.run swept.visitBound swept

end FrameProblem

end BytecodeFlow
