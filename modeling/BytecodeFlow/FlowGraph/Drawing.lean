import BytecodeFlow.Dot
import BytecodeFlow.FlowGraph.Query

/-!
# Drawings of instruction graphs

Graphs over instructions are drawn with the text of each instruction. In the drawing of a flow
graph the edges show their kinds.
-/

namespace BytecodeFlow

/-- A drawing of a graph over instructions. -/
def Digraph.draw (g : Digraph Instruction) (kind : String) (title : Option String)
    (role : Nat → Instruction → Dot.Role) (label : Edge → Option String) : Drawing where
  kind
  title
  nodes := (g.nodeIds.zip g.nodes.toList).map fun (node, instruction) =>
    ⟨node, instruction.text, role node instruction⟩
  arrows := g.edges.toList.map fun edge => ⟨edge.source, edge.target, label edge⟩

namespace FlowGraph

/-- The part that a node of a flow graph plays in a drawing. -/
def role (flow : FlowGraph) (node : Nat) : Dot.Role :=
  if node = flow.entry then .entry else if node = flow.exit then .exit else .plain

/-- The text of an edge in a drawing, if its kind has one. -/
def arrowLabel (flow : FlowGraph) (edge : Edge) : Option String :=
  let text := (flow.kindBetween edge.source edge.target).text
  if text.isEmpty then none else some text

/-- The drawing of a flow graph. -/
def draw (flow : FlowGraph) (title : Option String) : Drawing :=
  flow.graph.draw "CFG" title (fun node _ => flow.role node) flow.arrowLabel

end FlowGraph

end BytecodeFlow
