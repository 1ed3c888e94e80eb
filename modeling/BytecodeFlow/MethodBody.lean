import BytecodeFlow.FlowGraph.Basic

/-!
# Method bodies

What the analyses need to know of a method: its instructions, its handlers and its variables.
-/

namespace BytecodeFlow

/-- The body of a method. -/
structure MethodBody where
  method : MethodId
  instructions : List Instruction
  handlers : List HandlerRange
  locals : VariableTable
deriving Repr

namespace MethodBody

/-- The instruction at an order, if it stands there. -/
def instruction? (body : MethodBody) (order : Int) : Option Instruction :=
  if 0 ≤ order then (body.instructions[order.toNat]?).filter (·.order == order) else none

/-- The flow graph of a body. -/
def analyze (body : MethodBody) (settings : Settings) : Except Error FlowGraph :=
  FlowGraph.build body.method body.instructions body.handlers settings

end MethodBody

end BytecodeFlow
