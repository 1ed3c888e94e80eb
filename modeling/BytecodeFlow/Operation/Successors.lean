import BytecodeFlow.HandlerRange
import BytecodeFlow.Operation.Basic
import BytecodeFlow.Order

/-!
# Successors of operations

The orders at which control may continue behind an operation, ascending and each of them once.
Returning and the method exit have none; throwing continues at every handler around it and at the
method exit, for the case that no handler catches.
-/

namespace BytecodeFlow.Operation

/-- The orders at which control may continue behind the operation at `order`, if they do not
depend on the handlers around it. -/
def successors (operation : Operation) (order : Int) : Except Error (List Int) :=
  match operation with
  | .methodEntry => .ok [methodEntryOrder + 1]
  | .methodExit | .leave _ => .ok []
  | .throw => .error (.unsupported .throwSuccessors)
  | .goto target | .jumpSubroutine target => .ok [target]
  | .branch _ target => .ok (ascending [order + 1, target])
  | .switch _ fallback cases => .ok (ascending (fallback :: cases.map Prod.snd))
  | .returnFromSubroutine _ targets => .ok (ascending targets)
  | _ => .ok [order + 1]

/-- The orders at which control may continue behind the operation at `order`. -/
def successorsIn (operation : Operation) (order : Int) (handlers : List HandlerRange) :
    Except Error (List Int) :=
  match operation with
  | .throw =>
    .ok (ascending (((handlers.filter (·.contains order)).map (·.handler)) ++ [methodExitOrder]))
  | operation => operation.successors order

end BytecodeFlow.Operation
