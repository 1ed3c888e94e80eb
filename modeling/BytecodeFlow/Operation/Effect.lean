import BytecodeFlow.Descriptor
import BytecodeFlow.Operation.Basic

/-!
# Stack effects of operations

The values that an operation pops and pushes. Shuffles, throwing and the method exit have no fixed
list of popped and pushed values; their effect is given by `Operation.effect` only.
-/

namespace BytecodeFlow.Operation

/-- The descriptor of an array with the given component class or array descriptor. -/
def arrayOf (component : String) : String :=
  if component.toList.head? = some '[' then "[" ++ component else "[L" ++ component ++ ";"

/-- The answer of the operations whose effect is not a list of popped and a pushed value. -/
def notUniform {α : Type} (operation : Operation) : Except Error α :=
  .error (.unsupported (.uniformEffect operation.mnemonic))

/-- The stack type that a field descriptor stands for. -/
def fieldStackType (descriptor : String) : Except Error StackType :=
  (FieldType.parse descriptor).map FieldType.stackType

/-- The constraints on the popped values, the topmost first. -/
def pops (operation : Operation) : Except Error (List StackType) :=
  match operation with
  | .shuffle _ | .throw | .methodExit => operation.notUniform
  | .methodEntry | .nop | .constant _ | .load _ _ | .increment _ _ | .goto _ | .jumpSubroutine _
  | .returnFromSubroutine _ _ | .leave none | .new _ => .ok []
  | .store kind _ | .leave (some kind) => .ok [kind.stackType]
  | .arrayLoad _ => .ok [.int, .reference none]
  | .arrayStore kind => .ok [kind.elementType, .int, .reference none]
  | .arithmetic _ kind => .ok [kind.stackType, kind.stackType]
  | .bitwise op kind => .ok [if op.isShift then .int else kind.stackType, kind.stackType]
  | .negate kind => .ok [kind.stackType]
  | .convert conversion => .ok [conversion.source]
  | .compare comparison => .ok [comparison.operand, comparison.operand]
  | .branch condition _ => .ok condition.operands
  | .switch _ _ _ | .newArray _ | .newReferenceArray _ => .ok [.int]
  | .field .getStatic _ _ _ => .ok []
  | .field .putStatic _ _ descriptor => do
    let value ← fieldStackType descriptor
    return [value]
  | .field .getField owner _ _ => .ok [.ofClass owner]
  | .field .putField owner _ descriptor => do
    let value ← fieldStackType descriptor
    return [value, .ofClass owner]
  | .invoke kind owner _ descriptor => do
    let type ← MethodType.parse descriptor
    let arguments := type.parameterTypes.reverse
    return if kind = .static then arguments else arguments ++ [.ofClass owner]
  | .invokeDynamic _ descriptor => do
    let type ← MethodType.parse descriptor
    return type.parameterTypes.reverse
  | .multiNewArray _ dimensions => .ok (List.replicate dimensions .int)
  | .arrayLength | .checkCast _ | .instanceOf _ | .monitor _ => .ok [.reference none]

/-- The pushed value, `void` if nothing is pushed. -/
def pushes (operation : Operation) : Except Error StackType :=
  match operation with
  | .shuffle _ | .throw | .methodExit => operation.notUniform
  | .constant value => .ok value.stackType
  | .load kind _ => .ok kind.stackType
  | .arrayLoad kind => .ok kind.elementType
  | .arithmetic _ kind | .negate kind => .ok kind.stackType
  | .bitwise _ kind => .ok kind.stackType
  | .convert conversion => .ok conversion.target
  | .compare _ | .arrayLength | .instanceOf _ => .ok .int
  | .jumpSubroutine _ => .ok .returnAddress
  | .field .getStatic _ _ descriptor | .field .getField _ _ descriptor =>
    fieldStackType descriptor
  | .invoke _ _ _ descriptor | .invokeDynamic _ descriptor => do
    let type ← MethodType.parse descriptor
    return type.returnType
  | .new className | .checkCast className => .ok (.ofClass className)
  | .newArray kind => .ok (.ofClass kind.arrayDescriptor)
  | .newReferenceArray className => .ok (.ofClass (arrayOf className))
  | .multiNewArray descriptor _ => .ok (.ofClass descriptor)
  | _ => .ok .void

/-- The effect on the stack. Where a thrown exception is caught, the handler receives it. -/
def effect (operation : Operation) (intoHandler : Bool) : Except Error StackEffect :=
  match operation with
  | .shuffle kind => .ok (.shuffle kind)
  | .throw => .ok (.clear (if intoHandler then some (.ofClass throwableClass) else none))
  | .methodExit => .ok (.clear none)
  | operation => do
    let consumed ← operation.pops
    let produced ← operation.pushes
    return .uniform consumed produced

end BytecodeFlow.Operation
