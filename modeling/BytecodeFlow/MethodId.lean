import BytecodeFlow.Descriptor

/-!
# Method identifiers

A method is identified by its class, its name and its descriptor, none of which is empty.
Identifiers are ordered by these three parts, in this order.
-/

namespace BytecodeFlow

/-- The identity of a method. -/
structure MethodId where
  className : String
  methodName : String
  descriptor : String
deriving DecidableEq, Repr

namespace MethodId

/-- The identifier with the given parts, unless one of them is empty. -/
def of (className methodName descriptor : String) : Except Error MethodId :=
  if className.isEmpty then .error (.precondition (.emptyMethodPart .className))
  else if methodName.isEmpty then .error (.precondition (.emptyMethodPart .methodName))
  else if descriptor.isEmpty then .error (.precondition (.emptyMethodPart .descriptor))
  else .ok ⟨className, methodName, descriptor⟩

/-- The text of an identifier: class, point, name, descriptor. -/
def text (method : MethodId) : String :=
  method.className ++ "." ++ method.methodName ++ method.descriptor

/-- The type that the descriptor stands for. -/
def type (method : MethodId) : Except Error MethodType :=
  MethodType.parse method.descriptor

/-- Whether `left` comes before `right`. -/
def before (left right : MethodId) : Bool :=
  if left.className ≠ right.className then left.className < right.className
  else if left.methodName ≠ right.methodName then left.methodName < right.methodName
  else left.descriptor < right.descriptor

/-- Identifiers in ascending order. -/
def sorted (methods : List MethodId) : List MethodId :=
  methods.mergeSort fun left right => !right.before left

end MethodId

end BytecodeFlow
