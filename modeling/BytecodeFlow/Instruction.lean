import BytecodeFlow.MethodId
import BytecodeFlow.Operation.Effect
import BytecodeFlow.Operation.Successors
import BytecodeFlow.Operation.Text
import BytecodeFlow.VariableTable

/-!
# Instructions

An instruction is an operation at a position of a method. Its site, which is its position, line
and label within a named method, identifies it; two instructions at one site count as the same,
whatever their operations and descriptors are.

The declared types of the local variables refine the effects of instructions: loads and stores of
references have the declared class in place of an unknown one.
-/

namespace BytecodeFlow

/-- An instruction of a method. -/
structure Instruction where
  method : MethodId
  order : Int
  label : String
  operation : Operation
  line : Option Nat := none
deriving Repr

/-- What identifies an instruction. -/
structure Site where
  order : Int
  line : Option Nat
  label : String
  className : String
  methodName : String
deriving DecidableEq, Repr

namespace Instruction

/-- The instruction with the given parts. It needs a label, the negative orders are reserved, and
the sentinels have constructors of their own. -/
def of (method : MethodId) (order : Int) (label : String) (operation : Operation) :
    Except Error Instruction :=
  if label.isEmpty then .error (.precondition (.unlabelledInstruction order method.text))
  else if order < 0 then .error (.precondition (.reservedOrder order))
  else if operation.isSentinel then .error (.precondition .sentinelOperation)
  else .ok ⟨method, order, label, operation, none⟩

/-- The same instruction on a source line. -/
def withLine (instruction : Instruction) (line : Nat) : Instruction :=
  { instruction with line := some line }

/-- The sentinel before the first instruction of a method. -/
def methodEntry (method : MethodId) : Instruction :=
  ⟨method, methodEntryOrder, Operation.methodEntry.text, .methodEntry, none⟩

/-- The sentinel at which every way out of a method ends. -/
def methodExit (method : MethodId) : Instruction :=
  ⟨method, methodExitOrder, Operation.methodExit.text, .methodExit, none⟩

/-- Whether an instruction is the method-entry sentinel. -/
def isMethodEntry (instruction : Instruction) : Bool :=
  instruction.operation = .methodEntry

/-- Whether an instruction is the method-exit sentinel. -/
def isMethodExit (instruction : Instruction) : Bool :=
  instruction.operation = .methodExit

/-- The site of an instruction. -/
def site (instruction : Instruction) : Site :=
  ⟨instruction.order, instruction.line, instruction.label, instruction.method.className,
    instruction.method.methodName⟩

instance : BEq Instruction where
  beq left right := left.site == right.site

/-- The text of an instruction: its order, its label and its line. -/
def text (instruction : Instruction) : String :=
  match instruction.line with
  | some line => s!"{instruction.order}: {instruction.label} (line {line})"
  | none => s!"{instruction.order}: {instruction.label}"

/-- The text of an optional line number. -/
def lineText : Option Nat → String
  | some line => s!"Some({line})"
  | none => "None"

/-- The text that shows the whole site of an instruction. -/
def siteText (instruction : Instruction) : String :=
  s!"Instruction \x7b method: {instruction.method.text}, order: {instruction.order}, label: " ++
    Text.quote instruction.label ++ s!", line: {lineText instruction.line} \x7d"

/-- The declared class of the local variable in `slot`, if it holds a reference here. -/
def declaredType (instruction : Instruction) (locals : VariableTable) (slot : Nat) :
    Option StackType :=
  match VariableTable.typeAt locals slot instruction.order with
  | some (.reference name) => some (.reference name)
  | _ => none

/-- The popped constraints with the declared type of a stored reference in place of the topmost. -/
def refinePops (instruction : Instruction) (locals : VariableTable) (pops : List StackType) :
    List StackType :=
  match instruction.operation, pops with
  | .store .reference slot, value :: rest =>
    (instruction.declaredType locals slot).getD value :: rest
  | _, pops => pops

/-- The declared type of a loaded reference in place of the pushed one. -/
def refinePush (instruction : Instruction) (locals : VariableTable) (value : StackType) :
    StackType :=
  match instruction.operation with
  | .load .reference slot => (instruction.declaredType locals slot).getD value
  | _ => value

/-- The constraints on the popped values, the topmost first. -/
def pops (instruction : Instruction) (locals : VariableTable) : Except Error (List StackType) :=
  instruction.operation.pops.map (instruction.refinePops locals)

/-- The pushed value, `void` if nothing is pushed. -/
def pushes (instruction : Instruction) (locals : VariableTable) : Except Error StackType :=
  instruction.operation.pushes.map (instruction.refinePush locals)

/-- An effect with the declared types of the variables that the instruction uses. -/
def refine (instruction : Instruction) (locals : VariableTable) : StackEffect → StackEffect
  | .uniform pops value =>
    .uniform (instruction.refinePops locals pops) (instruction.refinePush locals value)
  | effect => effect

/-- The effect on the stack. -/
def effect (instruction : Instruction) (locals : VariableTable) (intoHandler : Bool) :
    Except Error StackEffect :=
  (instruction.operation.effect intoHandler).map (instruction.refine locals)

/-- The orders at which control may continue, if they do not depend on the handlers. -/
def successors (instruction : Instruction) : Except Error (List Int) :=
  instruction.operation.successors instruction.order

/-- The orders at which control may continue. -/
def successorsIn (instruction : Instruction) (handlers : List HandlerRange) :
    Except Error (List Int) :=
  instruction.operation.successorsIn instruction.order handlers

end Instruction

end BytecodeFlow
