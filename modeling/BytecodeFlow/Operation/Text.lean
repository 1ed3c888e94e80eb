import BytecodeFlow.Operation.Basic

/-!
# Text of operations

An operation is written as its mnemonic, followed by the operands that the mnemonic does not
already tell.
-/

namespace BytecodeFlow.Operation

/-- The cases of a switch, as key and target. -/
def casesText (cases : List (Int32 × Int)) : String :=
  String.intercalate ", " (cases.map fun (key, target) => s!"{key.toInt}: {target}")

/-- The operands that are written behind the mnemonic. -/
def operandText? : Operation → Option String
  | .constant value => if value.hasOperand then some value.text else none
  | .load _ slot | .store _ slot => if 3 < slot then some s!"{slot}" else none
  | .increment slot delta => some s!"{slot} {delta}"
  | .branch _ target | .goto target | .jumpSubroutine target => some s!"{target}"
  | .returnFromSubroutine slot _ => some s!"{slot}"
  | .switch _ fallback cases => some s!"\x7b{casesText cases}\x7d default: {fallback}"
  | .field _ owner name descriptor => some s!"{owner}.{name} {descriptor}"
  | .invoke _ owner name descriptor => some s!"{owner}.{name}{descriptor}"
  | .invokeDynamic name descriptor => some s!"{name}{descriptor}"
  | .new className | .newReferenceArray className | .checkCast className
  | .instanceOf className => some className
  | .newArray kind => some kind.text
  | .multiNewArray descriptor dimensions => some s!"{descriptor} {dimensions}"
  | _ => none

/-- The text of an operation. -/
def text (operation : Operation) : String :=
  match operation.operandText? with
  | some operands => operation.mnemonic ++ " " ++ operands
  | none => operation.mnemonic

end BytecodeFlow.Operation
