import BytecodeFlow.StackType
import BytecodeFlow.Text.Quoted
import BytecodeFlow.Text.Shortest

/-!
# Constants

The values that an operation can push by itself. A constant is pushed by the shortest operation
that can: frequent values have a code of their own, small integers follow the code in one or two
bytes, and all else is taken from the constant pool.
-/

namespace BytecodeFlow

/-- A constant. Floating point constants are held as their bit patterns. -/
inductive Constant where
  | null
  | int (value : Int)
  | long (value : Int)
  | float (bits : UInt32)
  | double (bits : UInt64)
  | string (value : String)
  | classLiteral (name : String)
deriving DecidableEq, Repr

namespace Constant

/-- The type of the pushed value. -/
def stackType : Constant → StackType
  | .null => .reference none
  | .int _ => .int
  | .long _ => .long
  | .float _ => .float
  | .double _ => .double
  | .string _ => .ofClass "java/lang/String"
  | .classLiteral _ => .ofClass "java/lang/Class"

/-- The code of the shortest operation that pushes the constant. -/
def opcode : Constant → Nat
  | .null => 0x01
  | .int value =>
    if -1 ≤ value ∧ value ≤ 5 then (3 + value).toNat
    else if -128 ≤ value ∧ value ≤ 127 then 0x10
    else if -32768 ≤ value ∧ value ≤ 32767 then 0x11
    else 0x12
  | .long value => if value = 0 then 0x09 else if value = 1 then 0x0a else 0x14
  | .float bits =>
    if bits = 0 then 0x0b
    else if bits = 0x3f800000 then 0x0c
    else if bits = 0x40000000 then 0x0d
    else 0x12
  | .double bits =>
    if bits = 0 then 0x0e else if bits = 0x3ff0000000000000 then 0x0f else 0x14
  | .string _ => 0x12
  | .classLiteral _ => 0x12

/-- Whether the constant stands behind the code, rather than in it. -/
def hasOperand (constant : Constant) : Bool :=
  constant.opcode ∈ [0x10, 0x11, 0x12, 0x14]

/-- The text of a constant, with a letter for the types that share the form of their numbers. -/
def text : Constant → String
  | .null => "null"
  | .int value => s!"{value}"
  | .long value => s!"{value}L"
  | .float bits => Text.FloatFormat.single.text bits.toNat ++ "F"
  | .double bits => Text.FloatFormat.double.text bits.toNat ++ "D"
  | .string value => Text.quote value
  | .classLiteral name => name ++ ".class"

end Constant

end BytecodeFlow
