import BytecodeFlow.StackType

/-!
# Operand kinds

The small closed sets that operations are parameterised by, with the stack types that they stand
for and their share in the operation code.
-/

namespace BytecodeFlow

/-- The value kinds of loads, stores and returns. -/
inductive ValueKind where
  | int
  | long
  | float
  | double
  | reference
deriving DecidableEq, Repr

namespace ValueKind

/-- The stack type of a value. -/
def stackType : ValueKind → StackType
  | .int => .int
  | .long => .long
  | .float => .float
  | .double => .double
  | .reference => .reference none

/-- Whether a value occupies two local variable slots. -/
def isWide : ValueKind → Bool
  | .long | .double => true
  | _ => false

/-- The position of a kind among the codes of a typed operation. -/
def index : ValueKind → Nat
  | .int => 0
  | .long => 1
  | .float => 2
  | .double => 3
  | .reference => 4

end ValueKind

/-- The operand kinds of arithmetic. -/
inductive NumericKind where
  | int
  | long
  | float
  | double
deriving DecidableEq, Repr

namespace NumericKind

/-- The value kind of an operand. -/
def valueKind : NumericKind → ValueKind
  | .int => .int
  | .long => .long
  | .float => .float
  | .double => .double

/-- The stack type of an operand. -/
def stackType (kind : NumericKind) : StackType :=
  kind.valueKind.stackType

end NumericKind

/-- The operand kinds of shifts and bitwise operations. -/
inductive IntegralKind where
  | int
  | long
deriving DecidableEq, Repr

namespace IntegralKind

/-- The value kind of an operand. -/
def valueKind : IntegralKind → ValueKind
  | .int => .int
  | .long => .long

/-- The stack type of an operand. -/
def stackType (kind : IntegralKind) : StackType :=
  kind.valueKind.stackType

end IntegralKind

/-- The element kinds of arrays. -/
inductive ArrayKind where
  | boolean
  | byte
  | char
  | short
  | int
  | long
  | float
  | double
  | reference
deriving DecidableEq, Repr

namespace ArrayKind

/-- The stack type of an element once it is loaded. -/
def elementType : ArrayKind → StackType
  | .boolean | .byte | .char | .short | .int => .int
  | .long => .long
  | .float => .float
  | .double => .double
  | .reference => .reference none

/-- The descriptor of an array of this kind. -/
def arrayDescriptor : ArrayKind → String
  | .boolean => "[Z"
  | .byte => "[B"
  | .char => "[C"
  | .short => "[S"
  | .int => "[I"
  | .long => "[J"
  | .float => "[F"
  | .double => "[D"
  | .reference => "[Ljava/lang/Object;"

/-- The type code by which a primitive array is created. -/
def typeCode? : ArrayKind → Option Nat
  | .boolean => some 4
  | .char => some 5
  | .float => some 6
  | .double => some 7
  | .byte => some 8
  | .short => some 9
  | .int => some 10
  | .long => some 11
  | .reference => none

/-- The position of a kind among the array loads and stores; bytes and booleans share theirs. -/
def index : ArrayKind → Nat
  | .int => 0
  | .long => 1
  | .float => 2
  | .double => 3
  | .reference => 4
  | .boolean | .byte => 5
  | .char => 6
  | .short => 7

/-- The name of a kind. -/
def text : ArrayKind → String
  | .boolean => "boolean"
  | .byte => "byte"
  | .char => "char"
  | .short => "short"
  | .int => "int"
  | .long => "long"
  | .float => "float"
  | .double => "double"
  | .reference => "reference"

end ArrayKind

/-- The two-operand arithmetic operations. -/
inductive ArithmeticOp where
  | add
  | sub
  | mul
  | div
  | rem
deriving DecidableEq, Repr

/-- The position of an operation among the arithmetic codes. -/
def ArithmeticOp.index : ArithmeticOp → Nat
  | .add => 0
  | .sub => 1
  | .mul => 2
  | .div => 3
  | .rem => 4

/-- The shifts and bitwise operations. -/
inductive BitwiseOp where
  | shl
  | shr
  | ushr
  | and
  | or
  | xor
deriving DecidableEq, Repr

namespace BitwiseOp

/-- Whether the topmost operand is a shift distance, which is always an `int`. -/
def isShift : BitwiseOp → Bool
  | .shl | .shr | .ushr => true
  | .and | .or | .xor => false

/-- The position of an operation among the bitwise codes. -/
def index : BitwiseOp → Nat
  | .shl => 0
  | .shr => 1
  | .ushr => 2
  | .and => 3
  | .or => 4
  | .xor => 5

end BitwiseOp

/-- The conversions between primitive types. -/
inductive Conversion where
  | intToLong
  | intToFloat
  | intToDouble
  | longToInt
  | longToFloat
  | longToDouble
  | floatToInt
  | floatToLong
  | floatToDouble
  | doubleToInt
  | doubleToLong
  | doubleToFloat
  | intToByte
  | intToChar
  | intToShort
deriving DecidableEq, Repr

namespace Conversion

/-- The type that is consumed. -/
def source : Conversion → StackType
  | .intToLong | .intToFloat | .intToDouble | .intToByte | .intToChar | .intToShort => .int
  | .longToInt | .longToFloat | .longToDouble => .long
  | .floatToInt | .floatToLong | .floatToDouble => .float
  | .doubleToInt | .doubleToLong | .doubleToFloat => .double

/-- The type that is pushed. -/
def target : Conversion → StackType
  | .longToInt | .floatToInt | .doubleToInt | .intToByte | .intToChar | .intToShort => .int
  | .intToLong | .floatToLong | .doubleToLong => .long
  | .intToFloat | .longToFloat | .doubleToFloat => .float
  | .intToDouble | .longToDouble | .floatToDouble => .double

/-- The operation code. -/
def opcode : Conversion → Nat
  | .intToLong => 0x85
  | .intToFloat => 0x86
  | .intToDouble => 0x87
  | .longToInt => 0x88
  | .longToFloat => 0x89
  | .longToDouble => 0x8a
  | .floatToInt => 0x8b
  | .floatToLong => 0x8c
  | .floatToDouble => 0x8d
  | .doubleToInt => 0x8e
  | .doubleToLong => 0x8f
  | .doubleToFloat => 0x90
  | .intToByte => 0x91
  | .intToChar => 0x92
  | .intToShort => 0x93

end Conversion

/-- The comparisons that push a sign; the floating point ones differ in where they put NaN. -/
inductive Comparison where
  | long
  | floatNanLess
  | floatNanGreater
  | doubleNanLess
  | doubleNanGreater
deriving DecidableEq, Repr

namespace Comparison

/-- The type of both operands. -/
def operand : Comparison → StackType
  | .long => .long
  | .floatNanLess | .floatNanGreater => .float
  | .doubleNanLess | .doubleNanGreater => .double

/-- The operation code. -/
def opcode : Comparison → Nat
  | .long => 0x94
  | .floatNanLess => 0x95
  | .floatNanGreater => 0x96
  | .doubleNanLess => 0x97
  | .doubleNanGreater => 0x98

end Comparison

/-- The conditions of conditional branches. -/
inductive Condition where
  | equal
  | notEqual
  | less
  | greaterOrEqual
  | greater
  | lessOrEqual
  | intEqual
  | intNotEqual
  | intLess
  | intGreaterOrEqual
  | intGreater
  | intLessOrEqual
  | refEqual
  | refNotEqual
  | null
  | nonNull
deriving DecidableEq, Repr

namespace Condition

/-- The types of the operands. Conditions with two operands have two of the same type. -/
def operands : Condition → List StackType
  | .equal | .notEqual | .less | .greaterOrEqual | .greater | .lessOrEqual => [.int]
  | .intEqual | .intNotEqual | .intLess | .intGreaterOrEqual | .intGreater | .intLessOrEqual =>
    [.int, .int]
  | .refEqual | .refNotEqual => [.reference none, .reference none]
  | .null | .nonNull => [.reference none]

/-- The operation code. -/
def opcode : Condition → Nat
  | .equal => 0x99
  | .notEqual => 0x9a
  | .less => 0x9b
  | .greaterOrEqual => 0x9c
  | .greater => 0x9d
  | .lessOrEqual => 0x9e
  | .intEqual => 0x9f
  | .intNotEqual => 0xa0
  | .intLess => 0xa1
  | .intGreaterOrEqual => 0xa2
  | .intGreater => 0xa3
  | .intLessOrEqual => 0xa4
  | .refEqual => 0xa5
  | .refNotEqual => 0xa6
  | .null => 0xc6
  | .nonNull => 0xc7

end Condition

/-- The two encodings of a switch: over consecutive keys, or over a list of keys. -/
inductive SwitchKind where
  | table
  | lookup
deriving DecidableEq, Repr

/-- The operation code. -/
def SwitchKind.opcode : SwitchKind → Nat
  | .table => 0xaa
  | .lookup => 0xab

/-- The accesses to a field. -/
inductive FieldAccess where
  | getStatic
  | putStatic
  | getField
  | putField
deriving DecidableEq, Repr

/-- The operation code. -/
def FieldAccess.opcode : FieldAccess → Nat
  | .getStatic => 0xb2
  | .putStatic => 0xb3
  | .getField => 0xb4
  | .putField => 0xb5

/-- The ways to call a named method. -/
inductive InvokeKind where
  | virtual
  | special
  | static
  | interface
deriving DecidableEq, Repr

/-- The operation code. -/
def InvokeKind.opcode : InvokeKind → Nat
  | .virtual => 0xb6
  | .special => 0xb7
  | .static => 0xb8
  | .interface => 0xb9

/-- Entering or leaving a monitor. -/
inductive MonitorKind where
  | enter
  | exit
deriving DecidableEq, Repr

/-- The operation code. -/
def MonitorKind.opcode : MonitorKind → Nat
  | .enter => 0xc2
  | .exit => 0xc3


end BytecodeFlow
