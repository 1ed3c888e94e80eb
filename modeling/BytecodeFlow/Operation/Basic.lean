import BytecodeFlow.Opcode
import BytecodeFlow.Operation.Constant
import BytecodeFlow.Operation.Kind
import BytecodeFlow.StackEffect

/-!
# Operations

The operations of the Java virtual machine, one constructor for each kind of instruction, with the
operands that it needs. Jump targets are instruction orders. Two further constructors stand for
the sentinels at which every method graph begins and ends.

This module holds what an operation says about itself without looking at the stack or at its
neighbours: its code and mnemonic, how control leaves it, and the local variables that it reads
and writes.
-/

namespace BytecodeFlow

/-- One operation with its operands. -/
inductive Operation where
  | methodEntry
  | methodExit
  | nop
  | constant (value : Constant)
  | load (kind : ValueKind) (slot : Nat)
  | store (kind : ValueKind) (slot : Nat)
  | increment (slot : Nat) (delta : Int)
  | arrayLoad (kind : ArrayKind)
  | arrayStore (kind : ArrayKind)
  | shuffle (kind : Shuffle)
  | arithmetic (op : ArithmeticOp) (kind : NumericKind)
  | bitwise (op : BitwiseOp) (kind : IntegralKind)
  | negate (kind : NumericKind)
  | convert (conversion : Conversion)
  | compare (comparison : Comparison)
  | branch (condition : Condition) (target : Int)
  | goto (target : Int)
  | jumpSubroutine (target : Int)
  | returnFromSubroutine (slot : Nat) (targets : List Int)
  | switch (kind : SwitchKind) (fallback : Int) (cases : List (Int32 × Int))
  | leave (kind : Option ValueKind)
  | throw
  | field (access : FieldAccess) (owner name descriptor : String)
  | invoke (kind : InvokeKind) (owner name descriptor : String)
  | invokeDynamic (name descriptor : String)
  | new (className : String)
  | newArray (kind : ArrayKind)
  | newReferenceArray (className : String)
  | multiNewArray (descriptor : String) (dimensions : Nat)
  | arrayLength
  | checkCast (className : String)
  | instanceOf (className : String)
  | monitor (kind : MonitorKind)
deriving DecidableEq, Repr

/-- How control leaves an operation. -/
inductive Flow where
  | sequential
  | conditionalBranch
  | unconditionalBranch
  | subroutine
  | subroutineReturn
  | switch
  | leave
  | throw
  | entry
  | exit
deriving DecidableEq, Repr

/-- The properties that operations are filtered by. -/
inductive Flag where
  /-- control may continue elsewhere than at the next instruction -/
  | branch
  /-- where control continues depends on a value -/
  | conditional
  /-- control never continues at the next instruction by itself -/
  | terminal
  /-- where control continues depends on the handlers around -/
  | throws
  | readsVariable
  | writesVariable
  | invoke
  | allocates
  | sentinel
deriving DecidableEq, Repr

namespace Flag

/-- The flags in the order of their bits. -/
def all : List Flag :=
  [.branch, .conditional, .terminal, .throws, .readsVariable, .writesVariable, .invoke, .allocates,
    .sentinel]

/-- The bit of a flag. -/
def bit : Flag → Nat
  | .branch => 0x001
  | .conditional => 0x002
  | .terminal => 0x004
  | .throws => 0x008
  | .readsVariable => 0x010
  | .writesVariable => 0x020
  | .invoke => 0x040
  | .allocates => 0x080
  | .sentinel => 0x100

/-- The bits of a list of different flags. -/
def bits (flags : List Flag) : Nat :=
  flags.foldr (fun flag rest => flag.bit + rest) 0

end Flag

/-- The flags that follow from how control leaves an operation. -/
def Flow.flags : Flow → List Flag
  | .sequential => []
  | .conditionalBranch => [.branch, .conditional]
  | .switch => [.branch, .conditional, .terminal]
  | .unconditionalBranch | .subroutine | .subroutineReturn => [.branch, .terminal]
  | .leave => [.terminal]
  | .throw => [.terminal, .throws]
  | .entry => [.sentinel]
  | .exit => [.sentinel, .terminal]

/-- The code of a shuffle. -/
def Shuffle.opcode : Shuffle → Nat
  | .pop => 0x57
  | .pop2 => 0x58
  | .dup => 0x59
  | .dupX1 => 0x5a
  | .dupX2 => 0x5b
  | .dup2 => 0x5c
  | .dup2X1 => 0x5d
  | .dup2X2 => 0x5e
  | .swap => 0x5f

/-- The last local variable slot. -/
def lastSlot : Nat := 65535

/-- The slots that a variable occupies, ascending. A wide variable takes the next slot too, if
there is one. -/
def variableSlots (slot : Nat) (isWide : Bool) : List Nat :=
  if isWide && slot < lastSlot then [slot, slot + 1] else [slot]

namespace Operation

/-- Whether an operation is one of the sentinels. -/
def isSentinel : Operation → Bool
  | .methodEntry | .methodExit => true
  | _ => false

/-- The operation code. Loads and stores of the first four slots have codes of their own. -/
def opcode : Operation → Nat
  | .methodEntry => Opcode.methodEntry
  | .methodExit => Opcode.methodExit
  | .nop => 0x00
  | .constant value => value.opcode
  | .load kind slot => if slot ≤ 3 then 0x1a + kind.index * 4 + slot else 0x15 + kind.index
  | .store kind slot => if slot ≤ 3 then 0x3b + kind.index * 4 + slot else 0x36 + kind.index
  | .increment _ _ => 0x84
  | .arrayLoad kind => 0x2e + kind.index
  | .arrayStore kind => 0x4f + kind.index
  | .shuffle kind => kind.opcode
  | .arithmetic op kind => 0x60 + op.index * 4 + kind.valueKind.index
  | .bitwise op kind => 0x78 + op.index * 2 + kind.valueKind.index
  | .negate kind => 0x74 + kind.valueKind.index
  | .convert conversion => conversion.opcode
  | .compare comparison => comparison.opcode
  | .branch condition _ => condition.opcode
  | .goto _ => 0xa7
  | .jumpSubroutine _ => 0xa8
  | .returnFromSubroutine _ _ => 0xa9
  | .switch kind _ _ => kind.opcode
  | .leave (some kind) => 0xac + kind.index
  | .leave none => 0xb1
  | .throw => 0xbf
  | .field access _ _ _ => access.opcode
  | .invoke kind _ _ _ => kind.opcode
  | .invokeDynamic _ _ => 0xba
  | .new _ => 0xbb
  | .newArray .reference => 0xbd
  | .newArray _ => 0xbc
  | .newReferenceArray _ => 0xbd
  | .multiNewArray _ _ => 0xc5
  | .arrayLength => 0xbe
  | .checkCast _ => 0xc0
  | .instanceOf _ => 0xc1
  | .monitor kind => kind.opcode

/-- The mnemonic. -/
def mnemonic : Operation → String
  | .methodEntry => "method-entry"
  | .methodExit => "method-exit"
  | operation => (Opcode.mnemonic? operation.opcode).getD "unknown"

/-- How control leaves an operation. -/
def flow : Operation → Flow
  | .methodEntry => .entry
  | .methodExit => .exit
  | .branch _ _ => .conditionalBranch
  | .goto _ => .unconditionalBranch
  | .jumpSubroutine _ => .subroutine
  | .returnFromSubroutine _ _ => .subroutineReturn
  | .switch _ _ _ => .switch
  | .leave _ => .leave
  | .throw => .throw
  | _ => .sequential

/-- The local variable slots that are read, ascending. -/
def reads : Operation → List Nat
  | .load kind slot => variableSlots slot kind.isWide
  | .increment slot _ => [slot]
  | .returnFromSubroutine slot _ => [slot]
  | _ => []

/-- The local variable slots that are written, ascending. -/
def writes : Operation → List Nat
  | .store kind slot => variableSlots slot kind.isWide
  | .increment slot _ => [slot]
  | _ => []

/-- Whether the local variable in `slot` is written. -/
def writesVariable (operation : Operation) (slot : Nat) : Bool :=
  operation.writes.contains slot

/-- Whether an object or an array is created. -/
def allocates : Operation → Bool
  | .new _ | .newArray _ | .newReferenceArray _ | .multiNewArray _ _ => true
  | _ => false

/-- Whether a method is called. -/
def invokes : Operation → Bool
  | .invoke _ _ _ _ | .invokeDynamic _ _ => true
  | _ => false

/-- Whether an operation has a property. -/
def hasFlag (operation : Operation) : Flag → Bool
  | .readsVariable => !operation.reads.isEmpty
  | .writesVariable => !operation.writes.isEmpty
  | .invoke => operation.invokes
  | .allocates => operation.allocates
  | flag => operation.flow.flags.contains flag

/-- The properties of an operation, in the order of their bits. -/
def flags (operation : Operation) : List Flag :=
  Flag.all.filter operation.hasFlag

/-- The target of a branch, a jump or a subroutine call. -/
def branchTarget? : Operation → Option Int
  | .branch _ target | .goto target | .jumpSubroutine target => some target
  | _ => none

end Operation

end BytecodeFlow
