import BytecodeFlow.MethodBody

/-!
# Assembling method bodies

An assembler takes the instructions of a method one after the other, with names in place of jump
targets. A label names the instruction that comes after it. Labels may be used before they are
defined, and they are resolved at the end. A label behind the last instruction can end a range, but
nothing can jump there.

A step works on the assembler in place (`Assembly`). One that fails makes all its checks before it
writes, and so leaves the assembler as it was.
-/

namespace BytecodeFlow

/-- An operation whose jump targets are still labels. -/
inductive LabelledOperation where
  /-- an operation whose targets are orders already -/
  | resolved (operation : Operation)
  | branch (condition : Condition) (label : String)
  | goto (label : String)
  | jumpSubroutine (label : String)
  /-- continues behind any of the subroutine jumps to a label -/
  | returnFromSubroutine (slot : Nat)
  | switch (kind : SwitchKind) (fallback : String) (cases : List (Int32 × String))
deriving DecidableEq, Repr

/-- An instruction of an unfinished body. -/
structure LabelledInstruction where
  operation : LabelledOperation
  line : Option Nat
deriving DecidableEq, Repr

/-- A handler range between labels. -/
structure LabelledRange where
  start : String
  stop : String
  handler : String
  catchType : Option String
deriving DecidableEq, Repr

/-- A variable lifetime between labels. -/
structure LabelledLifetime where
  name : String
  descriptor : String
  slot : Nat
  start : String
  stop : String
deriving DecidableEq, Repr

/-- One step of an assembler. -/
inductive AssemblyStep where
  | emit (operation : Operation)
  | branch (condition : Condition) (label : String)
  | goto (label : String)
  | jumpSubroutine (label : String)
  | returnFromSubroutine (slot : Nat)
  | switch (kind : SwitchKind) (fallback : String) (cases : List (Int32 × String))
  /-- names the next instruction -/
  | define (label : String)
  /-- protects a range of instructions -/
  | protect (range : LabelledRange)
  /-- declares a variable -/
  | declare (lifetime : LabelledLifetime)
  /-- sets the line of the instructions that follow -/
  | line (number : Nat)
deriving DecidableEq, Repr

/-- An unfinished method body. -/
structure Assembler where
  method : MethodId
  instructions : Array LabelledInstruction := #[]
  labels : List (String × Nat) := []
  ranges : Array LabelledRange := #[]
  lifetimes : Array LabelledLifetime := #[]
  line : Option Nat := none
deriving DecidableEq, Repr

/-- What works on an assembler and may fail. A failure keeps what was done before it. -/
abbrev Assembly := EStateM Error Assembler

/-- The order of the instruction at an index. There are no orders behind the last one. -/
def orderOf (index : Nat) : Nat :=
  min index lastOrder

namespace Assembler

/-- The order that the next instruction will have. -/
def position (a : Assembler) : Nat :=
  orderOf a.instructions.size

/-- Adds an instruction on the current line and answers its order. -/
def push (operation : LabelledOperation) : Assembly Nat := do
  let order := (← get).position
  modify fun a => { a with instructions := a.instructions.push ⟨operation, a.line⟩ }
  return order

/-- Accepts labels that are not empty. -/
def checkLabel (label : String) : Assembly Unit :=
  if label.isEmpty then throw (.precondition .emptyLabel) else return ()

/-- Whether each key comes right after the one before it, in 32-bit arithmetic. -/
def consecutive : List Int32 → Bool
  | first :: second :: keys => second == first + 1 && consecutive (second :: keys)
  | _ => true

/-- Accepts the keys that a switch of the given kind can have. -/
def checkKeys (kind : SwitchKind) (keys : List Int32) : Assembly Unit :=
  match kind with
  | .lookup => return ()
  | .table =>
    if keys.isEmpty then throw (.precondition .emptyTableSwitch)
    else if consecutive keys then return ()
    else throw (.precondition .scatteredTableSwitch)

/-- Adds an operation whose targets are orders; the sentinels are not for the caller to add. -/
def emit (operation : Operation) : Assembly Nat :=
  if operation.isSentinel then throw (.precondition (.emittedSentinel operation.mnemonic))
  else push (.resolved operation)

/-- Adds a jump to a label. -/
def jump (operation : String → LabelledOperation) (label : String) : Assembly Nat := do
  checkLabel label
  push (operation label)

/-- Adds a switch. Its labels are not looked at before the end. -/
def switch (kind : SwitchKind) (fallback : String) (cases : List (Int32 × String)) :
    Assembly Nat := do
  checkKeys kind (cases.map Prod.fst)
  push (.switch kind fallback cases)

/-- Names the next instruction. -/
def define (label : String) : Assembly Unit := do
  checkLabel label
  match (← get).labels.lookup label with
  | some _ => throw (.duplicateLabel label)
  | none => modify fun a => { a with labels := (label, a.position) :: a.labels }

/-- Protects a range of instructions. -/
def protect (range : LabelledRange) : Assembly Unit := do
  checkLabel range.start
  checkLabel range.stop
  checkLabel range.handler
  modify fun a => { a with ranges := a.ranges.push range }

/-- Declares a variable. -/
def declare (lifetime : LabelledLifetime) : Assembly Unit :=
  modify fun a => { a with lifetimes := a.lifetimes.push lifetime }

/-- Sets the line of the instructions that follow. -/
def setLine (number : Nat) : Assembly Unit :=
  modify fun a => { a with line := some number }

/-- Performs a step. One that adds an instruction answers its order. -/
def step : AssemblyStep → Assembly (Option Nat)
  | .emit operation => some <$> emit operation
  | .branch condition label => some <$> jump (.branch condition) label
  | .goto label => some <$> jump .goto label
  | .jumpSubroutine label => some <$> jump .jumpSubroutine label
  | .returnFromSubroutine slot => some <$> push (.returnFromSubroutine slot)
  | .switch kind fallback cases => some <$> switch kind fallback cases
  | .define label => (fun _ => none) <$> define label
  | .protect range => (fun _ => none) <$> protect range
  | .declare lifetime => (fun _ => none) <$> declare lifetime
  | .line number => (fun _ => none) <$> setLine number

/-- The order that a label names. -/
def resolve (a : Assembler) (label : String) : Except Error Nat :=
  match a.labels.lookup label with
  | some position => .ok position
  | none => .error (.undefinedLabel label)

/-- The order of the instruction that a label names, as the target of a jump. -/
def target (a : Assembler) (label : String) : Except Error Int := do
  let position ← a.resolve label
  if a.position ≤ position then throw (.precondition (.jumpToEnd label))
  return position

/-- The orders behind the subroutine jumps to labels. -/
def subroutineReturns (a : Assembler) : List Int :=
  ((List.range a.instructions.size).zip a.instructions.toList).filterMap
    fun (index, instruction) =>
      match instruction.operation with
      | .jumpSubroutine _ => some (orderOf index + 1)
      | _ => none

/-- An operation with orders in place of its labels. -/
def resolveOperation (a : Assembler) : LabelledOperation → Except Error Operation
  | .resolved operation => .ok operation
  | .branch condition label => .branch condition <$> a.target label
  | .goto label => .goto <$> a.target label
  | .jumpSubroutine label => .jumpSubroutine <$> a.target label
  | .returnFromSubroutine slot => .ok (.returnFromSubroutine slot a.subroutineReturns)
  | .switch kind fallback cases => do
    let fallback ← a.target fallback
    let cases ← cases.mapM fun (key, label) => (key, ·) <$> a.target label
    return .switch kind fallback cases

/-- The instruction at an index. Its label is the text of its operation. -/
def resolveInstruction (a : Assembler) (index : Nat) (instruction : LabelledInstruction) :
    Except Error Instruction := do
  let operation ← a.resolveOperation instruction.operation
  let resolved ← Instruction.of a.method (orderOf index) operation.text operation
  return { resolved with line := instruction.line }

/-- A handler range with orders in place of its labels. -/
def resolveRange (a : Assembler) (range : LabelledRange) : Except Error HandlerRange := do
  let start ← a.resolve range.start
  let stop ← a.resolve range.stop
  let handler ← a.target range.handler
  HandlerRange.of start stop handler range.catchType

/-- A variable lifetime with orders in place of its labels. -/
def resolveLifetime (a : Assembler) (lifetime : LabelledLifetime) :
    Except Error VariableLifetime := do
  let start ← a.resolve lifetime.start
  let stop ← a.resolve lifetime.stop
  VariableLifetime.of lifetime.name lifetime.descriptor lifetime.slot start stop

/-- The finished body: instructions, handlers and variables are resolved in turn. -/
def finish (a : Assembler) : Except Error MethodBody := do
  let instructions ← ((List.range a.instructions.size).zip a.instructions.toList).mapM
    fun (index, instruction) => a.resolveInstruction index instruction
  let handlers ← a.ranges.toList.mapM a.resolveRange
  let locals ← a.lifetimes.toList.mapM a.resolveLifetime
  return ⟨a.method, instructions, handlers, locals⟩

end Assembler

end BytecodeFlow
