import BytecodeFlow.Descriptor

/-!
# Variable tables

The declared types of the local variables, each over the instructions where it is live. The
instruction just before a lifetime belongs to it as well: it is the store that gives the variable
its first value.
-/

namespace BytecodeFlow

/-- The lifetime `[start, stop)` of a declared local variable. -/
structure VariableLifetime where
  name : String
  descriptor : String
  slot : Nat
  start : Int
  stop : Int
  stackType : StackType
deriving DecidableEq, Repr

namespace VariableLifetime

/-- The lifetime of a variable with a name and a well-formed descriptor. -/
def of (name descriptor : String) (slot : Nat) (start stop : Int) :
    Except Error VariableLifetime :=
  if name.isEmpty then .error (.precondition (.unnamedVariable slot))
  else if stop < start then .error (.precondition (.invertedLifetime name start stop))
  else do
    let type ← FieldType.parse descriptor
    return ⟨name, descriptor, slot, start, stop, type.stackType⟩

/-- Whether the variable is the one in `slot` for the instruction at `order`. -/
def covers (lifetime : VariableLifetime) (slot : Nat) (order : Int) : Bool :=
  lifetime.slot == slot && lifetime.start ≤ order + 1 && order < lifetime.stop

end VariableLifetime

/-- The declared local variables of a method, in the order of their declaration. -/
abbrev VariableTable := List VariableLifetime

namespace VariableTable

/-- The first declared variable in `slot` for the instruction at `order`. -/
def lookup (table : VariableTable) (slot : Nat) (order : Int) : Option VariableLifetime :=
  table.find? (·.covers slot order)

/-- The declared type of the variable in `slot` for the instruction at `order`. -/
def typeAt (table : VariableTable) (slot : Nat) (order : Int) : Option StackType :=
  (lookup table slot order).map VariableLifetime.stackType

end VariableTable

end BytecodeFlow
