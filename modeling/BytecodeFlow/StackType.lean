/-!
# Stack types

The verification type of one operand stack value. Values of the small integral types are held as
`int`. A value occupies one stack word, except that `long` and `double` occupy two and `void`,
which stands for the absence of a value, occupies none.

Two types are compared in two ways. `satisfies` asks whether a value may be consumed where a
constraint is expected; classes are not compared, since no class hierarchy is known. `merge` joins
two values that meet where control flow joins; a placeholder gives way to what is known, and two
different classes meet in the class of all objects.
-/

namespace BytecodeFlow

/-- The class that every class extends. -/
def objectClass : String := "java/lang/Object"

/-- The class of the value that an exception handler receives. -/
def throwableClass : String := "java/lang/Throwable"

/-- The type of one operand stack value. -/
inductive StackType where
  | int
  | long
  | float
  | double
  /-- an object or array, with its class name or array descriptor if it is known -/
  | reference (name : Option String)
  | returnAddress
  /-- one word of unknown type -/
  | any
  /-- no value -/
  | void
deriving DecidableEq, Repr

namespace StackType

/-- A reference to a known class or array type. -/
def ofClass (name : String) : StackType :=
  .reference (some name)

/-- The number of stack words that a value occupies. -/
def words : StackType → Nat
  | .long | .double => 2
  | .void => 0
  | _ => 1

/-- Whether a value occupies two words. -/
def isWide (t : StackType) : Bool :=
  t.words == 2

/-- Whether a value of type `found` may be consumed where `constraint` is expected. An unknown word
stands for every one-word type, on either side, and a return address may be kept where a reference
is expected. -/
def satisfies (found constraint : StackType) : Bool :=
  match constraint, found with
  | .void, _ => false
  | _, .void => false
  | .any, other => other.words == 1
  | other, .any => other.words == 1
  | .reference _, .reference _ => true
  | .reference _, .returnAddress => true
  | expected, actual => expected == actual

/-- The type of a value that is `left` or `right`, depending on how control got there, or nothing
if no type covers both. -/
def merge (left right : StackType) : Option StackType :=
  if left = right then some left
  else match left, right with
    | .void, _ => none
    | _, .void => none
    | .any, other => if other.words = 1 then some other else none
    | other, .any => if other.words = 1 then some other else none
    | .reference none, .reference name => some (.reference name)
    | .reference none, .returnAddress => some .returnAddress
    | .reference name, .reference none => some (.reference name)
    | .returnAddress, .reference none => some .returnAddress
    | .reference (some _), .reference (some _) => some (ofClass objectClass)
    | _, _ => none

/-- The name of a type in messages. -/
def text : StackType → String
  | .int => "int"
  | .long => "long"
  | .float => "float"
  | .double => "double"
  | .reference (some name) => "ref " ++ name
  | .reference none => "ref"
  | .returnAddress => "returnAddress"
  | .any => "any"
  | .void => "void"

end StackType

end BytecodeFlow
