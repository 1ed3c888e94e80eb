import BytecodeFlow.Error
import BytecodeFlow.StackType

/-!
# Descriptors

The grammar in which the types of fields and methods are written:

* a field type is one of the letters `B C D F I J S Z`, or `L` name `;` with a non-empty name, or
  `[` and a field type;
* a method type is `(`, any number of field types, `)`, and a field type or `V`.

Reading yields the derivation, a value of `FieldType` or `MethodType`; `FieldType.text` writes it
back. A derivation is reduced to the stack types that values of its type have.
-/

namespace BytecodeFlow

/-- The type of a field, a parameter or a result. -/
inductive FieldType where
  | byte
  | char
  | double
  | float
  | int
  | long
  | short
  | boolean
  | object (name : String)
  | array (element : FieldType)
deriving DecidableEq, Repr

namespace FieldType

/-- The descriptor of a type. -/
def text : FieldType → String
  | .byte => "B"
  | .char => "C"
  | .double => "D"
  | .float => "F"
  | .int => "I"
  | .long => "J"
  | .short => "S"
  | .boolean => "Z"
  | .object name => "L" ++ name ++ ";"
  | .array element => "[" ++ element.text

/-- The stack type of values of a type. Arrays are references named by their descriptor. -/
def stackType : FieldType → StackType
  | .byte | .char | .int | .short | .boolean => .int
  | .long => .long
  | .float => .float
  | .double => .double
  | .object name => .ofClass name
  | .array element => .ofClass (array element).text

/-- The type that a single letter stands for. -/
def ofLetter? : Char → Option FieldType
  | 'B' => some .byte
  | 'C' => some .char
  | 'D' => some .double
  | 'F' => some .float
  | 'I' => some .int
  | 'J' => some .long
  | 'S' => some .short
  | 'Z' => some .boolean
  | _ => none

/-- How a message shows a character that starts no type: as the character numbered like the first
byte of its UTF-8 encoding. -/
def leadByte (c : Char) : Char :=
  match String.utf8EncodeChar c with
  | lead :: _ => Char.ofNat lead.toNat
  | [] => c

/-- Reads a class name up to its semicolon. -/
def readClassName (cs : List Char) : Except DescriptorFault (FieldType × List Char) :=
  match cs.takeWhile (· != ';'), cs.dropWhile (· != ';') with
  | _, [] => .error .unterminatedClassName
  | [], _ :: _ => .error .emptyClassName
  | name, _ :: rest => .ok (.object (String.ofList name), rest)

/-- Reads one field type and leaves the characters behind it. -/
def read : List Char → Except DescriptorFault (FieldType × List Char)
  | [] => .error .missingType
  | 'L' :: cs => readClassName cs
  | '[' :: cs => do
    let (element, rest) ← read cs
    return (.array element, rest)
  | c :: cs =>
    match ofLetter? c with
    | some type => .ok (type, cs)
    | none => .error (.unexpected (leadByte c))

theorem readClassName_shorter {cs : List Char} {type : FieldType} {rest : List Char}
    (h : readClassName cs = .ok (type, rest)) : rest.length < cs.length := by
  unfold readClassName at h
  have hle : (cs.dropWhile (· != ';')).length ≤ cs.length :=
    (List.dropWhile_suffix _).length_le
  split at h
  · simp at h
  · simp at h
  · next heq _ =>
    rw [heq, List.length_cons] at hle
    simp only [Except.ok.injEq, Prod.mk.injEq] at h
    rw [← h.2]
    omega

/-- Reading a type uses up at least one character. -/
theorem read_shorter {cs : List Char} {type : FieldType} {rest : List Char}
    (h : read cs = .ok (type, rest)) : rest.length < cs.length := by
  fun_induction read cs generalizing type rest with
  | case1 => simp at h
  | case2 cs => exact Nat.lt_succ_of_lt (readClassName_shorter h)
  | case3 cs ih =>
    cases hr : read cs with
    | error fault => simp [hr, bind, Except.bind] at h
    | ok result =>
      simp only [hr, bind, Except.bind, pure, Except.pure, Except.ok.injEq, Prod.mk.injEq] at h
      have := ih hr
      rw [← h.2, List.length_cons]
      omega
  | case4 c cs => simp_all
  | case5 c cs => simp at h

/-- The type that a field descriptor stands for. -/
def parse (descriptor : String) : Except Error FieldType :=
  match read descriptor.toList with
  | .ok (type, []) => .ok type
  | .ok _ => .error (.malformedDescriptor descriptor .trailingField)
  | .error fault => .error (.malformedDescriptor descriptor fault)

end FieldType

/-- The type of a method; a method without a result returns nothing. -/
structure MethodType where
  parameters : List FieldType
  returns : Option FieldType
deriving DecidableEq, Repr

namespace MethodType

/-- The stack types of the parameters, in order. -/
def parameterTypes (type : MethodType) : List StackType :=
  type.parameters.map FieldType.stackType

/-- The stack type of the result, `void` if there is none. -/
def returnType (type : MethodType) : StackType :=
  match type.returns with
  | some returns => returns.stackType
  | none => .void

/-- Reads parameter types up to the closing parenthesis. -/
def readParameters (cs : List Char) : Except DescriptorFault (List FieldType × List Char) :=
  match cs with
  | [] => .error .unterminatedParameters
  | ')' :: cs => .ok ([], cs)
  | cs =>
    match h : FieldType.read cs with
    | .error fault => .error fault
    | .ok (type, rest) =>
      have := FieldType.read_shorter h
      match readParameters rest with
      | .error fault => .error fault
      | .ok (types, rest) => .ok (type :: types, rest)
termination_by cs.length

/-- Reads the type of a result. -/
def readReturn : List Char → Except DescriptorFault (Option FieldType × List Char)
  | 'V' :: cs => .ok (none, cs)
  | cs => do
    let (type, rest) ← FieldType.read cs
    return (some type, rest)

/-- Reads a whole method type. -/
def read : List Char → Except DescriptorFault MethodType
  | '(' :: cs => do
    let (parameters, rest) ← readParameters cs
    match ← readReturn rest with
    | (returns, []) => return ⟨parameters, returns⟩
    | _ => .error .trailingMethod
  | _ => .error .noOpeningParenthesis

/-- The type that a method descriptor stands for. -/
def parse (descriptor : String) : Except Error MethodType :=
  (read descriptor.toList).mapError (Error.malformedDescriptor descriptor)

end MethodType

end BytecodeFlow
