import BytecodeFlow.Descriptor

/-!
# Scanning descriptors

A descriptor is scanned by the bytes of its UTF-8 encoding, at byte positions, and reduced to stack
types on the way. The names of classes and arrays are slices of the descriptor. A slice can only be
taken between characters, so a scan that cuts through one does not end with a fault of the
descriptor: it breaks off (`ScanStop.splitCharacter`).

`FieldType.parse` and `MethodType.parse` read the same grammar by characters.
-/

namespace BytecodeFlow

/-- Why a scan stops before the end. -/
inductive ScanStop where
  /-- the descriptor leaves its grammar -/
  | malformed (fault : DescriptorFault)
  /-- a slice begins or ends inside a character -/
  | splitCharacter (start stop : Nat)
deriving DecidableEq, Repr

/-- The stack types of the parameters of a method, in order, and of its result. -/
structure MethodStackTypes where
  parameters : List StackType
  returns : StackType
deriving DecidableEq, Repr

namespace MethodStackTypes

/-- The number of words that the arguments occupy. -/
def parameterWords (types : MethodStackTypes) : Nat :=
  types.parameters.foldr (fun value rest => value.words + rest) 0

end MethodStackTypes

namespace DescriptorScan

/-- The bytes of a text. -/
def bytesOf (text : String) : List UInt8 :=
  text.toByteArray.data.toList

/-- The character that a byte stands for by itself. -/
def charOf (byte : UInt8) : Char :=
  Char.ofNat byte.toNat

/-- The text between two byte positions. -/
def slice (text : String) (start stop : Nat) : Except ScanStop String :=
  if h : start ≤ stop ∧ String.Pos.Raw.IsValid text ⟨start⟩ ∧ String.Pos.Raw.IsValid text ⟨stop⟩ then
    .ok (text.extract (text.pos ⟨start⟩ h.2.1) (text.pos ⟨stop⟩ h.2.2))
  else .error (.splitCharacter start stop)

/-- The type that a single letter stands for. Only a result may be `void`. -/
def letterType? (allowVoid : Bool) : Char → Option StackType
  | 'B' | 'C' | 'I' | 'S' | 'Z' => some .int
  | 'J' => some .long
  | 'F' => some .float
  | 'D' => some .double
  | 'V' => if allowVoid then some .void else none
  | _ => none

/-- Scans the class name at `start`, where the given bytes begin, and tells the position behind its
semicolon. -/
def scanClassName (descriptor : String) (start : Nat) (bytes : List UInt8) :
    Except ScanStop (StackType × Nat) :=
  match bytes.findIdx? (charOf · == ';') with
  | none => .error (.malformed .unterminatedClassName)
  | some 0 => .error (.malformed .emptyClassName)
  | some length => do
    let name ← slice descriptor start (start + length)
    return (.ofClass name, start + length + 1)

/-- Scans the type at `start`, where the given bytes begin, and tells the position behind it. The
elements of an array are never `void`. -/
def scanType (descriptor : String) (allowVoid : Bool) (start : Nat) :
    List UInt8 → Except ScanStop (StackType × Nat)
  | [] => .error (.malformed .missingType)
  | tag :: bytes =>
    match charOf tag with
    | 'L' => scanClassName descriptor (start + 1) bytes
    | '[' => do
      let (_, stop) ← scanType descriptor false (start + 1) bytes
      let name ← slice descriptor start stop
      return (.ofClass name, stop)
    | letter =>
      match letterType? allowVoid letter with
      | some type => .ok (type, start + 1)
      | none => .error (.malformed (.unexpected letter))

theorem scanClassName_lt {descriptor : String} {start stop : Nat} {bytes : List UInt8}
    {type : StackType} (h : scanClassName descriptor start bytes = .ok (type, stop)) :
    start < stop := by
  unfold scanClassName at h
  split at h
  · cases h
  · cases h
  · next length _ _ =>
    cases hName : slice descriptor start (start + length) with
    | error stop => simp [hName, bind, Except.bind] at h
    | ok name =>
      simp only [hName, bind, Except.bind, pure, Except.pure, Except.ok.injEq, Prod.mk.injEq] at h
      omega

/-- A type takes at least one byte. -/
theorem scanType_lt {descriptor : String} {allowVoid : Bool} {start stop : Nat}
    {bytes : List UInt8} {type : StackType}
    (h : scanType descriptor allowVoid start bytes = .ok (type, stop)) : start < stop := by
  fun_induction scanType descriptor allowVoid start bytes generalizing type stop with
  | case1 => cases h
  | case2 _ start tag bytes =>
    have := scanClassName_lt h
    omega
  | case3 _ start tag bytes _ ih =>
    cases hElement : scanType descriptor false (start + 1) bytes with
    | error stop => simp [hElement, bind, Except.bind] at h
    | ok element =>
      obtain ⟨elementType, behind⟩ := element
      have := ih hElement
      cases hName : slice descriptor start behind with
      | error stop => simp [hElement, hName, bind, Except.bind] at h
      | ok name =>
        simp only [hElement, hName, bind, Except.bind, pure, Except.pure, Except.ok.injEq,
          Prod.mk.injEq] at h
        omega
  | case4 =>
    simp only [Except.ok.injEq, Prod.mk.injEq] at h
    omega
  | case5 => cases h

/-- Scans a field descriptor. -/
def fieldType (descriptor : String) : Except ScanStop StackType := do
  let bytes := bytesOf descriptor
  let (type, stop) ← scanType descriptor false 0 bytes
  if stop = bytes.length then return type
  else throw (.malformed .trailingField)

/-- Scans parameter types up to the closing parenthesis and tells the position behind it. -/
def scanParameters (descriptor : String) (bytes : List UInt8) (start : Nat) :
    Except ScanStop (List StackType × Nat) :=
  match hByte : bytes[start]? with
  | none => .error (.malformed .unterminatedParameters)
  | some byte =>
    have := (List.getElem?_eq_some_iff.1 hByte).1
    if charOf byte = ')' then .ok ([], start + 1)
    else
      match hType : scanType descriptor false start (bytes.drop start) with
      | .error stop => .error stop
      | .ok (type, next) =>
        have := scanType_lt hType
        match scanParameters descriptor bytes next with
        | .error stop => .error stop
        | .ok (types, stop) => .ok (type :: types, stop)
termination_by bytes.length - start

/-- Scans a method descriptor. -/
def methodType (descriptor : String) : Except ScanStop MethodStackTypes := do
  let bytes := bytesOf descriptor
  if bytes.head?.map charOf = some '(' then
    let (parameters, next) ← scanParameters descriptor bytes 1
    let (returns, stop) ← scanType descriptor true next (bytes.drop next)
    if stop = bytes.length then return ⟨parameters, returns⟩
    else throw (.malformed .trailingMethod)
  else throw (.malformed .noOpeningParenthesis)

end DescriptorScan

end BytecodeFlow
