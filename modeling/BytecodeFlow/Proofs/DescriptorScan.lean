import BytecodeFlow.Descriptor.Scan
import BytecodeFlow.Proofs.DescriptorGrammar

/-!
# Scanning descriptors by bytes

The scan of a descriptor by byte positions follows the reader by characters. A position is told by
the characters behind it (`positionOf`): the bytes from there on are their encoding
(`drop_positionOf`), and the text between two such positions can be sliced (`slice_positionOf`). In
the encoding of a text the byte of an ASCII character stands for that character only
(`findIdx?_encode`), so a semicolon that is found by its byte is one.
-/

namespace BytecodeFlow

namespace DescriptorScan

/-! ## Bytes of characters -/

/-- The bytes of characters. -/
def encode (cs : List Char) : List UInt8 :=
  cs.flatMap String.utf8EncodeChar

@[simp] theorem encode_nil : encode [] = [] := rfl

@[simp] theorem encode_cons (c : Char) (cs : List Char) :
    encode (c :: cs) = String.utf8EncodeChar c ++ encode cs := rfl

@[simp] theorem encode_append (cs ds : List Char) : encode (cs ++ ds) = encode cs ++ encode ds :=
  List.flatMap_append

theorem bytesOf_eq (text : String) : bytesOf text = encode text.toList := by
  rw [bytesOf, ← String.utf8Encode_toList]
  exact List.toList_data_toByteArray

theorem bytesOf_ofList (cs : List Char) : bytesOf (String.ofList cs) = encode cs := by
  rw [bytesOf_eq, String.toList_ofList]

theorem length_bytesOf (text : String) : (bytesOf text).length = text.utf8ByteSize := by
  rw [← String.size_toByteArray]
  exact Array.length_toList

theorem bytesOf_inj {first second : String} (h : bytesOf first = bytesOf second) :
    first = second :=
  String.toByteArray_inj.mp (ByteArray.ext (Array.toList_inj.mp h))

theorem toNat_charOf (byte : UInt8) : (charOf byte).toNat = byte.toNat := by
  have := byte.toNat_lt
  rw [charOf, Char.ofNat, dif_pos (Or.inl (by omega))]
  rfl

/-- A character below 128 is one byte, which stands for it. -/
theorem exists_byte_of_ascii {c : Char} (hAscii : c.toNat < 128) :
    ∃ byte, String.utf8EncodeChar c = [byte] ∧ charOf byte = c := by
  have hVal : c.toNat = c.val.toNat := rfl
  refine ⟨UInt8.ofNat c.toNat, ?_, ?_⟩
  · unfold String.utf8EncodeChar
    rw [if_pos (by omega), hVal]
  · have hNat : (UInt8.ofNat c.toNat).toNat = c.toNat := by
      rw [UInt8.toNat_ofNat']
      omega
    rw [charOf, hNat, Char.ofNat_toNat]

/-- The bytes of the other characters stand for no character below 128. -/
theorem toNat_byte_of_wide {c : Char} (hWide : 128 ≤ c.toNat) {byte : UInt8}
    (hByte : byte ∈ String.utf8EncodeChar c) : 128 ≤ byte.toNat := by
  have hVal : c.toNat = c.val.toNat := rfl
  unfold String.utf8EncodeChar at hByte
  simp only at hByte
  split at hByte
  · omega
  · split at hByte
    · simp only [List.mem_cons, List.not_mem_nil, or_false] at hByte
      rcases hByte with rfl | rfl <;> rw [UInt8.toNat_ofNat'] <;> omega
    · split at hByte
      · simp only [List.mem_cons, List.not_mem_nil, or_false] at hByte
        rcases hByte with rfl | rfl | rfl <;> rw [UInt8.toNat_ofNat'] <;> omega
      · simp only [List.mem_cons, List.not_mem_nil, or_false] at hByte
        rcases hByte with rfl | rfl | rfl | rfl <;> rw [UInt8.toNat_ofNat'] <;> omega

/-- The first byte of a character shows it as messages do. -/
theorem exists_lead (c : Char) :
    ∃ lead tail, String.utf8EncodeChar c = lead :: tail ∧ charOf lead = FieldType.leadByte c := by
  cases hBytes : String.utf8EncodeChar c with
  | nil =>
    have hPos := c.utf8Size_pos
    rw [← String.length_utf8EncodeChar, hBytes] at hPos
    cases hPos
  | cons lead tail =>
    refine ⟨lead, tail, rfl, ?_⟩
    simp only [FieldType.leadByte, hBytes]
    rfl

/-- Only the byte of an ASCII character stands for it. -/
theorem charOf_eq_iff {c ascii : Char} (hAscii : ascii.toNat < 128) {byte : UInt8}
    (hByte : byte ∈ String.utf8EncodeChar c) : charOf byte = ascii ↔ c = ascii := by
  by_cases hWide : 128 ≤ c.toNat
  · have hHigh := toNat_byte_of_wide hWide hByte
    constructor
    · intro h
      rw [← toNat_charOf, h] at hHigh
      omega
    · intro h
      rw [h] at hWide
      omega
  · obtain ⟨single, hSingle, hChar⟩ := exists_byte_of_ascii (c := c) (by omega)
    rw [hSingle, List.mem_singleton] at hByte
    rw [hByte, hChar]

theorem findIdx?_encode_of_not_mem {cs : List Char} {ascii : Char} (hAscii : ascii.toNat < 128)
    (hMem : ascii ∉ cs) : (encode cs).findIdx? (charOf · == ascii) = none := by
  rw [List.findIdx?_eq_none_iff]
  intro byte hByte
  obtain ⟨c, hc, hByte⟩ := List.mem_flatMap.mp hByte
  rw [beq_eq_false_iff_ne]
  intro h
  rw [charOf_eq_iff hAscii hByte] at h
  exact hMem (h ▸ hc)

/-- A character below 128 is found by its byte where it first stands. -/
theorem findIdx?_encode {cs : List Char} (rest : List Char) {ascii : Char}
    (hAscii : ascii.toNat < 128) (hMem : ascii ∉ cs) :
    (encode (cs ++ ascii :: rest)).findIdx? (charOf · == ascii) = some (encode cs).length := by
  obtain ⟨byte, hBytes, hChar⟩ := exists_byte_of_ascii hAscii
  rw [encode_append, encode_cons, hBytes, List.findIdx?_append,
    findIdx?_encode_of_not_mem hAscii hMem]
  simp [List.findIdx?_cons, hChar]

/-! ## Positions -/

/-- The byte position behind which the given characters are left of a text. -/
def positionOf (text : String) (rest : List Char) : Nat :=
  (bytesOf text).length - (encode rest).length

variable {text : String}

theorem positionOf_add (used : List Char) {rest : List Char}
    (h : used ++ rest <:+ text.toList) :
    positionOf text (used ++ rest) + (encode used).length = positionOf text rest := by
  obtain ⟨before, hText⟩ := h
  simp only [positionOf, bytesOf_eq, ← hText, encode_append, List.length_append]
  omega

theorem positionOf_cons_ascii {c : Char} {rest : List Char} (hAscii : c.toNat < 128)
    (h : c :: rest <:+ text.toList) : positionOf text (c :: rest) + 1 = positionOf text rest := by
  obtain ⟨byte, hBytes, -⟩ := exists_byte_of_ascii hAscii
  rw [← positionOf_add [c] h]
  simp [hBytes]

@[simp] theorem positionOf_toList : positionOf text text.toList = 0 := by
  rw [positionOf, bytesOf_eq]
  omega

theorem drop_positionOf {rest : List Char} (h : rest <:+ text.toList) :
    (bytesOf text).drop (positionOf text rest) = encode rest := by
  obtain ⟨before, hText⟩ := h
  have hLength : positionOf text rest = (encode before).length := by
    simp only [positionOf, bytesOf_eq, ← hText, encode_append, List.length_append]
    omega
  rw [hLength, bytesOf_eq, ← hText, encode_append, List.drop_left]

theorem getElem?_positionOf {rest : List Char} (h : rest <:+ text.toList) :
    (bytesOf text)[positionOf text rest]? = (encode rest).head? := by
  rw [← drop_positionOf h, List.head?_drop]

theorem encode_eq_nil_iff {cs : List Char} : encode cs = [] ↔ cs = [] := by
  constructor
  · intro h
    cases cs with
    | nil => rfl
    | cons c cs =>
      obtain ⟨lead, tail, hBytes, -⟩ := exists_lead c
      rw [encode_cons, hBytes] at h
      cases h
  · intro h
    rw [h, encode_nil]

theorem positionOf_eq_length_iff {rest : List Char} (h : rest <:+ text.toList) :
    positionOf text rest = (bytesOf text).length ↔ rest = [] := by
  rw [← encode_eq_nil_iff, ← drop_positionOf h, List.drop_eq_nil_iff]
  have : positionOf text rest ≤ (bytesOf text).length := Nat.sub_le _ _
  omega

theorem isValid_positionOf {rest : List Char} (h : rest <:+ text.toList) :
    String.Pos.Raw.IsValid text ⟨positionOf text rest⟩ := by
  obtain ⟨before, hText⟩ := h
  rw [String.Pos.Raw.isValid_iff_exists_append]
  refine ⟨String.ofList before, String.ofList rest, ?_, ?_⟩
  · rw [← String.ofList_append, hText, String.ofList_toList]
  · ext
    rw [String.byteIdx_rawEndPos, ← length_bytesOf, bytesOf_ofList]
    simp only [positionOf, bytesOf_eq, ← hText, encode_append, List.length_append]
    omega

/-- A text can be sliced between the positions that characters are left behind. -/
theorem slice_positionOf {used rest : List Char} (h : used ++ rest <:+ text.toList) :
    slice text (positionOf text (used ++ rest)) (positionOf text rest) =
      .ok (String.ofList used) := by
  have hRest : rest <:+ text.toList := (List.suffix_append used rest).trans h
  have hAdd := positionOf_add _ h
  rw [slice, dif_pos ⟨by omega, isValid_positionOf h, isValid_positionOf hRest⟩]
  apply congrArg Except.ok
  apply bytesOf_inj
  rw [bytesOf, String.toByteArray_extract, String.offset_pos, String.offset_pos,
    ByteArray.data_extract, Array.toList_extract, List.extract_eq_take_drop]
  change ((bytesOf text).drop _).take _ = _
  rw [drop_positionOf h, bytesOf_ofList, ← hAdd, Nat.add_sub_cancel_left, encode_append,
    List.take_left]

/-! ## Types -/

/-- What a reader by characters finds, told as a scan tells it. -/
def asScan {α β : Type} (text : String) (reduce : α → β)
    (found : Except DescriptorFault (α × List Char)) : Except ScanStop (β × Nat) :=
  match found with
  | .ok (result, rest) => .ok (reduce result, positionOf text rest)
  | .error fault => .error (.malformed fault)

theorem scanClassName_eq {cs : List Char} (h : cs <:+ text.toList) :
    scanClassName text (positionOf text cs) (encode cs) =
      asScan text FieldType.stackType (FieldType.readClassName cs) := by
  by_cases hMem : ';' ∈ cs
  · obtain ⟨name, rest, rfl, hPlain⟩ := List.eq_append_cons_of_mem hMem
    have hFind := findIdx?_encode rest (by decide) hPlain
    by_cases hName : name = []
    · subst hName
      rw [List.nil_append, encode_nil, List.length_nil] at hFind
      simp only [scanClassName, List.nil_append, hFind]
      rw [FieldType.readClassName_semicolon]
      rfl
    · rw [FieldType.readClassName_append hName hPlain]
      have hSlice := slice_positionOf h
      have hAdd := positionOf_add _ h
      have hSemicolon := positionOf_cons_ascii (c := ';') (by decide)
        ((List.suffix_append name _).trans h)
      have hLength : (encode name).length ≠ 0 := by
        rw [Ne, List.length_eq_zero_iff, encode_eq_nil_iff]
        exact hName
      rw [← hAdd] at hSlice hSemicolon
      simp only [scanClassName, hFind]
      rw [hSlice, hSemicolon]
      rfl
  · simp only [scanClassName, findIdx?_encode_of_not_mem (by decide) hMem]
    rw [FieldType.readClassName_of_not_mem hMem]
    rfl

theorem scanType_className {allowVoid : Bool} {start : Nat} {tag : UInt8} {bytes : List UInt8}
    (h : charOf tag = 'L') :
    scanType text allowVoid start (tag :: bytes) = scanClassName text (start + 1) bytes := by
  simp only [scanType, h]

theorem scanType_array {allowVoid : Bool} {start : Nat} {tag : UInt8} {bytes : List UInt8}
    (h : charOf tag = '[') :
    scanType text allowVoid start (tag :: bytes) = do
      let (_, stop) ← scanType text false (start + 1) bytes
      let name ← slice text start stop
      return (.ofClass name, stop) := by
  simp only [scanType, h]

theorem scanType_letter {allowVoid : Bool} {start : Nat} {tag : UInt8} {bytes : List UInt8}
    (hObject : charOf tag ≠ 'L') (hArray : charOf tag ≠ '[') :
    scanType text allowVoid start (tag :: bytes) =
      match letterType? allowVoid (charOf tag) with
      | some type => .ok (type, start + 1)
      | none => .error (.malformed (.unexpected (charOf tag))) := by
  rw [scanType]
  split
  · contradiction
  · contradiction
  · rfl

theorem letterType?_eq {allowVoid : Bool} {c : Char} (hVoid : allowVoid = true → c ≠ 'V') :
    letterType? allowVoid c = (FieldType.ofLetter? c).map FieldType.stackType := by
  cases hLetter : FieldType.ofLetter? c with
  | some type =>
    unfold FieldType.ofLetter? at hLetter
    split at hLetter <;> cases hLetter <;> rfl
  | none =>
    unfold letterType?
    split <;> simp_all [FieldType.ofLetter?]

theorem ofLetter?_eq_none_of_wide {c : Char} (hWide : 128 ≤ c.toNat) :
    FieldType.ofLetter? c = none := by
  cases hLetter : FieldType.ofLetter? c with
  | none => rfl
  | some type =>
    unfold FieldType.ofLetter? at hLetter
    split at hLetter <;> cases hLetter <;> exact absurd hWide (by decide)

/-- How a character is scanned that starts neither a class name nor an array. A character above 127
is known from its first byte, which is no letter either. -/
theorem scanType_encode_letter {allowVoid : Bool} (start : Nat) {c : Char} {cs : List Char}
    (hObject : c ≠ 'L') (hArray : c ≠ '[') (hVoid : allowVoid = true → c ≠ 'V') :
    scanType text allowVoid start (encode (c :: cs)) =
      match FieldType.ofLetter? c with
      | some type => .ok (type.stackType, start + 1)
      | none => .error (.malformed (.unexpected (FieldType.leadByte c))) := by
  obtain ⟨lead, tail, hBytes, hLead⟩ := exists_lead c
  have hMem : lead ∈ String.utf8EncodeChar c := by simp [hBytes]
  rw [encode_cons, hBytes, List.cons_append,
    scanType_letter (by rwa [Ne, charOf_eq_iff (by decide) hMem])
      (by rwa [Ne, charOf_eq_iff (by decide) hMem]),
    letterType?_eq (by rwa [Ne, charOf_eq_iff (by decide) hMem]), hLead]
  by_cases hWide : 128 ≤ c.toNat
  · have hHigh := toNat_byte_of_wide hWide hMem
    rw [← toNat_charOf, hLead] at hHigh
    rw [ofLetter?_eq_none_of_wide hWide, ofLetter?_eq_none_of_wide hHigh]
    rfl
  · have hSame : FieldType.leadByte c = c := by
      rw [← hLead, charOf_eq_iff (by omega) hMem]
    rw [hSame]
    cases FieldType.ofLetter? c <;> rfl

/-- The scan of a type that is not `void` follows the reader. -/
theorem scanType_eq (allowVoid : Bool) {cs : List Char} (h : cs <:+ text.toList)
    (hVoid : allowVoid = true → cs.head? ≠ some 'V') :
    scanType text allowVoid (positionOf text cs) (encode cs) =
      asScan text FieldType.stackType (FieldType.read cs) := by
  fun_induction FieldType.read cs generalizing allowVoid with
  | case1 => rfl
  | case2 cs =>
    obtain ⟨byte, hBytes, hChar⟩ := exists_byte_of_ascii (c := 'L') (by decide)
    rw [encode_cons, hBytes, List.singleton_append, scanType_className hChar,
      positionOf_cons_ascii (by decide) h]
    exact scanClassName_eq ((List.suffix_cons _ _).trans h)
  | case3 cs ih =>
    obtain ⟨byte, hBytes, hChar⟩ := exists_byte_of_ascii (c := '[') (by decide)
    have hElement := ih false ((List.suffix_cons _ _).trans h) (by simp)
    rw [encode_cons, hBytes, List.singleton_append, scanType_array hChar,
      positionOf_cons_ascii (by decide) h, hElement]
    cases hRead : FieldType.read cs with
    | error fault => rfl
    | ok found =>
      obtain ⟨element, rest⟩ := found
      obtain ⟨used, rfl, hUsed⟩ := FieldType.exists_derives_of_read hRead
      have hText := (FieldType.Derives.array hUsed).toList_text
      change (slice text (positionOf text ('[' :: used ++ rest)) (positionOf text rest) >>= _) = _
      rw [slice_positionOf h, ← hText, String.ofList_toList]
      rfl
  | case4 c cs hObject hArray type hLetter =>
    have hAscii : c.toNat < 128 := by
      by_contra hWide
      rw [ofLetter?_eq_none_of_wide (by omega)] at hLetter
      cases hLetter
    rw [scanType_encode_letter _ hObject hArray (by simpa using hVoid), hLetter,
      positionOf_cons_ascii hAscii h]
    rfl
  | case5 c cs hObject hArray hLetter =>
    rw [scanType_encode_letter _ hObject hArray (by simpa using hVoid), hLetter]
    rfl

theorem fieldType_eq (descriptor : String) :
    fieldType descriptor =
      match FieldType.read descriptor.toList with
      | .ok (type, []) => .ok type.stackType
      | .ok _ => .error (.malformed .trailingField)
      | .error fault => .error (.malformed fault) := by
  have hScan := scanType_eq false (List.suffix_refl descriptor.toList) (by simp)
  rw [positionOf_toList, ← bytesOf_eq] at hScan
  simp only [fieldType, hScan]
  cases hRead : FieldType.read descriptor.toList with
  | error fault => rfl
  | ok found =>
    obtain ⟨type, rest⟩ := found
    obtain ⟨used, hUsed, -⟩ := FieldType.exists_derives_of_read hRead
    have hSuffix : rest <:+ descriptor.toList := ⟨used, hUsed.symm⟩
    have hEnd := positionOf_eq_length_iff hSuffix
    simp only [asScan, bind, Except.bind, hEnd]
    cases rest <;> rfl

/-! ## Methods -/

theorem scanParameters_of_end {bytes : List UInt8} {start : Nat} (h : bytes[start]? = none) :
    scanParameters text bytes start = .error (.malformed .unterminatedParameters) := by
  rw [scanParameters.eq_def]
  split
  · rfl
  · next hByte =>
    rw [h] at hByte
    cases hByte

theorem scanParameters_of_byte {bytes : List UInt8} {start : Nat} {byte : UInt8}
    (h : bytes[start]? = some byte) :
    scanParameters text bytes start =
      if charOf byte = ')' then .ok ([], start + 1)
      else do
        let (type, next) ← scanType text false start (bytes.drop start)
        let (types, stop) ← scanParameters text bytes next
        return (type :: types, stop) := by
  rw [scanParameters.eq_def]
  split
  · next hByte =>
    rw [h] at hByte
    cases hByte
  · next other hByte =>
    rw [h] at hByte
    cases hByte
    by_cases hClose : charOf byte = ')'
    · rw [if_pos hClose, if_pos hClose]
    · rw [if_neg hClose, if_neg hClose]
      split
      · next hType =>
        rw [hType]
        rfl
      · next next hType =>
        simp only [hType, bind, Except.bind]
        cases scanParameters text bytes next <;> rfl

/-- The scan of parameters follows the reader. -/
theorem scanParameters_eq {cs : List Char} (h : cs <:+ text.toList) :
    scanParameters text (bytesOf text) (positionOf text cs) =
      asScan text (List.map FieldType.stackType) (MethodType.readParameters cs) := by
  induction hLength : cs.length using Nat.strong_induction_on generalizing cs with
  | _ length ih =>
    have hByte := getElem?_positionOf h
    cases cs with
    | nil =>
      rw [scanParameters_of_end hByte, MethodType.readParameters]
      rfl
    | cons c rest =>
      obtain ⟨lead, tail, hBytes, -⟩ := exists_lead c
      have hMem : lead ∈ String.utf8EncodeChar c := by simp [hBytes]
      have hClose : charOf lead = ')' ↔ c = ')' := charOf_eq_iff (by decide) hMem
      rw [encode_cons, hBytes] at hByte
      rw [scanParameters_of_byte hByte]
      by_cases hEnd : c = ')'
      · subst hEnd
        rw [if_pos (hClose.mpr rfl), positionOf_cons_ascii (by decide) h,
          MethodType.readParameters]
        rfl
      · rw [if_neg (mt hClose.mp hEnd), drop_positionOf h, scanType_eq _ h (by simp),
          MethodType.readParameters_eq_bind (by simp) (by simpa using hEnd)]
        cases hRead : FieldType.read (c :: rest) with
        | error fault => rfl
        | ok found =>
          obtain ⟨type, behind⟩ := found
          obtain ⟨used, hUsed, -⟩ := FieldType.exists_derives_of_read hRead
          have hShorter := FieldType.read_shorter hRead
          have hSuffix : behind <:+ text.toList :=
            (hUsed ▸ List.suffix_append used behind).trans h
          have hRest := ih _ (by omega) hSuffix rfl
          simp only [asScan, bind, Except.bind, hRest]
          cases MethodType.readParameters behind <;> rfl

/-- The stack type of a result. -/
def returnTypeOf (returns : Option FieldType) : StackType :=
  returns.elim .void FieldType.stackType

/-- The scan of a result follows the reader. -/
theorem scanType_return {cs : List Char} (h : cs <:+ text.toList) :
    scanType text true (positionOf text cs) (encode cs) =
      asScan text returnTypeOf (MethodType.readReturn cs) := by
  by_cases hVoid : cs.head? = some 'V'
  · obtain ⟨rest, rfl⟩ := List.head?_eq_some_iff.mp hVoid
    obtain ⟨byte, hBytes, hChar⟩ := exists_byte_of_ascii (c := 'V') (by decide)
    rw [encode_cons, hBytes, List.singleton_append,
      scanType_letter (by rw [hChar]; decide) (by rw [hChar]; decide), hChar,
      positionOf_cons_ascii (by decide) h]
    rfl
  · rw [scanType_eq _ h fun _ => hVoid]
    unfold MethodType.readReturn
    split
    · exact absurd rfl hVoid
    · cases FieldType.read cs <;> rfl

/-- The stack types of a method type. -/
def stackTypesOf (type : MethodType) : MethodStackTypes :=
  ⟨type.parameterTypes, type.returnType⟩

theorem stackTypesOf_mk (parameters : List FieldType) (returns : Option FieldType) :
    stackTypesOf ⟨parameters, returns⟩ =
      ⟨parameters.map FieldType.stackType, returnTypeOf returns⟩ := by
  cases returns <;> rfl

theorem methodType_of_not_opened {descriptor : String}
    (h : descriptor.toList.head? ≠ some '(') :
    methodType descriptor = .error (.malformed .noOpeningParenthesis) := by
  have hHead : (bytesOf descriptor).head?.map charOf ≠ some '(' := by
    rw [bytesOf_eq]
    cases hText : descriptor.toList with
    | nil => simp
    | cons c cs =>
      obtain ⟨lead, tail, hBytes, -⟩ := exists_lead c
      have hChar : charOf lead = '(' ↔ c = '(' := charOf_eq_iff (by decide) (by simp [hBytes])
      rw [hText, List.head?_cons] at h
      simpa [hBytes, hChar] using h
  simp only [methodType, if_neg hHead]
  rfl

theorem methodType_of_opened {descriptor : String} {cs : List Char}
    (h : descriptor.toList = '(' :: cs) :
    methodType descriptor = (do
      let (parameters, next) ← scanParameters descriptor (bytesOf descriptor)
        (positionOf descriptor cs)
      let (returns, stop) ← scanType descriptor true next ((bytesOf descriptor).drop next)
      if stop = (bytesOf descriptor).length then return ⟨parameters, returns⟩
      else throw (.malformed .trailingMethod)) := by
  obtain ⟨byte, hBytes, hChar⟩ := exists_byte_of_ascii (c := '(') (by decide)
  have hHead : (bytesOf descriptor).head?.map charOf = some '(' := by
    rw [bytesOf_eq, h, encode_cons, hBytes]
    simp [hChar]
  have hFirst : positionOf descriptor cs = 1 := by
    rw [← positionOf_cons_ascii (c := '(') (by decide) (h ▸ List.suffix_refl _), ← h,
      positionOf_toList]
  simp only [methodType, if_pos hHead, hFirst]

theorem methodType_eq (descriptor : String) :
    methodType descriptor =
      match MethodType.read descriptor.toList with
      | .ok type => .ok (stackTypesOf type)
      | .error fault => .error (.malformed fault) := by
  by_cases hOpen : descriptor.toList.head? = some '('
  · obtain ⟨cs, hText⟩ := List.head?_eq_some_iff.mp hOpen
    have hSuffix : cs <:+ descriptor.toList := hText ▸ List.suffix_cons _ _
    rw [methodType_of_opened hText, scanParameters_eq hSuffix, hText, MethodType.read]
    cases hParameters : MethodType.readParameters cs with
    | error fault => rfl
    | ok found =>
      obtain ⟨parameters, rest⟩ := found
      obtain ⟨used, hUsed, -⟩ := MethodType.exists_of_readParameters hParameters
      have hRest : rest <:+ descriptor.toList :=
        ⟨'(' :: used ++ [')'], by rw [hText, hUsed]; simp⟩
      simp only [asScan, bind, Except.bind, drop_positionOf hRest, scanType_return hRest]
      cases hReturn : MethodType.readReturn rest with
      | error fault => rfl
      | ok found =>
        obtain ⟨returns, behind⟩ := found
        have hBehind : behind <:+ rest := MethodType.suffix_of_readReturn hReturn
        have hEnd := positionOf_eq_length_iff (hBehind.trans hRest)
        simp only [hEnd]
        cases behind with
        | nil =>
          rw [if_pos rfl]
          exact congrArg Except.ok (stackTypesOf_mk parameters returns).symm
        | cons => rfl
  · rw [methodType_of_not_opened hOpen]
    rw [MethodType.read_of_not_opened hOpen]

/-! ## Acceptance -/

/-- A scan finds what a reader by characters finds, reduced, or stops at the same fault. -/
inductive Agrees {α β : Type} (descriptor : String) (reduce : α → β) :
    Except Error α → Except ScanStop β → Prop
  | ok (type : α) : Agrees descriptor reduce (.ok type) (.ok (reduce type))
  | malformed (fault : DescriptorFault) :
      Agrees descriptor reduce (.error (.malformedDescriptor descriptor fault))
        (.error (.malformed fault))

section Agrees

variable {α β : Type} {descriptor : String} {reduce : α → β} {parsed : Except Error α}
  {scanned : Except ScanStop β}

theorem Agrees.eq_ok_iff (h : Agrees descriptor reduce parsed scanned) {value : β} :
    scanned = .ok value ↔ ∃ type, parsed = .ok type ∧ value = reduce type := by
  cases h <;> simp [eq_comm]

theorem Agrees.of_eq_error (h : Agrees descriptor reduce parsed scanned) {stop : ScanStop}
    (hStop : scanned = .error stop) : ∃ fault, stop = .malformed fault ∧
      parsed = .error (.malformedDescriptor descriptor fault) := by
  cases h with
  | ok => cases hStop
  | malformed fault =>
    cases hStop
    exact ⟨fault, rfl, rfl⟩

end Agrees

theorem fieldType_agrees (descriptor : String) :
    Agrees descriptor FieldType.stackType (FieldType.parse descriptor) (fieldType descriptor) := by
  rw [fieldType_eq, FieldType.parse]
  rcases FieldType.read descriptor.toList with fault | ⟨type, rest⟩
  · exact .malformed fault
  · cases rest with
    | nil => exact .ok type
    | cons => exact .malformed .trailingField

theorem methodType_agrees (descriptor : String) :
    Agrees descriptor stackTypesOf (MethodType.parse descriptor) (methodType descriptor) := by
  rw [methodType_eq, MethodType.parse]
  cases MethodType.read descriptor.toList with
  | error fault => exact .malformed fault
  | ok type => exact .ok type

/-- **Descriptors are read by their grammar.** A field or method descriptor is accepted exactly if
the grammar derives it, and is then reduced along its derivation, of which there is only one; the
reduction of an array is named by the whole descriptor. A scan that does not accept always finds
the descriptor malformed, so it never cuts through a character, and the reader by characters that
the analyses use finds the same derivation or the same fault. -/
theorem descriptors_follow_grammar (descriptor : String) :
    ((∀ value, fieldType descriptor = .ok value ↔
        ∃ type, FieldType.Derives descriptor.toList type ∧ value = type.stackType) ∧
      (∀ first second, FieldType.Derives descriptor.toList first →
        FieldType.Derives descriptor.toList second → first = second) ∧
      (∀ element, FieldType.Derives descriptor.toList (.array element) →
        (FieldType.array element).stackType = .ofClass descriptor) ∧
      (∀ stop, fieldType descriptor = .error stop → ∃ fault, stop = .malformed fault ∧
        FieldType.parse descriptor = .error (.malformedDescriptor descriptor fault)) ∧
      ∀ type, FieldType.parse descriptor = .ok type ↔
        FieldType.Derives descriptor.toList type) ∧
    ((∀ value, methodType descriptor = .ok value ↔
        ∃ type, MethodType.Derives descriptor.toList type ∧ value = stackTypesOf type) ∧
      (∀ first second, MethodType.Derives descriptor.toList first →
        MethodType.Derives descriptor.toList second → first = second) ∧
      (∀ stop, methodType descriptor = .error stop → ∃ fault, stop = .malformed fault ∧
        MethodType.parse descriptor = .error (.malformedDescriptor descriptor fault)) ∧
      ∀ type, MethodType.parse descriptor = .ok type ↔
        MethodType.Derives descriptor.toList type) := by
  have hField := fieldType_agrees descriptor
  have hMethod := methodType_agrees descriptor
  refine ⟨⟨?_, ?_, ?_, ?_, ?_⟩, ⟨?_, ?_, ?_, ?_⟩⟩
  · intro value
    simp only [hField.eq_ok_iff, FieldType.parse_eq_ok_iff]
  · exact fun first second => FieldType.Derives.unique
  · intro element hDerives
    have hText : (FieldType.array element).text = descriptor := by
      rw [← String.ofList_toList (s := descriptor), ← hDerives.toList_text, String.ofList_toList]
    rw [FieldType.stackType, hText]
  · exact fun stop => hField.of_eq_error
  · exact fun type => FieldType.parse_eq_ok_iff
  · intro value
    simp only [hMethod.eq_ok_iff, MethodType.parse_eq_ok_iff]
  · exact fun first second => MethodType.Derives.unique
  · exact fun stop => hMethod.of_eq_error
  · exact fun type => MethodType.parse_eq_ok_iff

example : fieldType "[Lé/😀;" = .ok (.ofClass "[Lé/😀;") := by decide +kernel

example : methodType "(ILé;)é" = .error (.malformed (.unexpected 'Ã')) := by decide +kernel

end DescriptorScan

end BytecodeFlow
