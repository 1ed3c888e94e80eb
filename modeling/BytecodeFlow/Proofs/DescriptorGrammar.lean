import BytecodeFlow.Descriptor
import BytecodeFlow.Proofs.Success
import Mathlib.Data.List.TakeWhile

/-!
# The grammar of descriptors

The productions of descriptors, as derivations of a text (`FieldType.Derives`,
`MethodType.Derives`), and the readers by characters against them:

* a type that is derived from a text is read off the front of every text that starts with it
  (`FieldType.Derives.read_append`), and what is read is derived from what is used up
  (`FieldType.exists_derives_of_read`);
* so a text has at most one derivation, and `FieldType.parse` and `MethodType.parse` find it if
  there is one (`FieldType.parse_eq_ok_iff`, `MethodType.parse_eq_ok_iff`).
-/

namespace BytecodeFlow

namespace FieldType

/-- The field types that a text derives. -/
inductive Derives : List Char → FieldType → Prop
  | byte : Derives ['B'] .byte
  | char : Derives ['C'] .char
  | double : Derives ['D'] .double
  | float : Derives ['F'] .float
  | int : Derives ['I'] .int
  | long : Derives ['J'] .long
  | short : Derives ['S'] .short
  | boolean : Derives ['Z'] .boolean
  | object {name : List Char} (hName : name ≠ []) (hPlain : ';' ∉ name) :
      Derives ('L' :: name ++ [';']) (.object (String.ofList name))
  | array {cs : List Char} {element : FieldType} (hElement : Derives cs element) :
      Derives ('[' :: cs) (.array element)

theorem readClassName_append {name : List Char} (hName : name ≠ []) (hPlain : ';' ∉ name)
    (rest : List Char) :
    readClassName (name ++ ';' :: rest) = .ok (.object (String.ofList name), rest) := by
  have hAll : ∀ c ∈ name, (c != ';') = true := by
    intro c hc
    rw [bne_iff_ne]
    exact fun h => hPlain (h ▸ hc)
  obtain ⟨c, cs, rfl⟩ := List.exists_cons_of_ne_nil hName
  simp only [readClassName, List.takeWhile_append_of_pos hAll, List.dropWhile_append_of_pos hAll]
  simp

theorem readClassName_semicolon (rest : List Char) :
    readClassName (';' :: rest) = .error .emptyClassName := by
  simp [readClassName]

theorem readClassName_of_not_mem {cs : List Char} (hPlain : ';' ∉ cs) :
    readClassName cs = .error .unterminatedClassName := by
  have hAll : ∀ c ∈ cs, (c != ';') = true := by
    intro c hc
    rw [bne_iff_ne]
    exact fun h => hPlain (h ▸ hc)
  simp only [readClassName, List.dropWhile_eq_nil_iff.mpr hAll]

theorem exists_of_readClassName {cs rest : List Char} {type : FieldType}
    (h : readClassName cs = .ok (type, rest)) :
    ∃ name, cs = name ++ ';' :: rest ∧ name ≠ [] ∧ ';' ∉ name ∧
      type = .object (String.ofList name) := by
  have hSplit := List.takeWhile_append_dropWhile (p := (· != ';')) (l := cs)
  have hHead := List.head?_dropWhile_not (· != ';') cs
  have hPlain : ';' ∉ cs.takeWhile (· != ';') := by
    intro hMem
    have := List.mem_takeWhile_imp hMem
    simp at this
  unfold readClassName at h
  split at h
  · cases h
  · cases h
  · next first behind hDrop hNonempty =>
    cases h
    rw [hDrop] at hSplit hHead
    obtain rfl : first = ';' := by simpa using hHead
    exact ⟨_, hSplit.symm, hNonempty, hPlain, rfl⟩

/-- A derived type is read off the front of every text that starts with its derivation. -/
theorem Derives.read_append {cs : List Char} {type : FieldType} (h : Derives cs type)
    (rest : List Char) : read (cs ++ rest) = .ok (type, rest) := by
  induction h with
  | object hName hPlain =>
    simp only [List.cons_append, List.append_assoc, List.nil_append, read]
    exact readClassName_append hName hPlain rest
  | array _ ih =>
    rw [List.cons_append, read, ih]
    rfl
  | _ => rfl

theorem derives_of_ofLetter? {c : Char} {type : FieldType} (h : ofLetter? c = some type) :
    Derives [c] type := by
  unfold ofLetter? at h
  split at h <;> cases h <;> constructor

/-- What is read is derived from the characters that are used up. -/
theorem exists_derives_of_read {cs rest : List Char} {type : FieldType}
    (h : read cs = .ok (type, rest)) : ∃ used, cs = used ++ rest ∧ Derives used type := by
  fun_induction read cs generalizing type rest with
  | case1 => cases h
  | case2 cs =>
    obtain ⟨name, rfl, hName, hPlain, rfl⟩ := exists_of_readClassName h
    exact ⟨'L' :: name ++ [';'], by simp, .object hName hPlain⟩
  | case3 cs ih =>
    obtain ⟨⟨element, behind⟩, hElement, h⟩ := bind_eq_ok.mp h
    cases h
    obtain ⟨used, rfl, hUsed⟩ := ih hElement
    exact ⟨'[' :: used, rfl, .array hUsed⟩
  | case4 c cs _ _ type hLetter =>
    cases h
    exact ⟨[c], rfl, derives_of_ofLetter? hLetter⟩
  | case5 => cases h

/-- No text has two derivations. -/
theorem Derives.unique {cs : List Char} {first second : FieldType} (hFirst : Derives cs first)
    (hSecond : Derives cs second) : first = second := by
  have h := hFirst.read_append []
  rw [hSecond.read_append] at h
  cases h
  rfl

/-- The descriptor of a type is the text that derives it. -/
theorem Derives.toList_text {cs : List Char} {type : FieldType} (h : Derives cs type) :
    type.text.toList = cs := by
  induction h with
  | object => simp [text]
  | array _ ih => simp [text, ih]
  | _ => rfl

theorem Derives.ne_nil {cs : List Char} {type : FieldType} (h : Derives cs type) : cs ≠ [] := by
  cases h <;> simp

/-- No type starts with a closing parenthesis. -/
theorem Derives.head?_ne {cs : List Char} {type : FieldType} (h : Derives cs type) :
    cs.head? ≠ some ')' := by
  cases h <;> simp

/-- The descriptors that are accepted, and what they stand for. -/
theorem parse_eq_ok_iff {descriptor : String} {type : FieldType} :
    parse descriptor = .ok type ↔ Derives descriptor.toList type := by
  unfold parse
  constructor
  · intro h
    split at h
    · next hRead =>
      cases h
      obtain ⟨used, hUsed, hDerives⟩ := exists_derives_of_read hRead
      rwa [hUsed, List.append_nil]
    · cases h
    · cases h
  · intro h
    rw [← List.append_nil descriptor.toList, h.read_append]

end FieldType

namespace MethodType

/-- The parameter lists that a text derives. -/
inductive DerivesParameters : List Char → List FieldType → Prop
  | nil : DerivesParameters [] []
  | cons {cs ds : List Char} {type : FieldType} {types : List FieldType}
      (hFirst : FieldType.Derives cs type) (hRest : DerivesParameters ds types) :
      DerivesParameters (cs ++ ds) (type :: types)

/-- The results that a text derives. -/
inductive DerivesReturn : List Char → Option FieldType → Prop
  | void : DerivesReturn ['V'] none
  | type {cs : List Char} {type : FieldType} (hType : FieldType.Derives cs type) :
      DerivesReturn cs (some type)

/-- The method types that a text derives. -/
inductive Derives : List Char → MethodType → Prop
  | mk {cs ds : List Char} {parameters : List FieldType} {returns : Option FieldType}
      (hParameters : DerivesParameters cs parameters) (hReturns : DerivesReturn ds returns) :
      Derives ('(' :: cs ++ ')' :: ds) ⟨parameters, returns⟩

/-- A list that is not at its end goes on with a type. -/
theorem readParameters_eq_bind {cs : List Char} (hNil : cs ≠ []) (hHead : cs.head? ≠ some ')') :
    readParameters cs = do
      let (type, rest) ← FieldType.read cs
      let (types, rest) ← readParameters rest
      return (type :: types, rest) := by
  rw [readParameters.eq_def]
  split
  · exact absurd rfl hNil
  · exact absurd rfl hHead
  · split
    · next hRead =>
      rw [hRead]
      rfl
    · next rest hRead =>
      simp only [hRead, bind, Except.bind]
      cases readParameters rest <;> rfl

theorem DerivesParameters.readParameters_append {cs : List Char} {types : List FieldType}
    (h : DerivesParameters cs types) (rest : List Char) :
    readParameters (cs ++ ')' :: rest) = .ok (types, rest) := by
  induction h with
  | nil => rw [List.nil_append, readParameters]
  | @cons cs ds type types hFirst _ ih =>
    obtain ⟨c, tail, rfl⟩ := List.exists_cons_of_ne_nil hFirst.ne_nil
    have hHead := hFirst.head?_ne
    rw [List.append_assoc, readParameters_eq_bind (by simp) (by simpa using hHead),
      hFirst.read_append]
    simp only [bind, Except.bind, ih]
    rfl

theorem exists_of_readParameters {cs rest : List Char} {types : List FieldType}
    (h : readParameters cs = .ok (types, rest)) :
    ∃ used, cs = used ++ ')' :: rest ∧ DerivesParameters used types := by
  fun_induction readParameters cs generalizing types rest with
  | case1 => cases h
  | case2 cs =>
    cases h
    exact ⟨[], rfl, .nil⟩
  | case3 => cases h
  | case4 => cases h
  | case5 cs _ _ type behind hRead _ types rest hRest ih =>
    cases h
    obtain ⟨first, rfl, hFirst⟩ := FieldType.exists_derives_of_read hRead
    obtain ⟨used, rfl, hUsed⟩ := ih hRest
    exact ⟨first ++ used, by simp, .cons hFirst hUsed⟩

theorem DerivesReturn.readReturn_eq {cs : List Char} {returns : Option FieldType}
    (h : DerivesReturn cs returns) : readReturn cs = .ok (returns, []) := by
  cases h with
  | void => rfl
  | type hType =>
    have hRead := hType.read_append []
    rw [List.append_nil] at hRead
    unfold readReturn
    split
    · -- no type is written `V`
      cases hRead
    · rw [hRead]
      rfl

theorem derivesReturn_of_readReturn {cs : List Char} {returns : Option FieldType}
    (h : readReturn cs = .ok (returns, [])) : DerivesReturn cs returns := by
  unfold readReturn at h
  split at h
  · cases h
    exact .void
  · obtain ⟨⟨type, rest⟩, hRead, h⟩ := bind_eq_ok.mp h
    cases h
    obtain ⟨used, rfl, hUsed⟩ := FieldType.exists_derives_of_read hRead
    rw [List.append_nil]
    exact .type hUsed

theorem suffix_of_readReturn {cs rest : List Char} {returns : Option FieldType}
    (h : readReturn cs = .ok (returns, rest)) : rest <:+ cs := by
  unfold readReturn at h
  split at h
  · cases h
    exact List.suffix_cons _ _
  · obtain ⟨⟨type, behind⟩, hRead, h⟩ := bind_eq_ok.mp h
    cases h
    obtain ⟨used, rfl, -⟩ := FieldType.exists_derives_of_read hRead
    exact List.suffix_append _ _

theorem read_of_not_opened {cs : List Char} (h : cs.head? ≠ some '(') :
    read cs = .error .noOpeningParenthesis := by
  unfold read
  split
  · exact absurd rfl h
  · rfl

theorem read_eq_ok_iff {cs : List Char} {type : MethodType} :
    read cs = .ok type ↔ Derives cs type := by
  constructor
  · intro h
    unfold read at h
    split at h
    · obtain ⟨⟨parameters, rest⟩, hParameters, h⟩ := bind_eq_ok.mp h
      obtain ⟨⟨returns, behind⟩, hReturns, h⟩ := bind_eq_ok.mp h
      obtain ⟨used, rfl, hUsed⟩ := exists_of_readParameters hParameters
      cases behind with
      | nil =>
        cases h
        exact .mk hUsed (derivesReturn_of_readReturn hReturns)
      | cons => cases h
    · cases h
  · intro h
    cases h with
    | mk hParameters hReturns =>
      rw [List.cons_append, read, hParameters.readParameters_append]
      simp only [bind, Except.bind, hReturns.readReturn_eq]
      rfl

/-- No text has two derivations. -/
theorem Derives.unique {cs : List Char} {first second : MethodType} (hFirst : Derives cs first)
    (hSecond : Derives cs second) : first = second := by
  rw [← read_eq_ok_iff] at hFirst hSecond
  rw [hFirst] at hSecond
  cases hSecond
  rfl

/-- The descriptors that are accepted, and what they stand for. -/
theorem parse_eq_ok_iff {descriptor : String} {type : MethodType} :
    parse descriptor = .ok type ↔ Derives descriptor.toList type := by
  rw [← read_eq_ok_iff]
  exact mapError_eq_ok

end MethodType

end BytecodeFlow
