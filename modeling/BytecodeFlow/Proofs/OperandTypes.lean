import BytecodeFlow.Instruction
import BytecodeFlow.Proofs.EffectOrder

/-!
# The types of operands

What an instruction asks for on the stack and what it leaves there. The constraints on popped values
are types of ordinary values, and so are the pushed values, except that a jump to a subroutine
pushes the address behind it (`Instruction.consumed_ordinary`, `Instruction.produced_ordinary`). No
instruction works on placeholders, and the declared types of variables do not change that.
-/

namespace BytecodeFlow

/-- Whether values of the type are what programs compute with, unlike the addresses of subroutines
and unlike what only stands for a value. -/
def StackType.isOrdinary : StackType → Bool
  | .returnAddress | .any | .void => false
  | _ => true

/-! ## Kinds of operands -/

@[simp] theorem ValueKind.isOrdinary_stackType (kind : ValueKind) :
    kind.stackType.isOrdinary = true := by
  cases kind <;> rfl

@[simp] theorem NumericKind.isOrdinary_stackType (kind : NumericKind) :
    kind.stackType.isOrdinary = true :=
  kind.valueKind.isOrdinary_stackType

@[simp] theorem IntegralKind.isOrdinary_stackType (kind : IntegralKind) :
    kind.stackType.isOrdinary = true :=
  kind.valueKind.isOrdinary_stackType

@[simp] theorem ArrayKind.isOrdinary_elementType (kind : ArrayKind) :
    kind.elementType.isOrdinary = true := by
  cases kind <;> rfl

@[simp] theorem Conversion.isOrdinary_source (conversion : Conversion) :
    conversion.source.isOrdinary = true := by
  cases conversion <;> rfl

@[simp] theorem Conversion.isOrdinary_target (conversion : Conversion) :
    conversion.target.isOrdinary = true := by
  cases conversion <;> rfl

@[simp] theorem Comparison.isOrdinary_operand (comparison : Comparison) :
    comparison.operand.isOrdinary = true := by
  cases comparison <;> rfl

theorem Condition.isOrdinary_operands (condition : Condition) :
    ∀ t ∈ condition.operands, t.isOrdinary = true := by
  cases condition <;> decide

@[simp] theorem Constant.isOrdinary_stackType (constant : Constant) :
    constant.stackType.isOrdinary = true := by
  cases constant <;> rfl

@[simp] theorem FieldType.isOrdinary_stackType (type : FieldType) :
    type.stackType.isOrdinary = true := by
  cases type <;> rfl

theorem MethodType.isOrdinary_parameterTypes (type : MethodType) :
    ∀ t ∈ type.parameterTypes, t.isOrdinary = true := by
  intro t ht
  obtain ⟨parameter, -, rfl⟩ := List.mem_map.mp ht
  exact parameter.isOrdinary_stackType

theorem MethodType.returnType_eq_void_or_ordinary (type : MethodType) :
    type.returnType = .void ∨ type.returnType.isOrdinary = true := by
  unfold returnType
  split
  · exact Or.inr (FieldType.isOrdinary_stackType _)
  · exact Or.inl rfl

/-! ## Operations -/

namespace Operation

variable {operation : Operation}

theorem fieldStackType_ordinary {descriptor : String} {value : StackType}
    (h : fieldStackType descriptor = .ok value) : value.isOrdinary = true := by
  obtain ⟨type, -, rfl⟩ := map_eq_ok.mp h
  exact type.isOrdinary_stackType

theorem pops_ordinary {pops : List StackType} (h : operation.pops = .ok pops) :
    ∀ t ∈ pops, t.isOrdinary = true := by
  cases operation with
  | shuffle _ | throw | methodExit => cases h
  | methodEntry | nop | constant | load | increment | goto | jumpSubroutine
  | returnFromSubroutine | new =>
    cases h
    simp
  | leave kind =>
    cases kind with
    | none =>
      cases h
      simp
    | some kind =>
      cases h
      simp
  | arrayLoad | «switch» | newArray | newReferenceArray | arrayLength | checkCast | instanceOf
  | monitor =>
    cases h
    decide
  | store | arithmetic | negate | convert | compare =>
    cases h
    simp
  | arrayStore kind =>
    cases h
    exact List.forall_mem_cons.mpr ⟨kind.isOrdinary_elementType, by decide⟩
  | bitwise op kind =>
    cases h
    split
    · exact List.forall_mem_cons.mpr ⟨rfl, by simp⟩
    · simp
  | branch condition target =>
    cases h
    exact condition.isOrdinary_operands
  | multiNewArray descriptor dimensions =>
    cases h
    intro t ht
    obtain rfl := List.eq_of_mem_replicate ht
    rfl
  | field access owner name descriptor =>
    cases access with
    | getStatic =>
      cases h
      simp
    | getField =>
      cases h
      exact List.forall_mem_singleton.mpr rfl
    | putStatic =>
      obtain ⟨value, hField, h⟩ := bind_eq_ok.mp h
      cases h
      exact List.forall_mem_singleton.mpr (fieldStackType_ordinary hField)
    | putField =>
      obtain ⟨value, hField, h⟩ := bind_eq_ok.mp h
      cases h
      exact List.forall_mem_cons.mpr
        ⟨fieldStackType_ordinary hField, List.forall_mem_singleton.mpr rfl⟩
  | invoke kind owner name descriptor =>
    obtain ⟨type, -, h⟩ := bind_eq_ok.mp h
    cases h
    intro t ht
    split at ht
    · exact type.isOrdinary_parameterTypes t (List.mem_reverse.mp ht)
    · rcases List.mem_append.mp ht with ht | ht
      · exact type.isOrdinary_parameterTypes t (List.mem_reverse.mp ht)
      · obtain rfl := List.mem_singleton.mp ht
        rfl
  | invokeDynamic name descriptor =>
    obtain ⟨type, -, h⟩ := bind_eq_ok.mp h
    cases h
    exact fun t ht => type.isOrdinary_parameterTypes t (List.mem_reverse.mp ht)

/-- Only a jump to a subroutine pushes an address. -/
theorem pushes_ordinary {value : StackType} (h : operation.pushes = .ok value)
    (hJump : ∀ target, operation ≠ .jumpSubroutine target) :
    value = .void ∨ value.isOrdinary = true := by
  cases operation with
  | shuffle _ | throw | methodExit => cases h
  | jumpSubroutine target => exact absurd rfl (hJump target)
  | constant | load | arrayLoad | arithmetic | negate | bitwise | convert =>
    cases h
    exact Or.inr (by simp)
  | compare | arrayLength | instanceOf | new | checkCast | newArray | newReferenceArray
  | multiNewArray =>
    cases h
    exact Or.inr rfl
  | methodEntry | nop | store | increment | arrayStore | branch | goto | returnFromSubroutine
  | «switch» | leave | monitor =>
    cases h
    exact Or.inl rfl
  | field access owner name descriptor =>
    cases access with
    | getStatic | getField => exact Or.inr (fieldStackType_ordinary h)
    | putStatic | putField =>
      cases h
      exact Or.inl rfl
  | invoke | invokeDynamic =>
    obtain ⟨type, -, h⟩ := bind_eq_ok.mp h
    cases h
    exact type.returnType_eq_void_or_ordinary

/-- The effects of operations: one by one, a shuffle, or a cleared stack. -/
theorem effect_eq_ok {intoHandler : Bool} {effect : StackEffect}
    (h : operation.effect intoHandler = .ok effect) :
    (∃ pops value, operation.pops = .ok pops ∧ operation.pushes = .ok value ∧
      effect = .uniform pops value) ∨ (∃ kind, effect = .shuffle kind) ∨
      effect = .clear none ∨ effect = .clear (some (.ofClass throwableClass)) := by
  unfold Operation.effect at h
  split at h
  · cases h
    exact Or.inr (Or.inl ⟨_, rfl⟩)
  · cases h
    cases intoHandler
    · exact Or.inr (Or.inr (Or.inl rfl))
    · exact Or.inr (Or.inr (Or.inr rfl))
  · cases h
    exact Or.inr (Or.inr (Or.inl rfl))
  · obtain ⟨pops, hPops, h⟩ := bind_eq_ok.mp h
    obtain ⟨value, hPush, h⟩ := bind_eq_ok.mp h
    cases h
    exact Or.inl ⟨pops, value, hPops, hPush, rfl⟩

end Operation

/-! ## Instructions -/

namespace Instruction

variable {instruction : Instruction} {locals : VariableTable}

theorem declaredType_ordinary {slot : Nat} {declared : StackType}
    (h : instruction.declaredType locals slot = some declared) : declared.isOrdinary = true := by
  unfold declaredType at h
  split at h <;> cases h
  rfl

theorem getD_declaredType_ordinary {slot : Nat} {value : StackType}
    (h : value.isOrdinary = true) :
    ((instruction.declaredType locals slot).getD value).isOrdinary = true := by
  cases hDeclared : instruction.declaredType locals slot with
  | none => exact h
  | some declared => exact declaredType_ordinary hDeclared

theorem refinePops_ordinary {pops : List StackType} (h : ∀ t ∈ pops, t.isOrdinary = true) :
    ∀ t ∈ instruction.refinePops locals pops, t.isOrdinary = true := by
  unfold refinePops
  split
  · rw [List.forall_mem_cons] at h ⊢
    exact ⟨getD_declaredType_ordinary h.1, h.2⟩
  · exact h

/-- A declared type only replaces a reference that is loaded anyway. -/
theorem refinePush_eq_void_or_ordinary {value : StackType}
    (hPush : instruction.operation.pushes = .ok value)
    (h : value = .void ∨ value.isOrdinary = true) :
    instruction.refinePush locals value = .void ∨
      (instruction.refinePush locals value).isOrdinary = true := by
  unfold refinePush
  split
  · rename_i slot hLoad
    rw [hLoad] at hPush
    cases hPush
    exact Or.inr (getD_declaredType_ordinary rfl)
  · exact h

variable {intoHandler : Bool} {effect : StackEffect}

theorem consumed_ordinary (h : instruction.effect locals intoHandler = .ok effect) :
    ∀ t ∈ effect.consumed, t.isOrdinary = true := by
  obtain ⟨plain, hPlain, rfl⟩ := map_eq_ok.mp h
  rcases Operation.effect_eq_ok hPlain with ⟨pops, value, hPops, -, rfl⟩ | ⟨kind, rfl⟩ | rfl | rfl
  · exact refinePops_ordinary (Operation.pops_ordinary hPops)
  all_goals simp [refine, StackEffect.consumed]

theorem produced_ordinary (h : instruction.effect locals intoHandler = .ok effect)
    (hJump : ∀ target, instruction.operation ≠ .jumpSubroutine target) :
    ∀ t ∈ effect.produced, t.isOrdinary = true := by
  obtain ⟨plain, hPlain, rfl⟩ := map_eq_ok.mp h
  rcases Operation.effect_eq_ok hPlain with ⟨pops, value, -, hPush, rfl⟩ | ⟨kind, rfl⟩ | rfl | rfl
  · intro t ht
    simp only [refine, StackEffect.produced, TypeStack.push] at ht
    split at ht
    · cases ht
    · rename_i hVoid
      obtain rfl := List.mem_singleton.mp ht
      exact (refinePush_eq_void_or_ordinary hPush
        (Operation.pushes_ordinary hPush hJump)).resolve_left hVoid
  · simp [refine, StackEffect.produced]
  · simp [refine, StackEffect.produced]
  · exact List.forall_mem_singleton.mpr rfl

theorem effect_voidFree (h : instruction.effect locals intoHandler = .ok effect) :
    effect.VoidFree := by
  obtain ⟨plain, hPlain, rfl⟩ := map_eq_ok.mp h
  rcases Operation.effect_eq_ok hPlain with ⟨pops, value, hPops, -, rfl⟩ | ⟨kind, rfl⟩ | rfl | rfl
  · intro hVoid
    cases refinePops_ordinary (Operation.pops_ordinary hPops) _ hVoid
  · trivial
  all_goals simp [refine, StackEffect.VoidFree, StackType.ofClass]

/-- A jump to a subroutine pushes its address and nothing else. -/
theorem produced_of_jumpSubroutine (h : instruction.effect locals intoHandler = .ok effect)
    {target : Int} (hJump : instruction.operation = .jumpSubroutine target) :
    effect.produced = [.returnAddress] := by
  obtain ⟨plain, hPlain, rfl⟩ := map_eq_ok.mp h
  rw [hJump] at hPlain
  cases hPlain
  simp [refine, refinePush, hJump, StackEffect.produced, TypeStack.push]

end Instruction

end BytecodeFlow
