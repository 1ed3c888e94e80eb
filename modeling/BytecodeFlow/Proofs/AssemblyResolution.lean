import BytecodeFlow.Proofs.AssemblySteps
import BytecodeFlow.Proofs.DescriptorGrammar
import BytecodeFlow.Proofs.Success

/-!
# Resolving labels

What a run of steps says once orders stand in the places of its labels. A label has the order of the
instruction behind its definition (`Names`), and it can be jumped to if there is such an instruction
(`Targets`). A run can be resolved (`Resolvable`) if every label that it uses is defined, those that
are jumped to before the end, and what it says of its ranges and variables makes sense.

An assembler that holds a run resolves each operation (`Resolves`), handler range (`ResolvesRange`)
and lifetime (`ResolvesLifetime`) as the run says, and fails only where the run says nothing.
-/

namespace BytecodeFlow

namespace AssemblyStep

/-- The labels that control may jump to because of a step. -/
def targets : AssemblyStep → List String
  | .branch _ label | .goto label | .jumpSubroutine label => [label]
  | .switch _ fallback cases => fallback :: cases.map Prod.snd
  | .protect range => [range.handler]
  | _ => []

/-- The labels between which what a step says is true. -/
def bounds : AssemblyStep → List String
  | .protect range => [range.start, range.stop]
  | .declare lifetime => [lifetime.start, lifetime.stop]
  | _ => []

theorem operation?_eq_jumpSubroutine_iff {call : AssemblyStep} {label : String} :
    call.operation? = some (.jumpSubroutine label) ↔ call = .jumpSubroutine label := by
  cases call <;> simp [operation?]

end AssemblyStep

/-! ## Texts of operations -/

theorem Opcode.mnemonic?_ne_empty {code : Nat} {mnemonic : String}
    (h : Opcode.mnemonic? code = some mnemonic) : mnemonic ≠ "" := by
  have hTable : ∀ entry ∈ Opcode.mnemonics, entry ≠ "" := by decide +kernel
  unfold Opcode.mnemonic? at h
  split at h
  · cases h
    decide
  · split at h
    · cases h
      decide
    · exact hTable mnemonic (Array.mem_of_getElem? h)

theorem Operation.mnemonic_ne_empty (operation : Operation) : operation.mnemonic ≠ "" := by
  unfold Operation.mnemonic
  split
  · decide
  · decide
  · cases h : Opcode.mnemonic? operation.opcode with
    | none => simp
    | some mnemonic => simpa using Opcode.mnemonic?_ne_empty h

theorem Operation.text_ne_empty (operation : Operation) : operation.text ≠ "" := by
  have hMnemonic := operation.mnemonic_ne_empty
  unfold Operation.text
  split
  · simp
  · exact hMnemonic

namespace Assembler

open AssemblyStep

/-! ## Resolved runs -/

/-- A run gives a label the order of the instruction that follows its definition. -/
def Names (done : List AssemblyStep) (label : String) (order : Int) : Prop :=
  ∃ index, Defines done label index ∧ order = index

/-- A run gives a label the order of one of its instructions. -/
def Targets (done : List AssemblyStep) (label : String) (order : Int) : Prop :=
  Names done label order ∧ order < emitted done

/-- Control returns to an order: a step jumps to a subroutine right before it. -/
def ReturnsTo (done : List AssemblyStep) (order : Int) : Prop :=
  ∃ before label, before ++ [.jumpSubroutine label] <+: done ∧ order = orderOf (emitted before) + 1

/-- The conditions under which a run has a body. -/
structure Resolvable (done : List AssemblyStep) : Prop where
  defined : ∀ call ∈ done, ∀ label ∈ call.targets ++ call.bounds, ∃ order, Names done label order
  inside : ∀ call ∈ done, ∀ label ∈ call.targets, ∃ order, Targets done label order
  ranges : ∀ range, .protect range ∈ done → ∀ start stop, Names done range.start start →
    Names done range.stop stop → start ≤ stop
  lifetimes : ∀ lifetime, .declare lifetime ∈ done → ∀ start stop,
    Names done lifetime.start start → Names done lifetime.stop stop → start ≤ stop
  declarations : ∀ lifetime, .declare lifetime ∈ done →
    lifetime.name ≠ "" ∧ ∃ type, FieldType.Derives lifetime.descriptor.toList type

/-- The operation that a step adds, with orders in the places of its labels. -/
inductive Resolves (done : List AssemblyStep) : AssemblyStep → Operation → Prop
  | emit (operation : Operation) : Resolves done (.emit operation) operation
  | branch {condition : Condition} {label : String} {order : Int} (h : Targets done label order) :
      Resolves done (.branch condition label) (.branch condition order)
  | goto {label : String} {order : Int} (h : Targets done label order) :
      Resolves done (.goto label) (.goto order)
  | jumpSubroutine {label : String} {order : Int} (h : Targets done label order) :
      Resolves done (.jumpSubroutine label) (.jumpSubroutine order)
  | returnFromSubroutine {slot : Nat} {orders : List Int}
      (h : ∀ order, order ∈ orders ↔ ReturnsTo done order) :
      Resolves done (.returnFromSubroutine slot) (.returnFromSubroutine slot orders)
  | switch {kind : SwitchKind} {fallback : String} {order : Int} {cases : List (Int32 × String)}
      {resolved : List (Int32 × Int)} (hFallback : Targets done fallback order)
      (hCases : List.Forall₂ (fun case target => target.1 = case.1 ∧ Targets done case.2 target.2)
        cases resolved) :
      Resolves done (.switch kind fallback cases) (.switch kind order resolved)

/-- A handler range with orders in the places of its labels. -/
structure ResolvesRange (done : List AssemblyStep) (range : LabelledRange)
    (resolved : HandlerRange) : Prop where
  start : Names done range.start resolved.start
  stop : Names done range.stop resolved.stop
  handler : Targets done range.handler resolved.handler
  ordered : resolved.start ≤ resolved.stop
  catchType_eq : resolved.catchType = range.catchType

/-- A variable lifetime with orders in the places of its labels. -/
structure ResolvesLifetime (done : List AssemblyStep) (lifetime : LabelledLifetime)
    (resolved : VariableLifetime) : Prop where
  start : Names done lifetime.start resolved.start
  stop : Names done lifetime.stop resolved.stop
  ordered : resolved.start ≤ resolved.stop
  name_eq : resolved.name = lifetime.name
  name_ne : lifetime.name ≠ ""
  descriptor_eq : resolved.descriptor = lifetime.descriptor
  slot_eq : resolved.slot = lifetime.slot
  type : ∃ type, FieldType.Derives lifetime.descriptor.toList type ∧
    resolved.stackType = type.stackType

/-! ## Labels -/

section Labels

variable {method : MethodId} {done : List AssemblyStep} {a : Assembler}

theorem orderOf_of_le {index : Nat} (h : index ≤ lastOrder) : orderOf index = index :=
  Nat.min_eq_left h

theorem Records.position_eq (h : Records method done a) (hCount : emitted done ≤ lastOrder) :
    a.position = emitted done := by
  rw [position, h.size_eq, orderOf_of_le hCount]

theorem Records.resolve_eq_ok_iff (h : Records method done a) (hCount : emitted done ≤ lastOrder)
    {label : String} {index : Nat} : a.resolve label = .ok index ↔ Defines done label index := by
  have hOrder : ∀ other, Defines done label other → orderOf other = other :=
    fun other hOther => orderOf_of_le (hOther.le_emitted.trans hCount)
  have hLookup : a.labels.lookup label = some index ↔ Defines done label index := by
    rw [h.label_iff]
    constructor
    · intro hNamed
      obtain ⟨other, hOther, rfl⟩ := hNamed
      rwa [hOrder other hOther]
    · intro hDefined
      exact ⟨index, hDefined, (hOrder index hDefined).symm⟩
  rw [← hLookup, resolve]
  cases a.labels.lookup label <;> simp

theorem Records.target_eq_ok_iff (h : Records method done a) (hCount : emitted done ≤ lastOrder)
    {label : String} {order : Int} : a.target label = .ok order ↔ Targets done label order := by
  unfold target
  rw [bind_eq_ok]
  constructor
  · intro hOk
    obtain ⟨index, hResolve, hOk⟩ := hOk
    rw [h.position_eq hCount] at hOk
    split at hOk
    · cases hOk
    · cases hOk
      refine ⟨⟨index, (h.resolve_eq_ok_iff hCount).mp hResolve, rfl⟩, ?_⟩
      omega
  · intro hTarget
    obtain ⟨⟨index, hDefined, rfl⟩, hLt⟩ := hTarget
    refine ⟨index, (h.resolve_eq_ok_iff hCount).mpr hDefined, ?_⟩
    rw [h.position_eq hCount, if_neg (by omega)]
    rfl

theorem Records.mem_subroutineReturns (h : Records method done a) {order : Int} :
    order ∈ a.subroutineReturns ↔ ReturnsTo done order := by
  have hSize : a.instructions.size = a.instructions.toList.length := by simp
  rw [subroutineReturns, List.mem_filterMap, hSize]
  constructor
  · intro hMem
    obtain ⟨⟨index, instruction⟩, hMem, hOrder⟩ := hMem
    rw [mem_zip_range, Array.getElem?_toList, h.instruction_iff] at hMem
    obtain ⟨before, call, hPlace, hCall, rfl, -⟩ := hMem
    dsimp only at hOrder
    split at hOrder
    · rename_i label hLabel
      rw [hLabel, operation?_eq_jumpSubroutine_iff] at hCall
      subst hCall
      cases hOrder
      exact ⟨before, label, hPlace, rfl⟩
    · cases hOrder
  · intro hReturns
    obtain ⟨before, label, hPlace, rfl⟩ := hReturns
    refine ⟨(emitted before, ⟨.jumpSubroutine label, lineAfter before⟩), ?_, rfl⟩
    rw [mem_zip_range, Array.getElem?_toList, h.instruction_iff]
    exact ⟨before, _, hPlace, rfl, rfl, rfl⟩

end Labels

/-! ## Instructions -/

section Instructions

variable {method : MethodId} {done : List AssemblyStep} {a : Assembler} {call : AssemblyStep}
  {labelled : LabelledOperation}

theorem Records.resolves (h : Records method done a) (hCount : emitted done ≤ lastOrder)
    (hCall : call.operation? = some labelled) {operation : Operation}
    (hOk : a.resolveOperation labelled = .ok operation) : Resolves done call operation := by
  cases call with
  | emit =>
    cases hCall
    cases hOk
    exact .emit operation
  | branch condition label =>
    cases hCall
    obtain ⟨order, hTarget, rfl⟩ := map_eq_ok.mp hOk
    exact .branch ((h.target_eq_ok_iff hCount).mp hTarget)
  | goto label =>
    cases hCall
    obtain ⟨order, hTarget, rfl⟩ := map_eq_ok.mp hOk
    exact .goto ((h.target_eq_ok_iff hCount).mp hTarget)
  | jumpSubroutine label =>
    cases hCall
    obtain ⟨order, hTarget, rfl⟩ := map_eq_ok.mp hOk
    exact .jumpSubroutine ((h.target_eq_ok_iff hCount).mp hTarget)
  | returnFromSubroutine slot =>
    cases hCall
    cases hOk
    exact .returnFromSubroutine fun order => h.mem_subroutineReturns
  | «switch» kind fallback cases =>
    cases hCall
    obtain ⟨order, hTarget, hOk⟩ := bind_eq_ok.mp hOk
    obtain ⟨resolved, hCases, hOk⟩ := bind_eq_ok.mp hOk
    cases hOk
    refine .switch ((h.target_eq_ok_iff hCount).mp hTarget) ((mapM_eq_ok.mp hCases).imp ?_)
    intro case target hCase
    obtain ⟨order, hTarget, rfl⟩ := map_eq_ok.mp hCase
    exact ⟨rfl, (h.target_eq_ok_iff hCount).mp hTarget⟩
  | define | protect | declare | line => cases hCall

theorem Records.exists_operation_iff (h : Records method done a)
    (hCount : emitted done ≤ lastOrder) (hCall : call.operation? = some labelled) :
    (∃ operation, a.resolveOperation labelled = .ok operation) ↔
      ∀ label ∈ call.targets, ∃ order, Targets done label order := by
  simp only [← h.target_eq_ok_iff hCount]
  cases call with
  | emit | returnFromSubroutine =>
    cases hCall
    simp [resolveOperation, targets]
  | branch | goto | jumpSubroutine =>
    cases hCall
    simp [resolveOperation, targets, map_eq_ok]
  | «switch» kind fallback cases =>
    cases hCall
    constructor
    · intro hOk label hLabel
      obtain ⟨operation, hOk⟩ := hOk
      obtain ⟨order, hTarget, hOk⟩ := bind_eq_ok.mp hOk
      obtain ⟨resolved, hCases, -⟩ := bind_eq_ok.mp hOk
      rcases List.mem_cons.mp hLabel with rfl | hLabel
      · exact ⟨order, hTarget⟩
      · obtain ⟨case, hCase, rfl⟩ := List.mem_map.mp hLabel
        obtain ⟨target, hResolved⟩ := mapM_ok_of_mem hCases hCase
        obtain ⟨order, hTarget, -⟩ := map_eq_ok.mp hResolved
        exact ⟨order, hTarget⟩
    · intro hTargets
      obtain ⟨order, hTarget⟩ := hTargets fallback List.mem_cons_self
      obtain ⟨resolved, hResolved⟩ : ∃ resolved, cases.mapM
          (fun case => (case.1, ·) <$> a.target case.2) = .ok resolved := by
        refine mapM_succeeds fun case hCase => ?_
        have hLabel : case.2 ∈ cases.map Prod.snd := List.mem_map_of_mem hCase
        obtain ⟨order, hTarget⟩ := hTargets case.2 (List.mem_cons_of_mem _ hLabel)
        exact ⟨(case.1, order), map_eq_ok.mpr ⟨order, hTarget, rfl⟩⟩
      exact ⟨.switch kind order resolved,
        bind_eq_ok.mpr ⟨order, hTarget, bind_eq_ok.mpr ⟨resolved, hResolved, rfl⟩⟩⟩
  | define | protect | declare | line => cases hCall

theorem Records.isSentinel_eq_false (h : Records method done a) (hMem : call ∈ done)
    (hCall : call.operation? = some labelled) {operation : Operation}
    (hOk : a.resolveOperation labelled = .ok operation) : operation.isSentinel = false := by
  cases call with
  | emit =>
    cases hCall
    cases hOk
    exact h.plain operation hMem
  | branch | goto | jumpSubroutine =>
    cases hCall
    obtain ⟨order, -, rfl⟩ := map_eq_ok.mp hOk
    rfl
  | returnFromSubroutine =>
    cases hCall
    cases hOk
    rfl
  | «switch» =>
    cases hCall
    obtain ⟨_, -, hOk⟩ := bind_eq_ok.mp hOk
    obtain ⟨_, -, hOk⟩ := bind_eq_ok.mp hOk
    cases hOk
    rfl
  | define | protect | declare | line => cases hCall

/-- An instruction is what its operation makes it, at its place. -/
theorem Records.resolveInstruction_eq (h : Records method done a) {index : Nat}
    {instruction : LabelledInstruction} (hAdds : Adds done index instruction) :
    a.resolveInstruction index instruction =
      (fun operation => ⟨method, orderOf index, operation.text, operation, instruction.line⟩) <$>
        a.resolveOperation instruction.operation := by
  obtain ⟨before, call, hPlace, hCall, -, -⟩ := hAdds
  have hMem : call ∈ done := hPlace.subset (by simp)
  unfold resolveInstruction
  cases hOk : a.resolveOperation instruction.operation with
  | error error => rfl
  | ok operation =>
    have hPlain := h.isSentinel_eq_false hMem hCall hOk
    have hText := operation.text_ne_empty
    have hOrder : ¬ ((orderOf index : Nat) : Int) < 0 := by omega
    have hOf : Instruction.of a.method (orderOf index) operation.text operation =
        .ok ⟨method, orderOf index, operation.text, operation, none⟩ := by
      simp [Instruction.of, hText, hOrder, hPlain, h.method_eq]
    change (Instruction.of a.method (orderOf index) operation.text operation >>= _) = _
    rw [hOf]
    rfl

end Instructions

/-! ## Ranges and variables -/

section Ranges

variable {method : MethodId} {done : List AssemblyStep} {a : Assembler}

theorem Records.resolveRange_eq_ok_iff (h : Records method done a)
    (hCount : emitted done ≤ lastOrder) {range : LabelledRange} {resolved : HandlerRange} :
    a.resolveRange range = .ok resolved ↔ ResolvesRange done range resolved := by
  simp only [resolveRange, bind_eq_ok, h.resolve_eq_ok_iff hCount, h.target_eq_ok_iff hCount]
  constructor
  · intro hOk
    obtain ⟨start, hStart, stop, hStop, handler, hHandler, hOk⟩ := hOk
    unfold HandlerRange.of at hOk
    split at hOk
    · cases hOk
    · split at hOk
      · cases hOk
      · cases hOk
        exact ⟨⟨start, hStart, rfl⟩, ⟨stop, hStop, rfl⟩, hHandler, by dsimp only; omega, rfl⟩
  · intro hResolves
    obtain ⟨⟨start, hStart, hFirst⟩, ⟨stop, hStop, hLast⟩, hHandler, hOrdered, hCatch⟩ := hResolves
    obtain ⟨first, last, handler, catchType⟩ := resolved
    dsimp only at hFirst hLast hOrdered hCatch hHandler
    subst hFirst hLast hCatch
    obtain ⟨⟨index, -, hIndex⟩, -⟩ := id hHandler
    refine ⟨start, hStart, stop, hStop, handler, hHandler, ?_⟩
    rw [HandlerRange.of, if_neg (by omega), if_neg (by omega)]

theorem Records.resolveLifetime_eq_ok_iff (h : Records method done a)
    (hCount : emitted done ≤ lastOrder) {lifetime : LabelledLifetime}
    {resolved : VariableLifetime} :
    a.resolveLifetime lifetime = .ok resolved ↔ ResolvesLifetime done lifetime resolved := by
  simp only [resolveLifetime, bind_eq_ok, h.resolve_eq_ok_iff hCount]
  constructor
  · intro hOk
    obtain ⟨start, hStart, stop, hStop, hOk⟩ := hOk
    unfold VariableLifetime.of at hOk
    split at hOk
    · cases hOk
    · rename_i hName
      split at hOk
      · cases hOk
      · obtain ⟨type, hType, hOk⟩ := bind_eq_ok.mp hOk
        cases hOk
        exact ⟨⟨start, hStart, rfl⟩, ⟨stop, hStop, rfl⟩, by dsimp only; omega, rfl,
          by simpa using hName, rfl, rfl, type, FieldType.parse_eq_ok_iff.mp hType, rfl⟩
  · intro hResolves
    obtain ⟨⟨start, hStart, hFirst⟩, ⟨stop, hStop, hLast⟩, hOrdered, hName, hNamed, hDescriptor,
      hSlot, type, hType, hStack⟩ := hResolves
    obtain ⟨name, descriptor, slot, first, last, stackType⟩ := resolved
    dsimp only at hFirst hLast hOrdered hName hDescriptor hSlot hStack
    subst hFirst hLast hName hDescriptor hSlot hStack
    refine ⟨start, hStart, stop, hStop, ?_⟩
    have hParse := FieldType.parse_eq_ok_iff.mpr hType
    rw [VariableLifetime.of, if_neg (by simpa using hNamed), if_neg (by omega), hParse]
    rfl

theorem Records.names_unique (h : Records method done a) (hCount : emitted done ≤ lastOrder)
    {label : String} {first second : Int} (hFirst : Names done label first)
    (hSecond : Names done label second) : first = second := by
  obtain ⟨index, hIndex, rfl⟩ := hFirst
  obtain ⟨other, hOther, rfl⟩ := hSecond
  have hSame := ((h.resolve_eq_ok_iff hCount).mpr hIndex).symm.trans
    ((h.resolve_eq_ok_iff hCount).mpr hOther)
  cases hSame
  rfl

theorem Records.exists_range_iff (h : Records method done a) (hCount : emitted done ≤ lastOrder)
    {range : LabelledRange} : (∃ resolved, ResolvesRange done range resolved) ↔
      (∃ order, Names done range.start order) ∧ (∃ order, Names done range.stop order) ∧
      (∃ order, Targets done range.handler order) ∧ ∀ start stop, Names done range.start start →
        Names done range.stop stop → start ≤ stop := by
  constructor
  · intro hResolves
    obtain ⟨resolved, hStart, hStop, hHandler, hOrdered, -⟩ := hResolves
    refine ⟨⟨_, hStart⟩, ⟨_, hStop⟩, ⟨_, hHandler⟩, fun start stop hFirst hLast => ?_⟩
    rwa [h.names_unique hCount hFirst hStart, h.names_unique hCount hLast hStop]
  · intro hRange
    obtain ⟨⟨start, hStart⟩, ⟨stop, hStop⟩, ⟨handler, hHandler⟩, hOrdered⟩ := hRange
    exact ⟨⟨start, stop, handler, range.catchType⟩, hStart, hStop, hHandler,
      hOrdered start stop hStart hStop, rfl⟩

theorem Records.exists_lifetime_iff (h : Records method done a) (hCount : emitted done ≤ lastOrder)
    {lifetime : LabelledLifetime} : (∃ resolved, ResolvesLifetime done lifetime resolved) ↔
      (∃ order, Names done lifetime.start order) ∧ (∃ order, Names done lifetime.stop order) ∧
      (∀ start stop, Names done lifetime.start start → Names done lifetime.stop stop →
        start ≤ stop) ∧
      lifetime.name ≠ "" ∧ ∃ type, FieldType.Derives lifetime.descriptor.toList type := by
  constructor
  · intro hResolves
    obtain ⟨resolved, hStart, hStop, hOrdered, -, hName, -, -, type, hType, -⟩ := hResolves
    refine ⟨⟨_, hStart⟩, ⟨_, hStop⟩, fun start stop hFirst hLast => ?_, hName, type, hType⟩
    rwa [h.names_unique hCount hFirst hStart, h.names_unique hCount hLast hStop]
  · intro hLifetime
    obtain ⟨⟨start, hStart⟩, ⟨stop, hStop⟩, hOrdered, hName, type, hType⟩ := hLifetime
    exact ⟨⟨lifetime.name, lifetime.descriptor, lifetime.slot, start, stop, type.stackType⟩,
      hStart, hStop, hOrdered start stop hStart hStop, rfl, hName, rfl, rfl, type, hType, rfl⟩

theorem mem_filterMap_range? {range : LabelledRange} :
    range ∈ done.filterMap range? ↔ .protect range ∈ done := by
  simp only [List.mem_filterMap, range?_eq_some_iff, exists_eq_right]

theorem mem_filterMap_lifetime? {lifetime : LabelledLifetime} :
    lifetime ∈ done.filterMap lifetime? ↔ .declare lifetime ∈ done := by
  simp only [List.mem_filterMap, lifetime?_eq_some_iff, exists_eq_right]

end Ranges

end Assembler

end BytecodeFlow
