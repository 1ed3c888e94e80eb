import BytecodeFlow.Proofs.AssemblyResolution
import BytecodeFlow.Proofs.FlowAcceptance

/-!
# Assembled bodies

What an assembler makes of a run of steps. A run has a body exactly if it can be resolved, and the
body then says what the run says (`Assembled`). Its instructions stand at their orders and its
handlers lie inside it, so that its flow graph can only be refused because of the flow.

* `assembly_resolves`: which steps are accepted, which runs have a body, and what it is.
* `assembled_returns`: where control continues behind a subroutine.
-/

namespace BytecodeFlow.Assembler

open AssemblyStep

/-- The body of a method says what a run says. -/
structure Assembled (method : MethodId) (done : List AssemblyStep) (body : MethodBody) : Prop where
  method_eq : body.method = method
  length_eq : body.instructions.length = emitted done
  instruction : ∀ before call, before ++ [call] <+: done → call.operation?.isSome →
    ∃ operation, Resolves done call operation ∧
      body.instructions[emitted before]? =
        some ⟨method, emitted before, operation.text, operation, lineAfter before⟩
  handlers : List.Forall₂ (ResolvesRange done) (done.filterMap range?) body.handlers
  locals : List.Forall₂ (ResolvesLifetime done) (done.filterMap lifetime?) body.locals

/-! ## The body -/

section Body

variable {method : MethodId} {done : List AssemblyStep} {a : Assembler} {body : MethodBody}

theorem finish_eq_ok_iff : a.finish = .ok body ↔ body.method = a.method ∧
    ((List.range a.instructions.size).zip a.instructions.toList).mapM
      (fun numbered => a.resolveInstruction numbered.1 numbered.2) = .ok body.instructions ∧
    a.ranges.toList.mapM a.resolveRange = .ok body.handlers ∧
    a.lifetimes.toList.mapM a.resolveLifetime = .ok body.locals := by
  unfold finish
  simp only [bind_eq_ok]
  constructor
  · intro hOk
    obtain ⟨instructions, hInstructions, handlers, hHandlers, locals, hLocals, hOk⟩ := hOk
    cases hOk
    exact ⟨rfl, hInstructions, hHandlers, hLocals⟩
  · intro hOk
    obtain ⟨hMethod, hInstructions, hHandlers, hLocals⟩ := hOk
    refine ⟨_, hInstructions, _, hHandlers, _, hLocals, ?_⟩
    rw [← hMethod]
    rfl

theorem exists_finish_iff : (∃ body, a.finish = .ok body) ↔
    (∀ numbered ∈ (List.range a.instructions.size).zip a.instructions.toList,
      ∃ instruction, a.resolveInstruction numbered.1 numbered.2 = .ok instruction) ∧
    (∀ range ∈ a.ranges.toList, ∃ resolved, a.resolveRange range = .ok resolved) ∧
    ∀ lifetime ∈ a.lifetimes.toList, ∃ resolved, a.resolveLifetime lifetime = .ok resolved := by
  simp only [← exists_mapM_iff, finish_eq_ok_iff]
  constructor
  · intro hOk
    obtain ⟨body, -, hInstructions, hHandlers, hLocals⟩ := hOk
    exact ⟨⟨_, hInstructions⟩, ⟨_, hHandlers⟩, ⟨_, hLocals⟩⟩
  · intro hOk
    obtain ⟨⟨instructions, hInstructions⟩, ⟨handlers, hHandlers⟩, ⟨locals, hLocals⟩⟩ := hOk
    exact ⟨⟨a.method, instructions, handlers, locals⟩, rfl, hInstructions, hHandlers, hLocals⟩

theorem exists_place_of_mem {call : AssemblyStep} (h : call ∈ done) :
    ∃ before, before ++ [call] <+: done := by
  obtain ⟨before, rest, rfl⟩ := List.append_of_mem h
  exact ⟨before, rest, by simp⟩

/-- The instructions can be resolved if the labels that they jump to can. -/
theorem Records.exists_instructions_iff (h : Records method done a)
    (hCount : emitted done ≤ lastOrder) :
    (∀ numbered ∈ (List.range a.instructions.size).zip a.instructions.toList,
      ∃ instruction, a.resolveInstruction numbered.1 numbered.2 = .ok instruction) ↔
    ∀ call ∈ done, call.operation?.isSome → ∀ label ∈ call.targets,
      ∃ order, Targets done label order := by
  have hNumbered : ∀ {index instruction},
      (index, instruction) ∈ (List.range a.instructions.size).zip a.instructions.toList ↔
        Adds done index instruction := by
    intro index instruction
    rw [← h.instruction_iff, ← Array.getElem?_toList, ← mem_zip_range, Array.length_toList]
  constructor
  · intro hAll call hCall hSome
    obtain ⟨labelled, hLabelled⟩ := Option.isSome_iff_exists.mp hSome
    obtain ⟨before, hPlace⟩ := exists_place_of_mem hCall
    have hAdds : Adds done (emitted before) ⟨labelled, lineAfter before⟩ :=
      ⟨before, call, hPlace, hLabelled, rfl, rfl⟩
    obtain ⟨instruction, hOk⟩ := hAll _ (hNumbered.mpr hAdds)
    rw [h.resolveInstruction_eq hAdds] at hOk
    obtain ⟨operation, hOperation, -⟩ := map_eq_ok.mp hOk
    exact (h.exists_operation_iff hCount hLabelled).mp ⟨operation, hOperation⟩
  · intro hAll numbered hMem
    have hAdds := hNumbered.mp hMem
    obtain ⟨before, call, hPlace, hLabelled, -, -⟩ := id hAdds
    have hCall : call ∈ done := hPlace.subset (by simp)
    obtain ⟨operation, hOperation⟩ := (h.exists_operation_iff hCount hLabelled).mpr
      (hAll call hCall (by simp [hLabelled]))
    rw [h.resolveInstruction_eq hAdds]
    exact ⟨_, map_eq_ok.mpr ⟨operation, hOperation, rfl⟩⟩

theorem Records.exists_finish_iff (h : Records method done a) (hCount : emitted done ≤ lastOrder) :
    (∃ body, a.finish = .ok body) ↔ Resolvable done := by
  rw [Assembler.exists_finish_iff, h.exists_instructions_iff hCount, h.ranges_eq, h.lifetimes_eq]
  simp only [h.resolveRange_eq_ok_iff hCount, h.resolveLifetime_eq_ok_iff hCount,
    h.exists_range_iff hCount, h.exists_lifetime_iff hCount, mem_filterMap_range?,
    mem_filterMap_lifetime?]
  constructor
  · intro hAll
    obtain ⟨hJumps, hRanges, hLifetimes⟩ := hAll
    have hInside : ∀ call ∈ done, ∀ label ∈ call.targets, ∃ order, Targets done label order := by
      intro call hCall label hLabel
      cases call with
      | protect range =>
        obtain rfl := List.mem_singleton.mp hLabel
        exact (hRanges range hCall).2.2.1
      | define | declare | line => cases hLabel
      | _ => exact hJumps _ hCall rfl label hLabel
    refine ⟨?_, hInside, ?_, ?_, ?_⟩
    · intro call hCall label hLabel
      rcases List.mem_append.mp hLabel with hLabel | hLabel
      · obtain ⟨order, hTarget⟩ := hInside call hCall label hLabel
        exact ⟨order, hTarget.1⟩
      · cases call with
        | protect range =>
          obtain ⟨hStart, hStop, -⟩ := hRanges range hCall
          rcases List.mem_pair.mp hLabel with rfl | rfl
          · exact hStart
          · exact hStop
        | declare lifetime =>
          obtain ⟨hStart, hStop, -⟩ := hLifetimes lifetime hCall
          rcases List.mem_pair.mp hLabel with rfl | rfl
          · exact hStart
          · exact hStop
        | _ => cases hLabel
    · exact fun range hRange => (hRanges range hRange).2.2.2
    · exact fun lifetime hLifetime => (hLifetimes lifetime hLifetime).2.2.1
    · exact fun lifetime hLifetime => (hLifetimes lifetime hLifetime).2.2.2
  · intro hResolvable
    refine ⟨fun call hCall _ => hResolvable.inside call hCall, ?_, ?_⟩
    · intro range hRange
      have hDefined := hResolvable.defined _ hRange
      exact ⟨hDefined range.start (by simp [bounds]), hDefined range.stop (by simp [bounds]),
        hResolvable.inside _ hRange range.handler (by simp [targets]),
        hResolvable.ranges range hRange⟩
    · intro lifetime hLifetime
      have hDefined := hResolvable.defined _ hLifetime
      exact ⟨hDefined lifetime.start (by simp [bounds]), hDefined lifetime.stop (by simp [bounds]),
        hResolvable.lifetimes lifetime hLifetime, hResolvable.declarations lifetime hLifetime⟩

/-- Each instruction of the body is made of the one with the same number. -/
theorem getElem?_of_finish (hFinish : a.finish = .ok body) (k : Nat) :
    Option.Rel (fun labelled instruction => a.resolveInstruction k labelled = .ok instruction)
      a.instructions[k]? body.instructions[k]? := by
  have hRel := mapM_getElem? (finish_eq_ok_iff.mp hFinish).2.1 k
  rw [← Array.length_toList, getElem?_zip_range, Array.getElem?_toList] at hRel
  generalize a.instructions[k]? = labelled at hRel ⊢
  generalize body.instructions[k]? = found at hRel ⊢
  cases labelled with
  | none =>
    cases hRel
    exact .none
  | some labelled =>
    cases hRel with
    | some hOk => exact .some hOk

/-- The instruction that a step of the run adds. -/
theorem Records.instruction_of_place (h : Records method done a) (hFinish : a.finish = .ok body)
    {before : List AssemblyStep} {call : AssemblyStep} {labelled : LabelledOperation}
    (hPlace : before ++ [call] <+: done) (hCall : call.operation? = some labelled) :
    ∃ operation, a.resolveOperation labelled = .ok operation ∧
      body.instructions[emitted before]? = some
        ⟨method, orderOf (emitted before), operation.text, operation, lineAfter before⟩ := by
  have hAdds : Adds done (emitted before) ⟨labelled, lineAfter before⟩ :=
    ⟨before, call, hPlace, hCall, rfl, rfl⟩
  have hRel := getElem?_of_finish hFinish (emitted before)
  rw [(h.instruction_iff _ _).mpr hAdds] at hRel
  generalize body.instructions[emitted before]? = found at hRel ⊢
  cases hRel with
  | some hOk =>
    rw [h.resolveInstruction_eq hAdds] at hOk
    obtain ⟨operation, hOperation, rfl⟩ := map_eq_ok.mp hOk
    exact ⟨operation, hOperation, rfl⟩

/-- The step of the run that an instruction comes from. -/
theorem Records.place_of_instruction (h : Records method done a) (hFinish : a.finish = .ok body)
    {k : Nat} {instruction : Instruction} (hInstruction : body.instructions[k]? = some instruction) :
    ∃ before call labelled operation, before ++ [call] <+: done ∧
      call.operation? = some labelled ∧ k = emitted before ∧
      a.resolveOperation labelled = .ok operation ∧
      instruction = ⟨method, orderOf k, operation.text, operation, lineAfter before⟩ := by
  have hRel := getElem?_of_finish hFinish k
  rw [hInstruction] at hRel
  cases hLabelled : a.instructions[k]? with
  | none =>
    rw [hLabelled] at hRel
    cases hRel
  | some labelled =>
    rw [hLabelled] at hRel
    cases hRel with
    | some hOk =>
      have hAdds := (h.instruction_iff _ _).mp hLabelled
      rw [h.resolveInstruction_eq hAdds] at hOk
      obtain ⟨operation, hOperation, rfl⟩ := map_eq_ok.mp hOk
      obtain ⟨before, call, hPlace, hCall, hIndex, hLine⟩ := hAdds
      exact ⟨before, call, _, operation, hPlace, hCall, hIndex, hOperation, by rw [hLine]⟩

theorem length_of_finish (hFinish : a.finish = .ok body) :
    body.instructions.length = a.instructions.size := by
  have hLength := (mapM_eq_ok.mp (finish_eq_ok_iff.mp hFinish).2.1).length_eq
  simpa using hLength.symm

/-- The body of a run says what the run says. -/
theorem Records.assembled (h : Records method done a) (hCount : emitted done ≤ lastOrder)
    (hFinish : a.finish = .ok body) : Assembled method done body := by
  obtain ⟨hMethod, -, hHandlers, hLocals⟩ := finish_eq_ok_iff.mp hFinish
  refine ⟨hMethod.trans h.method_eq, (length_of_finish hFinish).trans h.size_eq, ?_, ?_, ?_⟩
  · intro before call hPlace hSome
    obtain ⟨labelled, hCall⟩ := Option.isSome_iff_exists.mp hSome
    obtain ⟨operation, hOperation, hFound⟩ := h.instruction_of_place hFinish hPlace hCall
    have hLt := emitted_lt hPlace hCall
    rw [orderOf_of_le (by omega)] at hFound
    exact ⟨operation, h.resolves hCount hCall hOperation, hFound⟩
  · rw [← h.ranges_eq]
    exact (mapM_eq_ok.mp hHandlers).imp fun _ _ hOk => (h.resolveRange_eq_ok_iff hCount).mp hOk
  · rw [← h.lifetimes_eq]
    exact (mapM_eq_ok.mp hLocals).imp fun _ _ hOk => (h.resolveLifetime_eq_ok_iff hCount).mp hOk

end Body

/-! ## The flow graph -/

section Flow

variable {method : MethodId} {done : List AssemblyStep} {a : Assembler} {body : MethodBody}

theorem Records.placed (h : Records method done a) (hCount : emitted done ≤ lastOrder)
    (hFinish : a.finish = .ok body) : FlowGraph.Placed method 0 body.instructions := by
  intro k instruction hInstruction
  obtain ⟨before, call, labelled, operation, hPlace, hCall, rfl, -, rfl⟩ :=
    h.place_of_instruction hFinish hInstruction
  have hLt := emitted_lt hPlace hCall
  rw [orderOf_of_le (by omega), Nat.zero_add]
  exact ⟨rfl, rfl⟩

theorem Names.bounded {label : String} {order : Int} (h : Names done label order) :
    0 ≤ order ∧ order ≤ emitted done := by
  obtain ⟨index, hIndex, rfl⟩ := h
  have := hIndex.le_emitted
  omega

/-- The handlers of the body lie inside it. -/
theorem Records.ranges_inside (h : Records method done a) (hCount : emitted done ≤ lastOrder)
    (hFinish : a.finish = .ok body) : ∀ range ∈ body.handlers,
    0 ≤ range.start ∧ range.start ≤ body.instructions.length ∧
      0 ≤ range.stop ∧ range.stop ≤ body.instructions.length ∧
      0 ≤ range.handler ∧ range.handler < body.instructions.length := by
  intro range hRange
  obtain ⟨labelled, -, hOk⟩ := (mem_mapM (finish_eq_ok_iff.mp hFinish).2.2.1).mp hRange
  have hResolves := (h.resolveRange_eq_ok_iff hCount).mp hOk
  have hStart := hResolves.start.bounded
  have hStop := hResolves.stop.bounded
  have hHandler := hResolves.handler.1.bounded
  have hInside := hResolves.handler.2
  have hLength := (length_of_finish hFinish).trans h.size_eq
  omega

/-- The flow graph of a body is refused only because of the flow. -/
theorem Records.brokenFlow (h : Records method done a) (hCount : emitted done ≤ lastOrder)
    (hFinish : a.finish = .ok body) {settings : Settings} {fault : Error}
    (hFault : body.analyze settings = .error fault) : FlowGraph.BrokenFlow fault := by
  have hMethod := (finish_eq_ok_iff.mp hFinish).1.trans h.method_eq
  rw [MethodBody.analyze, hMethod] at hFault
  exact FlowGraph.brokenFlow_of_build (h.placed hCount hFinish) (h.ranges_inside hCount hFinish)
    hFault

end Flow

/-! ## Assembling -/

/-- What an assembler makes of a run of fewer than `2 ^ 31 - 1` instructions. A step that is not
acceptable is refused, and leaves the assembler as it was. The accepted steps have a body exactly if
they can be resolved, and it then says what they say; its flow graph can be refused because of the
flow, but not because of the instructions or the handlers. -/
theorem assembly_resolves (method : MethodId) (calls : List AssemblyStep)
    (hCount : emitted (accepted { method } calls) < 2147483647) :
    (∀ call a error left, step call a = .error error left → left = a) ∧
    (∀ before call, (∃ answer next, step call (afterAll { method } before) = .ok answer next) ↔
      Acceptable (accepted { method } before) call) ∧
    ((∃ body, (afterAll { method } calls).finish = .ok body) ↔
      Resolvable (accepted { method } calls)) ∧
    ∀ body, (afterAll { method } calls).finish = .ok body →
      Assembled method (accepted { method } calls) body ∧
      ∀ settings fault, body.analyze settings = .error fault →
        (∀ cause, fault ≠ .precondition cause) ∧ ∀ order, fault ≠ .orderCollision order := by
  have hRuns : ∀ calls, Records method (accepted { method } calls) (afterAll { method } calls) :=
    (records_nil method).run
  have hRun := hRuns calls
  have hOrders : emitted (accepted { method } calls) ≤ lastOrder := by
    unfold lastOrder
    omega
  refine ⟨atomic_step, fun before call => (hRuns before).ends_step_iff,
    hRun.exists_finish_iff hOrders, ?_⟩
  intro body hFinish
  refine ⟨hRun.assembled hOrders hFinish, ?_⟩
  intro settings fault hFault
  cases hRun.brokenFlow hOrders hFinish hFault with
  | invariant cause => simp

/-- A loop with a handler and a variable, whose labels are used before and after their definitions,
and with two steps that are refused. -/
def guardedLoop : List AssemblyStep :=
  [.line 1, .define "top", .branch .equal "end", .define "top", .emit .nop, .goto "top",
    .define "end", .line 2, .emit .methodExit, .emit (.leave none), .define "stop",
    .protect ⟨"top", "end", "end", none⟩, .declare ⟨"i", "I", 0, "top", "stop"⟩]

theorem assembly_resolves_guardedLoop :
    emitted (accepted { method := ⟨"Guarded", "loop", "()V"⟩ } guardedLoop) < 2147483647 ∧
      Resolvable (accepted { method := ⟨"Guarded", "loop", "()V"⟩ } guardedLoop) ∧
      ∃ body, (afterAll { method := ⟨"Guarded", "loop", "()V"⟩ } guardedLoop).finish = .ok body ∧
        body.instructions.length = 4 := by
  have hCount : emitted (accepted { method := ⟨"Guarded", "loop", "()V"⟩ } guardedLoop) = 4 := by
    decide +kernel
  have hRun : (afterAll { method := ⟨"Guarded", "loop", "()V"⟩ } guardedLoop).finish.isOk =
      true := by
    decide +kernel
  have hResolves := assembly_resolves ⟨"Guarded", "loop", "()V"⟩ guardedLoop (by omega)
  cases hFinish : (afterAll { method := ⟨"Guarded", "loop", "()V"⟩ } guardedLoop).finish with
  | error error =>
    rw [hFinish] at hRun
    cases hRun
  | ok body =>
    refine ⟨by omega, hResolves.2.2.1.mp ⟨body, hFinish⟩, body, rfl, ?_⟩
    rw [(hResolves.2.2.2 body hFinish).1.length_eq, hCount]

/-! ## Subroutines -/

/-- The jumps to subroutines in a body, if none was added with its target. -/
theorem Records.returnsTo_iff {method : MethodId} {done : List AssemblyStep} {a : Assembler}
    {body : MethodBody} (h : Records method done a) (hFinish : a.finish = .ok body)
    (hLabels : ∀ target, .emit (.jumpSubroutine target) ∉ done) {order : Int} :
    ReturnsTo done order ↔ ∃ jump ∈ body.instructions, ∃ target,
      jump.operation = .jumpSubroutine target ∧ order = jump.order + 1 := by
  constructor
  · intro hReturns
    obtain ⟨before, label, hPlace, rfl⟩ := hReturns
    obtain ⟨operation, hOperation, hFound⟩ := h.instruction_of_place hFinish hPlace rfl
    obtain ⟨target, -, rfl⟩ := map_eq_ok.mp hOperation
    exact ⟨_, List.mem_of_getElem? hFound, target, rfl, rfl⟩
  · intro hJump
    obtain ⟨jump, hMem, target, hTarget, rfl⟩ := hJump
    obtain ⟨k, hFound⟩ := List.mem_iff_getElem?.mp hMem
    obtain ⟨before, call, labelled, operation, hPlace, hCall, rfl, hOperation, rfl⟩ :=
      h.place_of_instruction hFinish hFound
    dsimp only at hTarget
    subst hTarget
    cases call with
    | emit =>
      cases hCall
      cases hOperation
      exact absurd (hPlace.subset (by simp)) (hLabels target)
    | jumpSubroutine label => exact ⟨before, label, hPlace, rfl⟩
    | branch | goto =>
      cases hCall
      obtain ⟨_, -, hOther⟩ := map_eq_ok.mp hOperation
      cases hOther
    | returnFromSubroutine =>
      cases hCall
      cases hOperation
    | «switch» =>
      cases hCall
      obtain ⟨_, -, hOperation⟩ := bind_eq_ok.mp hOperation
      obtain ⟨_, -, hOperation⟩ := bind_eq_ok.mp hOperation
      cases hOperation
    | define | protect | declare | line => cases hCall

/-- Control returns from a subroutine to the instructions behind the jumps to subroutines that were
added with a label, before it or after it, and to no other ones. A jump that was added with its
target is not among them; where there is none, control returns behind every jump. -/
theorem assembled_returns (method : MethodId) (calls : List AssemblyStep) (body : MethodBody)
    (hFinish : (afterAll { method } calls).finish = .ok body) (before : List AssemblyStep)
    (slot : Nat) (hPlace : before ++ [.returnFromSubroutine slot] <+: accepted { method } calls) :
    ∃ instruction targets, body.instructions[emitted before]? = some instruction ∧
      instruction.operation = .returnFromSubroutine slot targets ∧
      (∀ order, order ∈ targets ↔ ∃ earlier label,
        earlier ++ [.jumpSubroutine label] <+: accepted { method } calls ∧
          order = orderOf (emitted earlier) + 1) ∧
      ((∀ target, .emit (.jumpSubroutine target) ∉ accepted { method } calls) →
        ∀ order, order ∈ targets ↔ ∃ jump ∈ body.instructions, ∃ target,
          jump.operation = .jumpSubroutine target ∧ order = jump.order + 1) := by
  have hRun : Records method (accepted { method } calls) (afterAll { method } calls) :=
    (records_nil method).run calls
  obtain ⟨operation, hOperation, hFound⟩ := hRun.instruction_of_place hFinish hPlace rfl
  cases hOperation
  refine ⟨_, _, hFound, rfl, fun order => hRun.mem_subroutineReturns, ?_⟩
  intro hLabels order
  rw [hRun.mem_subroutineReturns, hRun.returnsTo_iff hFinish hLabels]

/-- A subroutine that is called from two places, one before it and one behind it. -/
def calledTwice : List AssemblyStep :=
  [.jumpSubroutine "sub", .goto "again", .define "sub", .emit (.store .reference 1),
    .returnFromSubroutine 1, .define "again", .jumpSubroutine "sub", .emit (.leave none)]

theorem assembled_returns_calledTwice :
    ∃ body, (afterAll { method := ⟨"Called", "twice", "()V"⟩ } calledTwice).finish = .ok body ∧
      ∃ instruction targets, body.instructions[3]? = some instruction ∧
        instruction.operation = .returnFromSubroutine 1 targets ∧ 1 ∈ targets ∧ 5 ∈ targets := by
  have hRun : (afterAll { method := ⟨"Called", "twice", "()V"⟩ } calledTwice).finish.isOk =
      true := by
    decide +kernel
  cases hFinish : (afterAll { method := ⟨"Called", "twice", "()V"⟩ } calledTwice).finish with
  | error error =>
    rw [hFinish] at hRun
    cases hRun
  | ok body =>
    have hAccepted : accepted { method := ⟨"Called", "twice", "()V"⟩ } calledTwice = calledTwice := by
      decide +kernel
    obtain ⟨instruction, targets, hFound, hOperation, hTargets, -⟩ :=
      assembled_returns ⟨"Called", "twice", "()V"⟩ calledTwice body hFinish
        (calledTwice.take 4) 1 (by rw [hAccepted]; decide +kernel)
    refine ⟨body, rfl, instruction, targets, hFound, hOperation, (hTargets 1).mpr ?_,
      (hTargets 5).mpr ?_⟩
    · exact ⟨[], "sub", by rw [hAccepted]; decide +kernel, rfl⟩
    · exact ⟨calledTwice.take 6, "sub", by rw [hAccepted]; decide +kernel, rfl⟩

/-- A jump to a subroutine that was added with its target, before the subroutine returns. -/
def calledByOrder : List AssemblyStep :=
  [.emit (.jumpSubroutine 2), .emit (.leave none), .define "sub", .emit (.store .reference 1),
    .returnFromSubroutine 1]

/-- Control need not return behind every jump to a subroutine. -/
theorem not_assembled_returns_calledByOrder :
    ¬ ∀ (method : MethodId) (calls : List AssemblyStep) (body : MethodBody),
      (afterAll { method } calls).finish = .ok body → ∀ (before : List AssemblyStep) (slot : Nat),
      before ++ [.returnFromSubroutine slot] <+: accepted { method } calls →
      ∃ instruction targets, body.instructions[emitted before]? = some instruction ∧
        instruction.operation = .returnFromSubroutine slot targets ∧
        ∀ order, order ∈ targets ↔ ∃ jump ∈ body.instructions, ∃ target,
          jump.operation = .jumpSubroutine target ∧ order = jump.order + 1 := by
  intro h
  have hRun : (afterAll { method := ⟨"Called", "byOrder", "()V"⟩ } calledByOrder).finish.map
      (fun body => body.instructions.map fun instruction =>
        (instruction.order, instruction.operation)) =
      .ok [(0, .jumpSubroutine 2), (1, .leave none), (2, .store .reference 1),
        (3, .returnFromSubroutine 1 [])] := by
    decide +kernel
  obtain ⟨body, hFinish, hOperations⟩ := map_eq_ok.mp hRun
  obtain ⟨instruction, targets, hFound, hOperation, hTargets⟩ :=
    h _ calledByOrder body hFinish (calledByOrder.take 4) 1 (by decide +kernel)
  have hLast : 3 = instruction.order ∧ targets = [] := by
    have hLast := congrArg (fun operations => operations[3]?) hOperations
    change body.instructions[3]? = some instruction at hFound
    simpa [hFound, hOperation] using hLast.symm
  have hJump : (0, .jumpSubroutine 2) ∈ body.instructions.map fun instruction =>
      (instruction.order, instruction.operation) := by
    rw [hOperations]
    exact List.mem_cons_self
  obtain ⟨jump, hMem, hEq⟩ := List.mem_map.mp hJump
  obtain ⟨hOrder, hTarget⟩ := Prod.mk.inj hEq
  have hReturn : 1 ∈ targets := (hTargets 1).mpr ⟨jump, hMem, 2, hTarget, by omega⟩
  rw [hLast.2] at hReturn
  cases hReturn

end BytecodeFlow.Assembler
