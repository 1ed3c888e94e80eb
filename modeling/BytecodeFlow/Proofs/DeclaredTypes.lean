import BytecodeFlow.Proofs.ValueFlow

/-!
# Stack frames under declared types

A variable table puts declared classes in place of the unknown classes of the references that are
loaded and stored. No value moves to another place because of that. So a solution of the flow
equations with a table solves those without it as well (`FrameSolution.forget`). Conversely, a
solution without a table solves the equations with it once its references are raised to the class of
all objects (`FrameSolution.declare`), with one exception. A return address may stand where a
reference to an unknown class is expected, but it is no instance of any class, so that no class may
be declared for it (`FlowGraph.DeclaresAddress`).

The stack frames with a table therefore lie between those without it and the raised form of these,
where nothing but references can differ (`stackFrames_declared_iff`).
-/

namespace BytecodeFlow

/-! ## Effects that move the same values -/

/-- The effects are the same, or both pop equally many values one by one and push equally many. -/
inductive StackEffect.Alike : StackEffect → StackEffect → Prop
  | refl (effect : StackEffect) : Alike effect effect
  | uniform {pops pops' : List StackType} {value value' : StackType}
      (hPops : pops.length = pops'.length) (hPush : value = .void ↔ value' = .void) :
      Alike (.uniform pops value) (.uniform pops' value')

namespace StackEffect.Alike

variable {effect other : StackEffect}

theorem symm (h : Alike effect other) : Alike other effect := by
  cases h with
  | refl => exact .refl _
  | uniform hPops hPush => exact .uniform hPops.symm hPush.symm

theorem origins_eq (h : Alike effect other) (stack : TypeStack) :
    effect.origins stack = other.origins stack := by
  cases h with
  | refl => rfl
  | @uniform pops pops' value value' hPops hPush =>
    have hTop : (TypeStack.push value []).length = (TypeStack.push value' []).length := by
      by_cases hVoid : value = .void
      · simp [TypeStack.push, hVoid, hPush.mp hVoid]
      · simp [TypeStack.push, hVoid, mt hPush.mpr hVoid]
    simp only [origins, List.map_const', hTop, hPops]

end StackEffect.Alike

namespace StackType

variable {t v : StackType}

theorem Below.eq_returnAddress (h : returnAddress.Below v) : v = .returnAddress := by
  simpa [below_iff, eq_comm] using h

/-- Between a type and its raised form are only references, besides the type itself. -/
theorem eq_or_reference_of_below_raise (hLow : t.Below v) (hHigh : v.Below t.raise) :
    v = t ∨ ∃ name name', t = .reference name ∧ v = .reference name' := by
  cases t with
  | reference name =>
    refine Or.inr ?_
    rcases hHigh.eq_or with rfl | ⟨rfl, -⟩ | ⟨rfl, -⟩ | ⟨⟨name', rfl⟩, -⟩
    · exact ⟨name, _, rfl, rfl⟩
    · cases hLow.eq_any
    · exact ⟨name, _, rfl, rfl⟩
    · exact ⟨name, _, rfl, rfl⟩
  | _ => exact Or.inl (hHigh.antisymm hLow)

end StackType

namespace TypeStack

variable {s u left : TypeStack} {effect other : StackEffect}

theorem Moves.alike (h : Moves effect s u) (hAlike : effect.Alike other) : Moves other s u := by
  have hOrigins := hAlike.origins_eq s
  exact ⟨by rw [h.length_eq, hOrigins], fun hOrigin => h.carried (by rw [hOrigins, hOrigin])⟩

/-- Values that are replaced by others of the same width are moved alike. -/
theorem Moves.map {f : StackType → StackType} (hWords : ∀ t, (f t).words = t.words)
    (h : Moves effect s u) : Moves effect (s.map f) (u.map f) := by
  have hOrigins : effect.origins (s.map f) = effect.origins s :=
    origins_congr effect (by simp [hWords])
  refine ⟨by rw [List.length_map, hOrigins, h.length_eq], fun {i j} hOrigin => ?_⟩
  rw [hOrigins] at hOrigin
  rw [List.getElem?_map, List.getElem?_map, h.carried hOrigin]

/-- Where an effect can be executed, a similar one can, on stacks of the same widths that cover what
it pops. -/
theorem apply_alike (hAlike : effect.Alike other)
    (hWidths : s.map StackType.words = u.map StackType.words) (hVoid : VoidFree u)
    (hConsumed : Known other.consumed) (hBelow : Below other.consumed u)
    (h : apply s effect = .ok left) : ∃ left', apply u other = .ok left' := by
  cases hAlike with
  | refl => exact apply_congr hWidths hVoid hConsumed hBelow h
  | uniform => exact ⟨_, apply_uniform_of_below hConsumed hBelow _⟩

theorem Fits.head?_returnAddress (h : Fits s u) (hHead : s.head? = some .returnAddress) :
    u.head? = some .returnAddress := by
  cases h with
  | nil => cases hHead
  | cons hTop _ =>
    cases hHead
    exact congrArg some hTop.eq_returnAddress

theorem Below.raise (h : Below left s) (hKnown : Known left) : Below left (raise s) := by
  refine (below_iff_getElem? hKnown).mpr fun i t ht => ?_
  obtain ⟨v, hv, hBelow⟩ := (below_iff_getElem? hKnown).mp h i t ht
  exact ⟨v.raise, by simp [TypeStack.raise, hv], hBelow.trans (StackType.below_raise v)⟩

/-- Where a reference may stand, a raised one covers every class, unless it is a return address that
stands there. -/
theorem Below.reference_raise {name : Option String} (h : Below [.reference none] s)
    (hTop : name.isSome = true → s.head? ≠ some .returnAddress) :
    Below [.reference name] (TypeStack.raise s) := by
  cases h with
  | @cons _ v _ rest hType _ =>
    refine .cons ?_ (.nil _)
    have hOther : ∀ other, (StackType.reference name).Below (StackType.reference other).raise :=
      fun _ => StackType.below_raise_of_satisfies rfl rfl rfl
    rcases hType.eq_or with rfl | ⟨hAny, -⟩ | ⟨-, hAddress | ⟨other, rfl⟩⟩ |
      ⟨⟨_, hName⟩, -⟩
    · exact hOther none
    · cases hAny
    · subst hAddress
      cases name with
      | none => rfl
      | some name => exact absurd rfl (hTop rfl)
    · exact hOther other
    · cases hName

end TypeStack

/-! ## What a table declares -/

namespace Instruction

/-- What a table makes of the effect of an instruction: a stored or loaded reference takes the
declared type of its variable. -/
inductive Declares (instruction : Instruction) (locals : VariableTable) :
    StackEffect → StackEffect → Prop
  | same (effect : StackEffect) : Declares instruction locals effect effect
  | store {slot : Nat} {name : Option String}
      (hStore : instruction.operation = .store .reference slot)
      (hType : instruction.declaredType locals slot = some (.reference name)) :
      Declares instruction locals (.uniform [.reference none] .void)
        (.uniform [.reference name] .void)
  | load {slot : Nat} {name : Option String}
      (hLoad : instruction.operation = .load .reference slot)
      (hType : instruction.declaredType locals slot = some (.reference name)) :
      Declares instruction locals (.uniform [] (.reference none)) (.uniform [] (.reference name))

variable {instruction : Instruction} {locals : VariableTable} {plain effect : StackEffect}

theorem Declares.alike (h : instruction.Declares locals plain effect) : plain.Alike effect := by
  cases h with
  | same => exact .refl _
  | store => exact .uniform rfl Iff.rfl
  | load => exact .uniform rfl (by simp)

theorem Declares.fits (h : instruction.Declares locals plain effect) :
    TypeStack.Fits plain.consumed effect.consumed ∧
      TypeStack.Fits plain.produced effect.produced := by
  have hReference : ∀ name, (StackType.reference none).Below (.reference name) := by
    intro name
    cases name <;> rfl
  cases h with
  | same => exact ⟨.refl _, .refl _⟩
  | store => exact ⟨.cons (hReference _) .nil, .nil⟩
  | load => exact ⟨.nil, .cons (hReference _) .nil⟩

theorem declaredType_eq_reference {slot : Nat} {declared : StackType}
    (h : instruction.declaredType locals slot = some declared) :
    ∃ name, declared = .reference name := by
  unfold declaredType at h
  split at h <;> cases h
  exact ⟨_, rfl⟩

theorem refine_store (locals : VariableTable) {slot : Nat}
    (hStore : instruction.operation = .store .reference slot) :
    instruction.refine locals (.uniform [.reference none] .void) =
      .uniform [(instruction.declaredType locals slot).getD (.reference none)] .void := by
  simp [refine, refinePops, refinePush, hStore]

theorem refine_load (locals : VariableTable) {slot : Nat}
    (hLoad : instruction.operation = .load .reference slot) :
    instruction.refine locals (.uniform [] (.reference none)) =
      .uniform [] ((instruction.declaredType locals slot).getD (.reference none)) := by
  simp [refine, refinePops, refinePush, hLoad]

/-- Nothing but the reference that is stored or loaded takes a declared type. -/
theorem declares_refine (locals : VariableTable) {intoHandler : Bool}
    (h : instruction.operation.effect intoHandler = .ok effect) :
    instruction.Declares locals effect (instruction.refine locals effect) := by
  by_cases hStore : ∃ slot, instruction.operation = .store .reference slot
  · obtain ⟨slot, hStore⟩ := hStore
    rw [hStore] at h
    cases h
    rw [ValueKind.stackType, refine_store locals hStore]
    cases hType : instruction.declaredType locals slot with
    | none => exact .same _
    | some declared =>
      obtain ⟨name, rfl⟩ := declaredType_eq_reference hType
      exact .store hStore hType
  by_cases hLoad : ∃ slot, instruction.operation = .load .reference slot
  · obtain ⟨slot, hLoad⟩ := hLoad
    rw [hLoad] at h
    cases h
    rw [ValueKind.stackType, refine_load locals hLoad]
    cases hType : instruction.declaredType locals slot with
    | none => exact .same _
    | some declared =>
      obtain ⟨name, rfl⟩ := declaredType_eq_reference hType
      exact .load hLoad hType
  have hSame : instruction.refine locals effect = effect := by
    unfold refine refinePops refinePush
    split
    · congr 1
      · split
        · rename_i slot value rest hOperation
          exact absurd ⟨slot, hOperation⟩ hStore
        · rfl
      · split
        · rename_i slot hOperation
          exact absurd ⟨slot, hOperation⟩ hLoad
        · rfl
    · rfl
  rw [hSame]
  exact .same effect

/-- An empty table declares nothing. -/
theorem Declares.eq_of_nil (h : instruction.Declares [] plain effect) : effect = plain := by
  cases h with
  | same => rfl
  | store _ hType => cases hType
  | load _ hType => cases hType

theorem effect_nil (instruction : Instruction) (intoHandler : Bool) :
    instruction.effect [] intoHandler = instruction.operation.effect intoHandler := by
  cases h : instruction.operation.effect intoHandler with
  | error error => simp [effect, h, Except.map]
  | ok base => simp [effect, h, Except.map, (declares_refine [] h).eq_of_nil]

theorem effect_of_store {slot : Nat} {declared : StackType} (intoHandler : Bool)
    (hStore : instruction.operation = .store .reference slot)
    (hType : instruction.declaredType locals slot = some declared) :
    instruction.effect locals intoHandler = .ok (.uniform [declared] .void) := by
  rw [Instruction.effect, hStore]
  change Except.ok (instruction.refine locals (.uniform [.reference none] .void)) = _
  rw [refine_store locals hStore, hType, Option.getD_some]

theorem effect_of_load {slot : Nat} {declared : StackType} (intoHandler : Bool)
    (hLoad : instruction.operation = .load .reference slot)
    (hType : instruction.declaredType locals slot = some declared) :
    instruction.effect locals intoHandler = .ok (.uniform [] declared) := by
  rw [Instruction.effect, hLoad]
  change Except.ok (instruction.refine locals (.uniform [] (.reference none))) = _
  rw [refine_load locals hLoad, hType, Option.getD_some]

theorem effect_of_plain (locals : VariableTable) {intoHandler : Bool}
    (h : instruction.effect [] intoHandler = .ok plain) :
    ∃ effect, instruction.effect locals intoHandler = .ok effect ∧
      instruction.Declares locals plain effect := by
  rw [effect_nil] at h
  exact ⟨_, by simp [Instruction.effect, h, Except.map], declares_refine locals h⟩

theorem plain_of_effect {intoHandler : Bool}
    (h : instruction.effect locals intoHandler = .ok effect) :
    ∃ plain, instruction.effect [] intoHandler = .ok plain ∧
      instruction.Declares locals plain effect := by
  obtain ⟨plain, hPlain, rfl⟩ := map_eq_ok.mp h
  exact ⟨plain, (effect_nil _ _).trans hPlain, declares_refine locals hPlain⟩

end Instruction

/-- A return address is on top of the stack before a node. -/
def StackFrames.HasAddress (frames : StackFrames) (node : Nat) : Prop :=
  (frames.inputAt node).bind FrameLayout.top? = some .returnAddress

theorem StackFrames.HasAddress.isSome {frames : StackFrames} {node : Nat}
    (h : frames.HasAddress node) : (frames.inputAt node).isSome = true := by
  obtain ⟨layout, hLayout, -⟩ := Option.bind_eq_some_iff.mp h
  exact Option.isSome_iff_exists.mpr ⟨layout, hLayout⟩

namespace FlowGraph

variable {flow : FlowGraph} {locals : VariableTable} {family : Nat → FrameLayout}
  {node target : Nat} {effect plain : StackEffect}

theorem IsLive.exists_node (hLive : flow.IsLive node) :
    ∃ instruction, flow.graph.node? node = some instruction := by
  obtain ⟨nodes, hPath⟩ := hLive.1
  exact ⟨_, Array.getElem?_eq_getElem hPath.target_lt⟩

theorem effectBetween_of_node {instruction : Instruction}
    (hNode : flow.graph.node? node = some instruction) :
    flow.effectBetween locals node target =
      instruction.effect locals (flow.kindBetween node target).isExceptional := by
  simp only [effectBetween, hNode]

/-- Values of known types that are replaced by others of the same width, along edges whose effects
move the same values, still solve the flow equations if they cover what is popped and pushed. -/
theorem FrameSolution.map (h : flow.FrameSolution locals family) (hShape : flow.WellShaped)
    (other : VariableTable) {f : StackType → StackType} (hWords : ∀ t, (f t).words = t.words)
    (hAny : ∀ t, f t = .any → t = .any)
    (hEdge : ∀ {node target : Nat} {effect : StackEffect}, flow.IsLive node →
      flow.graph.Adj node target → flow.effectBetween locals node target = .ok effect →
      ∃ changed, flow.effectBetween other node target = .ok changed ∧ effect.Alike changed ∧
        TypeStack.Below changed.consumed ((family node).values.map f) ∧
        (flow.IsLive target → TypeStack.Below changed.produced ((family target).values.map f))) :
    flow.FrameSolution other fun node => .exactly ((family node).values.map f) := by
  have hKnown : ∀ {node : Nat}, flow.IsLive node →
      TypeStack.Known ((family node).values.map f) := by
    intro node hLive t ht
    obtain ⟨v, hv, rfl⟩ := List.mem_map.mp ht
    obtain ⟨hvAny, hvVoid⟩ := h.known hShape hLive v hv
    refine ⟨fun hSame => hvAny (hAny v hSame), fun hSame => ?_⟩
    have hZero := hWords v
    rw [hSame] at hZero
    cases v <;> contradiction
  refine .of_values ?_ hKnown fun {node target} hLive hAdj => ?_
  · rw [h.entry]
    rfl
  · obtain ⟨effect, -, hEffect, -⟩ := h.edge hLive hAdj
    obtain ⟨changed, hChanged, hAlike, hPopped, hPushed⟩ := hEdge hLive hAdj hEffect
    obtain ⟨_, hApply⟩ := (h.executes hLive hAdj hEffect).1
    have hWidths : (family node).values.map StackType.words =
        ((family node).values.map f).map StackType.words := by simp [hWords]
    obtain ⟨left, hLeft⟩ := TypeStack.apply_alike hAlike hWidths (hKnown hLive).voidFree
      (TypeStack.Ordinary.known (effectBetween_consumed hChanged)) hPopped hApply
    refine ⟨changed, left, hChanged, hLeft, hPopped, fun hTarget => ⟨hPushed hTarget, ?_⟩⟩
    exact ((h.moves hShape hLive hTarget hAdj hEffect).2.alike hAlike).map hWords

/-! ## Solutions with and without a table -/

/-- A solution with a table solves the equations without it: an unknown class covers less. -/
theorem FrameSolution.forget (h : flow.FrameSolution locals family) (hShape : flow.WellShaped) :
    flow.FrameSolution [] fun node => .exactly (family node).values := by
  have hMap := h.map hShape [] (f := id) (fun _ => rfl) (fun _ hSame => hSame)
    fun {node target effect} hLive hAdj hEffect => by
      have hPopped := (h.executes hLive hAdj hEffect).2
      have hPushed := fun hTarget => (h.moves hShape hLive hTarget hAdj hEffect).1
      obtain ⟨instruction, hNode⟩ := hLive.exists_node
      rw [effectBetween_of_node hNode] at hEffect ⊢
      obtain ⟨plain, hPlain, hDeclares⟩ := Instruction.plain_of_effect hEffect
      obtain ⟨hConsumed, hProduced⟩ := hDeclares.fits
      rw [List.map_id, List.map_id]
      exact ⟨plain, hPlain, hDeclares.alike.symm,
        hConsumed.below.trans_of_words hPopped hConsumed.words_eq, fun hTarget =>
          hProduced.below.trans_of_words (hPushed hTarget) hProduced.words_eq⟩
  simpa only [List.map_id] using hMap

/-- The table declares a class for a return address: it is on top of the stack where it is stored to
a variable of that class, or behind a load from such a variable. -/
def DeclaresAddress (flow : FlowGraph) (locals : VariableTable) (frames : StackFrames) : Prop :=
  ∃ node target instruction slot name, flow.IsLive node ∧ flow.graph.Adj node target ∧
    flow.graph.node? node = some instruction ∧
    instruction.declaredType locals slot = some (.ofClass name) ∧
    (instruction.operation = .store .reference slot ∧ frames.HasAddress node ∨
      instruction.operation = .load .reference slot ∧ frames.HasAddress target)

/-- A solution without a table solves the equations with it once its references are raised, unless
the table declares a class for a return address. -/
theorem FrameSolution.declare (h : flow.FrameSolution [] family) (hShape : flow.WellShaped)
    {frames : StackFrames} (hInputs : ∀ node, flow.IsLive node →
      frames.inputAt node = some (family node))
    (hFree : ¬ flow.DeclaresAddress locals frames) :
    flow.FrameSolution locals fun node => .exactly (TypeStack.raise (family node).values) := by
  have hHead : ∀ {node : Nat}, flow.IsLive node →
      (family node).values.head? = some .returnAddress → frames.HasAddress node := by
    intro node hLive hHead
    rw [StackFrames.HasAddress, hInputs node hLive]
    exact hHead
  refine h.map hShape locals (f := StackType.raise)
    (fun t => (StackType.below_raise t).words_eq.symm)
    (fun t hSame => (hSame ▸ StackType.below_raise t).eq_any)
    fun {node target plain} hLive hAdj hPlain => ?_
  have hPopped := (h.executes hLive hAdj hPlain).2
  have hPushed := fun hTarget => (h.moves hShape hLive hTarget hAdj hPlain).1
  have hConsumed := TypeStack.Ordinary.known (effectBetween_consumed hPlain)
  have hProduced := known_produced hPlain
  obtain ⟨instruction, hNode⟩ := hLive.exists_node
  rw [effectBetween_of_node hNode] at hPlain ⊢
  obtain ⟨effect, hEffect, hDeclares⟩ := Instruction.effect_of_plain locals hPlain
  -- raised values cover every class, so that only a return address can be in the way
  refine ⟨effect, hEffect, hDeclares.alike, ?_, fun hTarget => ?_⟩
  · cases hDeclares with
    | same => exact hPopped.raise hConsumed
    | @store slot name hStore hType =>
      refine hPopped.reference_raise fun hName hTop => ?_
      obtain ⟨name, rfl⟩ := Option.isSome_iff_exists.mp hName
      exact hFree ⟨node, target, instruction, slot, name, hLive, hAdj, hNode, hType,
        Or.inl ⟨hStore, hHead hLive hTop⟩⟩
    | load => exact .nil _
  · cases hDeclares with
    | same => exact (hPushed hTarget).raise hProduced
    | store => exact .nil _
    | @load slot name hLoad hType =>
      refine (hPushed hTarget).reference_raise fun hName hTop => ?_
      obtain ⟨name, rfl⟩ := Option.isSome_iff_exists.mp hName
      exact hFree ⟨node, target, instruction, slot, name, hLive, hAdj, hNode, hType,
        Or.inr ⟨hLoad, hHead hTarget hTop⟩⟩

/-! ## Stack frames with and without a table -/

/-- The stack frames fit every solution value by value, since they are the least one. -/
theorem FrameSolution.fits_of_least (h : flow.FrameSolution locals family)
    (hShape : flow.WellShaped) {frames : StackFrames}
    (hFrames : flow.stackFrames locals = .ok frames)
    (hInputs : ∀ node, flow.IsLive node → frames.inputAt node = some (family node))
    {other : Nat → FrameLayout} (hOther : flow.FrameSolution locals other)
    (hLive : flow.IsLive node) : TypeStack.Fits (family node).values (other node).values := by
  obtain ⟨_, hFrames', hLeast⟩ := exists_stackFrames_le hShape hOther
  obtain rfl := Except.ok.inj (hFrames.symm.trans hFrames')
  obtain ⟨_, hLayout, hLe⟩ := hLeast node hLive
  obtain rfl := Option.some.inj ((hInputs node hLive).symm.trans hLayout)
  have hBelow := FrameLayout.le_iff_below.mp hLe
  exact hBelow.values.fits (h.known hShape hLive) (hBelow.exact (h.exact hLive)).2
    (hOther.voidFree hLive)

/-- Where the stack frames without a table have a return address on top, every solution with a table
has one. -/
theorem FrameSolution.head?_of_hasAddress (h : flow.FrameSolution locals family)
    (hShape : flow.WellShaped) {plain : StackFrames} (hPlain : flow.stackFrames [] = .ok plain)
    (hLive : flow.IsLive node) (hAddress : plain.HasAddress node) :
    (family node).values.head? = some .returnAddress := by
  obtain ⟨-, least, hLeast, hInputs⟩ := exists_frameSolution hShape hPlain
  have hFits := hLeast.fits_of_least hShape hPlain hInputs (h.forget hShape) hLive
  rw [StackFrames.HasAddress, hInputs node hLive] at hAddress
  exact hFits.head?_returnAddress hAddress

/-- No solution with a table has a return address where the table declares a class. -/
theorem FrameSolution.not_declaresAddress (h : flow.FrameSolution locals family)
    (hShape : flow.WellShaped) {plain : StackFrames} (hPlain : flow.stackFrames [] = .ok plain) :
    ¬ flow.DeclaresAddress locals plain := by
  have hNone : ∀ {name : String} {s : TypeStack}, TypeStack.Below [.ofClass name] s →
      s.head? ≠ some .returnAddress := by
    rintro name _ (_ | ⟨hType, -⟩) hHead
    cases hHead
    simp [StackType.below_iff, StackType.ofClass] at hType
  rintro ⟨node, target, instruction, slot, name, hLive, hAdj, hNode, hType, hMeets⟩
  obtain ⟨effect, -, hEffect, -⟩ := h.edge hLive hAdj
  have hPopped := (h.executes hLive hAdj hEffect).2
  have hPushed := fun hTarget => (h.moves hShape hLive hTarget hAdj hEffect).1
  rw [effectBetween_of_node hNode] at hEffect
  rcases hMeets with ⟨hStore, hAddress⟩ | ⟨hLoad, hAddress⟩
  · rw [Instruction.effect_of_store _ hStore hType] at hEffect
    cases hEffect
    exact hNone hPopped (h.head?_of_hasAddress hShape hPlain hLive hAddress)
  · have hTarget : flow.IsLive target :=
      (isSome_inputAt_iff hShape hPlain target).mp hAddress.isSome
    rw [Instruction.effect_of_load _ hLoad hType] at hEffect
    cases hEffect
    exact hNone (hPushed hTarget) (h.head?_of_hasAddress hShape hPlain hTarget hAddress)

/-- **A variable table only refines the stack frames, unless it declares a class for a return
address.** -/
theorem stackFrames_declared_iff {method : MethodId} {instructions : List Instruction}
    {handlers : List HandlerRange} {settings : Settings}
    (hBuild : build method instructions handlers settings = .ok flow) {plain : StackFrames}
    (hPlain : flow.stackFrames [] = .ok plain) (locals : VariableTable) :
    ((∃ frames, flow.stackFrames locals = .ok frames) ↔ ¬ flow.DeclaresAddress locals plain) ∧
    ∀ frames, flow.stackFrames locals = .ok frames → ∀ node,
      ((frames.inputAt node).isSome = true ↔ (plain.inputAt node).isSome = true) ∧
      ∀ before after, plain.inputAt node = some before → frames.inputAt node = some after →
        before.isExact = true ∧ after.isExact = true ∧
        after.values.length = before.values.length ∧ after.words = before.words ∧
        ∀ (k : Nat) (s t : StackType), before.values[k]? = some s → after.values[k]? = some t →
          s.merge t = some t ∧
            (t = s ∨ ∃ name name', s = .reference name ∧ t = .reference name') := by
  have hShape := build_wellShaped hBuild
  obtain ⟨-, least, hLeast, hInputs⟩ := exists_frameSolution hShape hPlain
  refine ⟨⟨?_, fun hFree => exists_stackFrames hShape (hLeast.declare hShape hInputs hFree)⟩, ?_⟩
  · rintro ⟨frames, hFrames⟩
    obtain ⟨-, family, hFamily, -⟩ := exists_frameSolution hShape hFrames
    exact hFamily.not_declaresAddress hShape hPlain
  intro frames hFrames node
  have hSome := isSome_inputAt_iff hShape hPlain node
  refine ⟨(isSome_inputAt_iff hShape hFrames node).trans hSome.symm, ?_⟩
  intro before after hBefore hAfter
  have hLive : flow.IsLive node := hSome.mp (by rw [hBefore]; rfl)
  obtain ⟨-, family, hFamily, hInputs'⟩ := exists_frameSolution hShape hFrames
  obtain rfl := Option.some.inj ((hInputs node hLive).symm.trans hBefore)
  obtain rfl := Option.some.inj ((hInputs' node hLive).symm.trans hAfter)
  -- the frames lie between those without the table and the raised form of these
  have hLow := hLeast.fits_of_least hShape hPlain hInputs (hFamily.forget hShape) hLive
  have hHigh := hFamily.fits_of_least hShape hFrames hInputs'
    (hLeast.declare hShape hInputs (hFamily.not_declaresAddress hShape hPlain)) hLive
  refine ⟨hLeast.exact hLive, hFamily.exact hLive, hLow.length_eq.symm, hLow.words_eq.symm,
    fun k s t hs ht => ?_⟩
  obtain ⟨hk, rfl⟩ := List.getElem?_eq_some_iff.mp hs
  obtain ⟨hk', rfl⟩ := List.getElem?_eq_some_iff.mp ht
  have hBelow := hLow.get hk hk'
  have hAbove := hHigh.get hk' (by simpa [FrameLayout.exactly, TypeStack.raise] using hk)
  exact ⟨hBelow, StackType.eq_or_reference_of_below_raise hBelow
    (by simpa [FrameLayout.exactly, TypeStack.raise] using hAbove)⟩

/-- A subroutine that keeps its return address in a variable, and a load behind its call. -/
def keeper : List Instruction :=
  let method : MethodId := ⟨"Keeper", "item", "()LItem;"⟩
  [⟨method, 0, "0", .jumpSubroutine 3, none⟩, ⟨method, 1, "1", .load .reference 0, none⟩,
    ⟨method, 2, "2", .leave (some .reference), none⟩, ⟨method, 3, "3", .store .reference 1, none⟩,
    ⟨method, 4, "4", .returnFromSubroutine 1 [1], none⟩]

/-- The variable with the return address is declared elsewhere only. -/
def keeperLocals : VariableTable :=
  [⟨"item", "LItem;", 0, 0, 5, .ofClass "Item"⟩, ⟨"other", "LItem;", 1, 1, 3, .ofClass "Item"⟩]

/-- With the table the loaded reference has its class, and the return address stays. -/
theorem stackFrames_declared_iff_keeper :
    ∃ flow plain frames, build ⟨"Keeper", "item", "()LItem;"⟩ keeper [] {} = .ok flow ∧
      flow.stackFrames [] = .ok plain ∧ flow.stackFrames keeperLocals = .ok frames ∧
      plain.inputAt 3 = some (.exactly [.reference none]) ∧
      frames.inputAt 3 = some (.exactly [.ofClass "Item"]) ∧
      plain.inputAt 4 = some (.exactly [.returnAddress]) ∧
      ¬ flow.DeclaresAddress keeperLocals plain ∧
      ∃ input, frames.inputAt 4 = some input ∧ input.values.length = 1 ∧
        ∀ t, input.values[0]? = some t → t = .returnAddress := by
  have hRun : ((build ⟨"Keeper", "item", "()LItem;"⟩ keeper [] {}).bind fun flow =>
      (flow.stackFrames []).bind fun plain => (flow.stackFrames keeperLocals).map fun frames =>
        (plain.inputAt 3, frames.inputAt 3, plain.inputAt 4)).toOption =
      some (some (.exactly [.reference none]), some (.exactly [.ofClass "Item"]),
        some (.exactly [.returnAddress])) := by
    decide +kernel
  cases hBuild : build ⟨"Keeper", "item", "()LItem;"⟩ keeper [] {} with
  | error _ => simp [hBuild, Except.bind, Except.toOption] at hRun
  | ok flow =>
    cases hPlain : flow.stackFrames [] with
    | error _ => simp [hBuild, hPlain, Except.bind, Except.toOption] at hRun
    | ok plain =>
      cases hFrames : flow.stackFrames keeperLocals with
      | error _ => simp [hBuild, hPlain, hFrames, Except.bind, Except.map, Except.toOption] at hRun
      | ok frames =>
        simp only [hBuild, hPlain, hFrames, Except.bind, Except.map, Except.toOption,
          Option.some.injEq, Prod.mk.injEq] at hRun
        obtain ⟨hLoaded, hLoaded', hStored⟩ := hRun
        obtain ⟨hIff, hRefines⟩ := stackFrames_declared_iff hBuild hPlain keeperLocals
        obtain ⟨hSome, hSame⟩ := hRefines frames hFrames 4
        obtain ⟨input, hInput⟩ := Option.isSome_iff_exists.mp (hSome.mpr (by rw [hStored]; rfl))
        obtain ⟨-, -, hLength, -, hValues⟩ := hSame _ input hStored hInput
        refine ⟨flow, plain, frames, rfl, hPlain, hFrames, hLoaded, hLoaded', hStored,
          hIff.mp ⟨frames, hFrames⟩, input, hInput, hLength, fun t ht => ?_⟩
        rcases (hValues 0 .returnAddress t rfl ht).2 with rfl | ⟨_, _, hName, -⟩
        · rfl
        · cases hName

/-- A subroutine that is called on one way and entered with a loaded reference on the other. -/
def intruder : List Instruction :=
  let method : MethodId := ⟨"Intruder", "run", "(ILjava/lang/String;)V"⟩
  [⟨method, 0, "0", .load .int 0, none⟩, ⟨method, 1, "1", .branch .equal 4, none⟩,
    ⟨method, 2, "2", .jumpSubroutine 5, none⟩, ⟨method, 3, "3", .leave none, none⟩,
    ⟨method, 4, "4", .load .reference 1, none⟩, ⟨method, 5, "5", .store .reference 2, none⟩,
    ⟨method, 6, "6", .returnFromSubroutine 2 [3], none⟩]

def intruderLocals : VariableTable :=
  [⟨"text", "Ljava/lang/String;", 1, 4, 7, .ofClass "java/lang/String"⟩]

/-- Frames that can be computed without a table need not exist with one. -/
theorem not_stackFrames_declared :
    ¬ ∀ (method : MethodId) (instructions : List Instruction) (handlers : List HandlerRange)
      (settings : Settings) (flow : FlowGraph) (locals : VariableTable) (plain : StackFrames),
      build method instructions handlers settings = .ok flow → flow.stackFrames [] = .ok plain →
      ∃ frames, flow.stackFrames locals = .ok frames := by
  intro h
  have hRun : ((build ⟨"Intruder", "run", "(ILjava/lang/String;)V"⟩ intruder [] {}).map fun flow =>
      ((flow.stackFrames []).isOk, (flow.stackFrames intruderLocals).isOk)).toOption =
      some (true, false) := by
    decide +kernel
  cases hBuild : build ⟨"Intruder", "run", "(ILjava/lang/String;)V"⟩ intruder [] {} with
  | error _ => simp [hBuild, Except.map, Except.toOption] at hRun
  | ok flow =>
    simp only [hBuild, Except.map, Except.toOption, Option.some.injEq, Prod.mk.injEq] at hRun
    cases hPlain : flow.stackFrames [] with
    | error _ => simp [hPlain, Except.isOk, Except.toBool] at hRun
    | ok plain =>
      obtain ⟨frames, hFrames⟩ := h _ _ _ _ flow intruderLocals plain hBuild hPlain
      simp [hFrames, Except.isOk, Except.toBool] at hRun

end FlowGraph

end BytecodeFlow
