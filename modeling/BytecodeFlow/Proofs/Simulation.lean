import BytecodeFlow.Proofs.FlowShape
import BytecodeFlow.Proofs.OperandTypes

/-!
# Simulated stacks

The stack that a path leaves holds known types only: placeholders arise where effects are undone,
never where they are executed. A stack fits a frame if each of its values joins into the value of
the frame at the same position without changing it (`TypeStack.Fits`).

What can be executed on a frame can be executed on every stack that fits it, and the results fit
again (`TypeStack.apply_fits`). The order of frames lets two unknown words stand for a wide value. A
stack of known types never fits such a frame, so that it also fits the frames above
(`TypeStack.Fits.of_below`).
-/

namespace BytecodeFlow

/-- A value of known type may be consumed wherever what it joins into may be. -/
theorem StackType.Below.satisfies_of_known {value above constraint : StackType}
    (h : value.Below above) (hKnown : value ≠ .any) (hConstraint : constraint.isOrdinary = true)
    (hAbove : above.satisfies constraint = true) : value.satisfies constraint = true := by
  rcases h.eq_or with rfl | ⟨rfl, -⟩ | ⟨rfl, rfl | ⟨_, rfl⟩⟩ | ⟨⟨_, rfl⟩, rfl⟩
  · exact hAbove
  · exact absurd rfl hKnown
  all_goals
    cases constraint with
    | reference name => rfl
    | int | long | float | double => cases hAbove
    | returnAddress | any | void => cases hConstraint

namespace TypeStack

/-- Every value has a type of its own. -/
def Known (stack : TypeStack) : Prop :=
  ∀ t ∈ stack, t ≠ .any ∧ t ≠ .void

/-- Each value of the stack joins into the value of the frame at its position without changing
it. -/
abbrev Fits (stack frame : TypeStack) : Prop :=
  List.Forall₂ StackType.Below stack frame

variable {stack frame top rest : TypeStack}

theorem known_append : Known (top ++ rest) ↔ Known top ∧ Known rest :=
  List.forall_mem_append

theorem Known.voidFree (h : Known stack) : VoidFree stack :=
  fun hMem => (h _ hMem).2 rfl

namespace Fits

theorem words_eq (h : Fits stack frame) : words stack = words frame := by
  induction h with
  | nil => rfl
  | cons hType _ ih => rw [words_cons, words_cons, hType.words_eq, ih]

theorem refl (stack : TypeStack) : Fits stack stack :=
  List.forall₂_same.mpr fun t _ => .refl t

theorem append {top' rest' : TypeStack} (hTop : Fits top top') (hRest : Fits rest rest') :
    Fits (top ++ rest) (top' ++ rest') :=
  List.rel_append hTop hRest

theorem exists_split (h : Fits stack (top ++ rest)) :
    ∃ a b, stack = a ++ b ∧ Fits a top ∧ Fits b rest :=
  ⟨_, _, (List.take_append_drop top.length stack).symm, List.forall₂_take_append _ _ _ h,
    List.forall₂_drop_append _ _ _ h⟩

theorem push (h : Fits stack frame) (value : StackType) :
    Fits (push value stack) (push value frame) := by
  unfold TypeStack.push
  split
  · exact h
  · exact .cons (.refl value) h

/-- No unknown words are on a frame that a stack of known types fits. -/
theorem of_below {upper : TypeStack} (h : Fits stack frame) (hKnown : Known stack)
    (hBelow : Below frame upper) (hWords : words frame = words upper) (hVoid : VoidFree upper) :
    Fits stack upper := by
  induction hBelow generalizing stack with
  | nil upper =>
    cases h
    rw [hVoid.eq_nil hWords.symm]
    exact .nil
  | @cons a b lower upper hType _ ih =>
    cases h with
    | @cons s _ stack _ hFirst hRest =>
      obtain ⟨-, hKnown⟩ := List.forall_mem_cons.mp hKnown
      rw [words_cons, words_cons, hType.words_eq] at hWords
      exact .cons (hFirst.trans hType)
        (ih hRest hKnown (by omega) (voidFree_cons.mp hVoid).2)
  | wide _ _ _ =>
    cases h with
    | cons hFirst _ => exact absurd hFirst.eq_any (List.forall_mem_cons.mp hKnown).1.1

end Fits

theorem popValues_fits {pops : List StackType} (hPops : ∀ t ∈ pops, t.isOrdinary = true)
    (hKnown : Known stack) (hFits : Fits stack frame) {left : TypeStack}
    (hOk : popValues pops frame = .ok left) :
    ∃ result, popValues pops stack = .ok result ∧ Fits result left := by
  induction pops generalizing stack frame with
  | nil =>
    cases hOk
    exact ⟨stack, rfl, hFits⟩
  | cons t pops ih =>
    obtain ⟨hType, hPops⟩ := List.forall_mem_cons.mp hPops
    obtain ⟨middle, hPop, hLeft⟩ := bind_eq_ok.mp hOk
    obtain ⟨u, rfl, hSatisfies⟩ := popValue_eq_ok hPop
    cases hFits with
    | @cons s _ stack _ hBelow hRest =>
      obtain ⟨hFirst, hKnown⟩ := List.forall_mem_cons.mp hKnown
      obtain ⟨result, hResult, hFits⟩ := ih hPops hKnown hRest hLeft
      have hPopped : popValue t (s :: stack) = .ok stack := by
        simp [popValue, hBelow.satisfies_of_known hFirst.1 hType hSatisfies]
      refine ⟨result, ?_, hFits⟩
      rw [popValues, hPopped]
      exact hResult

theorem applyShuffle_fits {kind : Shuffle} (hKnown : Known stack) (hFits : Fits stack frame)
    {left : TypeStack} (hOk : applyShuffle kind frame = .ok left) :
    ∃ result, applyShuffle kind stack = .ok result ∧ Fits result left := by
  obtain ⟨top, skipped, rest, rfl, hTopWords, hSkippedWords, rfl⟩ := applyShuffle_eq_ok hOk
  obtain ⟨top', below, rfl, hTop, hBelow⟩ := hFits.exists_split
  obtain ⟨skipped', rest', rfl, hSkipped, hRest⟩ := hBelow.exists_split
  simp only [known_append] at hKnown
  refine ⟨_, applyShuffle_append hKnown.1.voidFree hKnown.2.1.voidFree
    (hTop.words_eq.trans hTopWords) (hSkipped.words_eq.trans hSkippedWords), ?_⟩
  refine Fits.append ?_ hRest
  unfold shuffled
  split
  · exact .nil
  · split
    · exact hSkipped.append hTop
    · exact (hTop.append hSkipped).append hTop

/-- What can be executed on a frame can be executed on the stacks that fit it. -/
theorem apply_fits {effect : StackEffect} (hConsumed : ∀ t ∈ effect.consumed, t.isOrdinary = true)
    (hKnown : Known stack) (hFits : Fits stack frame) {left : TypeStack}
    (hOk : apply frame effect = .ok left) :
    ∃ result, apply stack effect = .ok result ∧ Fits result left := by
  cases effect with
  | uniform pops value =>
    simp only [apply, hFits.words_eq] at hOk ⊢
    split at hOk
    · cases hOk
    · rename_i hHeight
      obtain ⟨rest, hPop, hPush⟩ := bind_eq_ok.mp hOk
      cases hPush
      obtain ⟨result, hResult, hRest⟩ := popValues_fits hConsumed hKnown hFits hPop
      change popValues pops stack = .ok result at hResult
      refine ⟨TypeStack.push value result, ?_, hRest.push value⟩
      rw [if_neg hHeight, hResult]
      rfl
  | shuffle kind => exact applyShuffle_fits hKnown hFits hOk
  | clear value =>
    refine ⟨left, ?_, .refl left⟩
    cases value <;> exact hOk

end TypeStack

/-! ## Along paths -/

namespace FlowGraph

variable {flow : FlowGraph} {locals : VariableTable}

/-- The instruction at a node is a jump to a subroutine. -/
def CallsSubroutine (flow : FlowGraph) (node : Nat) : Prop :=
  ∃ instruction target, flow.graph.node? node = some instruction ∧
    instruction.operation = .jumpSubroutine target

theorem effectBetween_consumed {source target : Nat} {effect : StackEffect}
    (h : flow.effectBetween locals source target = .ok effect) :
    ∀ t ∈ effect.consumed, t.isOrdinary = true := by
  unfold effectBetween at h
  split at h
  · exact Instruction.consumed_ordinary h
  · cases h
    simp [StackEffect.consumed]

theorem effectBetween_produced {source target : Nat} {effect : StackEffect}
    (h : flow.effectBetween locals source target = .ok effect) :
    (∀ t ∈ effect.produced, t.isOrdinary = true) ∨
      (flow.CallsSubroutine source ∧ effect.produced = [.returnAddress]) := by
  unfold effectBetween at h
  split at h
  · rename_i instruction hNode
    by_cases hJump : ∃ target, instruction.operation = .jumpSubroutine target
    · obtain ⟨target, hJump⟩ := hJump
      exact Or.inr ⟨⟨instruction, target, hNode, hJump⟩,
        Instruction.produced_of_jumpSubroutine h hJump⟩
    · exact Or.inl (Instruction.produced_ordinary h (not_exists.mp hJump))
  · cases h
    exact Or.inl (by simp [StackEffect.produced])

theorem known_produced {source target : Nat} {effect : StackEffect}
    (h : flow.effectBetween locals source target = .ok effect) :
    TypeStack.Known effect.produced := by
  intro t ht
  rcases effectBetween_produced h with hOrdinary | ⟨-, hAddress⟩
  · have hType := hOrdinary t ht
    constructor <;> rintro rfl <;> cases hType
  · rw [hAddress, List.mem_singleton] at ht
    rw [ht]
    exact ⟨nofun, nofun⟩

theorem known_of_apply {source target : Nat} {effect : StackEffect} {stack left : TypeStack}
    (hEffect : flow.effectBetween locals source target = .ok effect)
    (hKnown : TypeStack.Known stack) (hOk : TypeStack.apply stack effect = .ok left) :
    TypeStack.Known left := by
  intro t ht
  rcases TypeStack.mem_or_mem_produced hOk ht with ht | ht
  · exact hKnown t ht
  · exact known_produced hEffect t ht

/-- A simulation takes one step after the other. -/
theorem simulate_append (steps : List (Nat × Nat)) (source target : Nat) :
    flow.simulate locals (steps ++ [(source, target)]) = (do
      let stack ← flow.simulate locals steps
      let effect ← flow.effectBetween locals source target
      (TypeStack.apply stack effect).mapError StackFault.error) := by
  unfold simulate
  rw [List.foldlM_append]
  exact bind_congr fun stack => List.foldlM_cons.trans (bind_pure _)

theorem simulate_snoc {steps : List (Nat × Nat)} {source target : Nat} {left : TypeStack} :
    flow.simulate locals (steps ++ [(source, target)]) = .ok left ↔
      ∃ stack effect, flow.simulate locals steps = .ok stack ∧
        flow.effectBetween locals source target = .ok effect ∧
        TypeStack.apply stack effect = .ok left := by
  simp only [simulate_append, bind_eq_ok, mapError_eq_ok, exists_and_left]

end FlowGraph

end BytecodeFlow
