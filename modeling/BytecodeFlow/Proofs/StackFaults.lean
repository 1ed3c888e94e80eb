import BytecodeFlow.Proofs.LayoutOrder
import BytecodeFlow.Proofs.OperandTypes

/-!
# Why effects fail

An effect runs out of words only on a stack that is not as high as what the effect needs. On a
higher stack it fails, if at all, because two types do not fit (`TypeStack.apply_faults`). It is the
same with undoing an effect and what the effect leaves (`TypeStack.revert_faults`).

A layout that is not exact is extended by what an effect needs before the effect is applied. So only
exact layouts can run out of words (`FrameLayout.apply_faults`, `FrameLayout.revert_faults`). A join
never does: where one layout is too low for the other, it reports a mismatch
(`FrameLayout.merge_faults`).
-/

namespace BytecodeFlow

/-- Two types or two heights do not fit. -/
def Error.IsMismatch (error : Error) : Prop :=
  ∃ expected found, error = .stackMismatch expected found

/-- A descriptor leaves its grammar. -/
def Error.IsMalformed (error : Error) : Prop :=
  ∃ descriptor cause, error = .malformedDescriptor descriptor cause

theorem Error.IsMismatch.ne_underflow {error : Error} (h : error.IsMismatch)
    (needed available : Nat) : error ≠ .stackUnderflow needed available := by
  obtain ⟨expected, found, rfl⟩ := h
  exact nofun

/-- A step failed because two types do not fit. -/
def StackFault.IsMismatch (fault : StackFault) : Prop :=
  fault.error.IsMismatch

theorem Shuffle.words_le_wordsAfter {kind : Shuffle} (h : kind.isPop = false) :
    kind.topWords + kind.skippedWords ≤ kind.wordsAfter := by
  cases kind with
  | pop | pop2 => cases h
  | dup | dupX1 | dupX2 | dup2 | dup2X1 | dup2X2 | swap => decide

namespace TypeStack

variable {a b : TypeStack} {depth : Nat} {effect : StackEffect}

theorem takeWords_yields (h : depth ≤ words a) :
    Yields (fun parts => words parts.2 + depth = words a) StackFault.IsMismatch
      (takeWords depth a) := by
  unfold takeWords
  rw [if_neg (by omega)]
  dsimp only
  split
  · rename_i hTaken
    have hSplit := congrArg words (splitWords_fst_append_snd depth a)
    rw [words_append] at hSplit
    exact .ok (by dsimp only; omega)
  · exact .error ⟨_, _, rfl⟩

theorem popValue_yields {t : StackType} (hVoid : t ≠ .void) (h : t.words ≤ words a) :
    Yields (fun rest => words rest + t.words = words a) StackFault.IsMismatch (popValue t a) := by
  cases a with
  | nil =>
    have hPos : 0 < t.words := StackType.words_pos hVoid
    simp at h
    omega
  | cons u a =>
    rw [popValue]
    split
    · rename_i hSatisfies
      refine .ok ?_
      rw [words_cons, StackType.words_eq_of_satisfies hSatisfies, Nat.add_comm]
    · exact .error ⟨_, _, rfl⟩

theorem popValues_faults {pops : List StackType} (hVoid : VoidFree pops)
    (h : words pops ≤ words a) : FaultsAre StackFault.IsMismatch (popValues pops a) := by
  induction pops generalizing a with
  | nil => exact .ok trivial
  | cons t pops ih =>
    obtain ⟨hType, hPops⟩ := voidFree_cons.mp hVoid
    rw [words_cons] at h
    refine (popValue_yields hType (by omega)).bind fun rest _ hRest => ?_
    exact ih hPops (by omega)

theorem applyShuffle_faults {kind : Shuffle} (h : kind.topWords + kind.skippedWords ≤ words a) :
    FaultsAre StackFault.IsMismatch (applyShuffle kind a) := by
  unfold applyShuffle
  refine (takeWords_yields (by omega)).bind fun ⟨top, rest⟩ _ hRest => ?_
  dsimp only at hRest ⊢
  split
  · exact .pure _
  · refine (takeWords_yields (by omega)).bind fun ⟨skipped, rest⟩ _ _ => ?_
    dsimp only
    split <;> exact .pure _

theorem merge_faults : FaultsAre Error.IsMismatch (merge a b) := by
  unfold merge
  split
  · exact .ok trivial
  · exact .error ⟨_, _, rfl⟩

theorem revertShuffle_faults {kind : Shuffle} (h : kind.wordsAfter ≤ words a) :
    FaultsAre StackFault.IsMismatch (revertShuffle kind a) := by
  unfold revertShuffle
  split
  · exact .pure _
  · rename_i hPop
    have hCovers := Shuffle.words_le_wordsAfter (Bool.eq_false_of_not_eq_true hPop)
    refine (takeWords_yields (by omega)).bind fun ⟨top, rest⟩ _ hRest => ?_
    dsimp only at hRest ⊢
    refine (takeWords_yields (by omega)).bind fun ⟨skipped, rest⟩ _ hBelow => ?_
    dsimp only at hBelow ⊢
    split
    · exact .pure _
    · rename_i hSwap
      have hCopies := wordsAfter_of_copies (Bool.eq_false_of_not_eq_true hPop) hSwap
      refine (takeWords_yields (by omega)).bind fun ⟨copy, rest⟩ _ _ => ?_
      dsimp only
      split
      · exact .pure _
      · rename_i hMerge
        exact .error (merge_faults.of_eq_error hMerge)

/-- An effect that finds the words that it needs fails with a mismatch only. -/
theorem apply_faults (hEffect : effect.VoidFree) (h : words (needed effect) ≤ words a) :
    FaultsAre StackFault.IsMismatch (apply a effect) := by
  cases effect with
  | uniform pops value =>
    have hHeight : ¬ words a < words pops := Nat.not_lt.mpr h
    rw [apply, if_neg hHeight]
    exact (popValues_faults hEffect h).bind fun rest _ _ => .pure _
  | shuffle kind =>
    refine applyShuffle_faults ?_
    rwa [needed, FrameLayout.minimalBefore, FrameLayout.atLeast, words_replicate_any] at h
  | clear value => cases value <;> exact .ok trivial

/-- An effect whose results are found is undone, or fails with a mismatch. -/
theorem revert_faults (h : words (left effect) ≤ words a) :
    FaultsAre StackFault.IsMismatch (revert a effect) := by
  cases effect with
  | uniform pops value =>
    by_cases hValue : value = .void
    · subst hValue
      exact .ok trivial
    · rw [revert_uniform hValue]
      have hHeight : words (push value []) ≤ words a := h
      rw [words_push] at hHeight
      exact (popValue_yields hValue hHeight).bind fun rest _ _ => .pure _
  | shuffle kind =>
    refine revertShuffle_faults ?_
    rwa [left, FrameLayout.minimalAfter, FrameLayout.atLeast, words_replicate_any] at h
  | clear value => exact .ok trivial

/-- The height after an effect depends on the height before it alone. -/
theorem words_apply_congr {a' b' : TypeStack} (hEffect : effect.VoidFree)
    (hWords : words a = words a') (h : apply a effect = .ok b) (h' : apply a' effect = .ok b') :
    words b = words b' := by
  cases hClear : effect.isClear with
  | true => rw [eq_left_of_clear hEffect hClear h, eq_left_of_clear hEffect hClear h']
  | false =>
    have hLeft := words_apply hClear h
    have hRight := words_apply hClear h'
    omega

theorem words_left_le (hEffect : effect.VoidFree) (hNeeded : words (needed effect) ≤ words a)
    (h : apply a effect = .ok b) : words (left effect) ≤ words b := by
  cases hClear : effect.isClear with
  | true => rw [eq_left_of_clear hEffect hClear h]
  | false =>
    have hWords := words_apply hClear h
    omega

end TypeStack

namespace FrameLayout

variable {a b : FrameLayout} {effect : StackEffect}

/-- A join fails with a mismatch only, also if one layout is too low for the other. -/
theorem merge_faults : FaultsAre Error.IsMismatch (a.merge b) := by
  unfold merge
  split
  · exact .error ⟨_, _, rfl⟩
  · exact TypeStack.merge_faults.bind fun values _ _ => .pure _

theorem foldlM_merge_faults {demands : List (Except Error FrameLayout)}
    (h : ∀ demand ∈ demands, FaultsAre Error.IsMismatch demand) :
    FaultsAre Error.IsMismatch
      (demands.foldlM (fun layout demand => do layout.merge (← demand)) a) :=
  .foldlM (fun _ demand hDemand _ => (h demand hDemand).bind fun _ _ _ => merge_faults) trivial

/-- A layout that is not exact is as high as it has to be, once it is extended. -/
theorem extend_yields {minimal : FrameLayout} (h : a.isExact = true → minimal.words ≤ a.words) :
    Yields (fun base => minimal.words ≤ base.words) Error.IsMismatch (a.extend minimal) := by
  unfold extend
  split
  · rename_i hExact
    exact .ok (h hExact)
  · exact merge_faults.strengthen fun base hMerge => (merge_below hMerge).2.1.values.words_le

theorem apply_faults (hEffect : effect.VoidFree)
    (h : a.isExact = true → (minimalBefore effect).words ≤ a.words) :
    FaultsAre Error.IsMismatch (a.apply effect) := by
  refine (extend_yields h).bind fun base _ hBase => ?_
  have hValues : FaultsAre Error.IsMismatch
      ((TypeStack.apply base.values effect).mapError StackFault.error) :=
    (TypeStack.apply_faults hEffect hBase).mapError fun _ hFault => hFault
  exact hValues.bind fun values _ _ => .pure _

theorem revert_faults (h : a.isExact = true → (minimalAfter effect).words ≤ a.words) :
    FaultsAre Error.IsMismatch (a.revert effect) := by
  refine (extend_yields h).bind fun base _ hBase => ?_
  have hValues : FaultsAre Error.IsMismatch
      ((TypeStack.revert base.values effect).mapError StackFault.error) :=
    (TypeStack.revert_faults hBase).mapError fun _ hFault => hFault
  exact hValues.bind fun values _ _ => .pure _

end FrameLayout

/-! ## Effects of instructions -/

theorem FieldType.parse_faults (descriptor : String) :
    FaultsAre Error.IsMalformed (FieldType.parse descriptor) := by
  unfold FieldType.parse
  split
  · exact .ok trivial
  · exact .error ⟨_, _, rfl⟩
  · exact .error ⟨_, _, rfl⟩

theorem MethodType.parse_faults (descriptor : String) :
    FaultsAre Error.IsMalformed (MethodType.parse descriptor) :=
  (Yields.self _).mapError fun cause _ => ⟨descriptor, cause, rfl⟩

namespace Operation

theorem fieldStackType_faults (descriptor : String) :
    FaultsAre Error.IsMalformed (fieldStackType descriptor) :=
  (FieldType.parse_faults descriptor).map fun _ _ => trivial

/-- The operation pops and pushes values one by one. -/
def IsUniform : Operation → Prop
  | .shuffle _ | .throw | .methodExit => False
  | _ => True

variable {operation : Operation}

theorem pops_faults (h : operation.IsUniform) : FaultsAre Error.IsMalformed operation.pops := by
  cases operation with
  | shuffle _ | throw | methodExit => cases h
  | methodEntry | nop | constant | load | increment | goto | jumpSubroutine | returnFromSubroutine
  | new | arrayLoad | «switch» | newArray | newReferenceArray | arrayLength | checkCast
  | instanceOf | monitor | store | arrayStore | arithmetic | negate | convert | compare | bitwise
  | branch | multiNewArray => exact .ok trivial
  | leave kind => cases kind <;> exact .ok trivial
  | field access owner name descriptor =>
    cases access with
    | getStatic | getField => exact .ok trivial
    | putStatic | putField =>
      exact (fieldStackType_faults descriptor).bind fun _ _ _ => .pure _
  | invoke kind owner name descriptor | invokeDynamic name descriptor =>
    exact (MethodType.parse_faults descriptor).bind fun _ _ _ => .pure _

theorem pushes_faults (h : operation.IsUniform) : FaultsAre Error.IsMalformed operation.pushes := by
  cases operation with
  | shuffle _ | throw | methodExit => cases h
  | constant | load | arrayLoad | arithmetic | negate | bitwise | convert | compare | arrayLength
  | instanceOf | new | checkCast | newArray | newReferenceArray | multiNewArray | jumpSubroutine
  | methodEntry | nop | store | increment | arrayStore | branch | goto | returnFromSubroutine
  | «switch» | leave | monitor => exact .ok trivial
  | field access owner name descriptor =>
    cases access with
    | getStatic | getField => exact fieldStackType_faults descriptor
    | putStatic | putField => exact .ok trivial
  | invoke kind owner name descriptor | invokeDynamic name descriptor =>
    exact (MethodType.parse_faults descriptor).bind fun _ _ _ => .pure _

/-- The effect of an operation is known, unless a descriptor in it is malformed. -/
theorem effect_faults (operation : Operation) (intoHandler : Bool) :
    FaultsAre Error.IsMalformed (operation.effect intoHandler) := by
  cases operation with
  | shuffle | throw | methodExit => exact .ok trivial
  | _ =>
    refine (pops_faults (by trivial)).bind fun pops _ _ => ?_
    exact (pushes_faults (by trivial)).bind fun value _ _ => .pure _

end Operation

end BytecodeFlow
