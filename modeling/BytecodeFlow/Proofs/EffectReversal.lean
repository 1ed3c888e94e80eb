import BytecodeFlow.Proofs.EffectOrder

/-!
# Undoing effects

Executing a shuffle and undoing it cut the stack into groups of words, each on its own. Both cut in
the same places, because a group ends with the value that completes its words, whatever lies below
it (`takeWords_again`). So a shuffle that moves or copies values is undone without a trace. Where an
effect takes values away, undoing it gives back as many words, but of the values only what the
effect itself knew of them: nothing for the words that were dropped, and the constraints for the
values that were popped one by one.

All this holds for stacks with any values on them, also with ones that occupy no word.
-/

namespace BytecodeFlow.TypeStack

variable {stack left top rest : TypeStack} {needed : Nat}

/-! ## Groups of words -/

theorem splitWords_again (h : words (splitWords needed stack).1 = needed) (below : TypeStack) :
    splitWords needed ((splitWords needed stack).1 ++ below) =
      ((splitWords needed stack).1, below) := by
  induction stack generalizing needed with
  | nil =>
    cases needed with
    | zero => simp [splitWords]
    | succ needed => cases h
  | cons value stack ih =>
    cases needed with
    | zero => simp [splitWords]
    | succ needed =>
      have hTail : words (splitWords (needed + 1 - value.words) stack).1 =
          needed + 1 - value.words := by
        simp only [splitWords, words_cons] at h
        omega
      simp only [splitWords, List.cons_append, ih hTail]

/-- A group that was taken off one stack can be taken off every stack that it lies on. -/
theorem takeWords_again (h : takeWords needed stack = .ok (top, rest)) (below : TypeStack) :
    takeWords needed (top ++ below) = .ok (top, below) := by
  have hWords := (takeWords_eq_ok h).2
  unfold takeWords at h
  split at h
  · cases h
  simp only at h
  split at h
  · rename_i hTaken
    cases h
    have hHeight : ¬ words ((splitWords needed stack).1 ++ below) < needed := by
      rw [words_append]
      omega
    rw [takeWords, if_neg hHeight, splitWords_again hTaken]
    exact if_pos hTaken
  · cases h

/-! ## Shuffles -/

variable {kind : Shuffle}

/-- A shuffle that drops a group leaves what lies below it. -/
theorem applyShuffle_drops (hPop : kind.isPop = true) (h : applyShuffle kind stack = .ok left) :
    ∃ dropped, stack = dropped ++ left ∧ words dropped = kind.topWords := by
  obtain ⟨⟨dropped, rest⟩, hTake, hRest⟩ := bind_eq_ok.mp h
  simp only [if_pos hPop] at hRest
  cases hRest
  exact ⟨dropped, takeWords_eq_ok hTake⟩

theorem revertShuffle_of_isPop (hPop : kind.isPop = true) (stack : TypeStack) :
    revertShuffle kind stack = .ok (List.replicate kind.topWords .any ++ stack) := by
  rw [revertShuffle, if_pos hPop]
  rfl

/-- The groups that a shuffle moves or copies. -/
theorem applyShuffle_groups (hPop : kind.isPop = false) (h : applyShuffle kind stack = .ok left) :
    ∃ top skipped rest, stack = top ++ (skipped ++ rest) ∧
      takeWords kind.topWords stack = .ok (top, skipped ++ rest) ∧
      takeWords kind.skippedWords (skipped ++ rest) = .ok (skipped, rest) ∧
      left = if kind = .swap then skipped ++ (top ++ rest)
        else top ++ (skipped ++ (top ++ rest)) := by
  obtain ⟨⟨top, below⟩, hTop, hBelow⟩ := bind_eq_ok.mp h
  simp only [if_neg (ne_true_of_eq_false hPop)] at hBelow
  obtain ⟨⟨skipped, rest⟩, hSkipped, hMoved⟩ := bind_eq_ok.mp hBelow
  obtain ⟨rfl, -⟩ := takeWords_eq_ok hSkipped
  refine ⟨top, skipped, rest, (takeWords_eq_ok hTop).1, hTop, hSkipped, ?_⟩
  by_cases hSwap : kind = .swap
  · simp only [if_pos hSwap] at hMoved ⊢
    cases hMoved
    exact List.append_assoc _ _ _
  · simp only [if_neg hSwap] at hMoved ⊢
    cases hMoved
    simp only [List.append_assoc]

/-- Undoing a shuffle that moves or copies values finds the groups again. Both copies of a group are
the same, so their join is the group itself. -/
theorem revertShuffle_of_groups {skipped : TypeStack} (hPop : kind.isPop = false)
    (hTop : takeWords kind.topWords stack = .ok (top, skipped ++ rest))
    (hSkipped : takeWords kind.skippedWords (skipped ++ rest) = .ok (skipped, rest)) :
    revertShuffle kind (if kind = .swap then skipped ++ (top ++ rest)
      else top ++ (skipped ++ (top ++ rest))) = .ok (top ++ (skipped ++ rest)) := by
  have hTake := takeWords_again hTop
  have hSkip := takeWords_again hSkipped
  unfold revertShuffle
  rw [hPop]
  by_cases hSwap : kind = .swap
  · subst hSwap
    -- the groups of an exchange have one word each, so each is found in the place of the other
    have hUpper : takeWords (Shuffle.topWords .swap) (skipped ++ (top ++ rest)) =
        .ok (skipped, top ++ rest) := hSkip _
    have hLower : takeWords (Shuffle.skippedWords .swap) (top ++ rest) = .ok (top, rest) := hTake _
    simp [hUpper, hLower, bind, Except.bind, pure, Except.pure]
  · have hJoin : merge top top = .ok top := by
      rw [merge, (Below.refl top).merge?]
    simp [hSwap, hTake, hSkip, hJoin, bind, Except.bind, pure, Except.pure]

theorem revertShuffle_applyShuffle (hPop : kind.isPop = false)
    (h : applyShuffle kind stack = .ok left) : revertShuffle kind left = .ok stack := by
  obtain ⟨top, skipped, rest, rfl, hTop, hSkipped, rfl⟩ := applyShuffle_groups hPop h
  exact revertShuffle_of_groups hPop hTop hSkipped

theorem words_applyShuffle (hPop : kind.isPop = false) (h : applyShuffle kind stack = .ok left) :
    words left = words stack + if kind = .swap then 0 else kind.topWords := by
  obtain ⟨top, skipped, rest, rfl, hTop, -, rfl⟩ := applyShuffle_groups hPop h
  have hWords := (takeWords_eq_ok hTop).2
  split
  · simp only [words_append]
    omega
  · simp only [words_append]
    omega

/-! ## Values that are popped one by one -/

variable {pops : List StackType} {value : StackType}

theorem popValues_forall₂ (h : popValues pops stack = .ok rest) :
    ∃ popped, stack = popped ++ rest ∧
      List.Forall₂ (fun found expected => StackType.satisfies found expected = true) popped pops := by
  induction pops generalizing stack with
  | nil =>
    cases h
    exact ⟨[], rfl, .nil⟩
  | cons expected pops ih =>
    obtain ⟨middle, hPop, hRest⟩ := bind_eq_ok.mp h
    obtain ⟨found, rfl, hSatisfies⟩ := popValue_eq_ok hPop
    obtain ⟨popped, rfl, hPopped⟩ := ih hRest
    exact ⟨found :: popped, rfl, .cons hSatisfies hPopped⟩

theorem words_of_forall₂ {popped : TypeStack}
    (h : List.Forall₂ (fun found expected => StackType.satisfies found expected = true) popped pops) :
    words popped = words pops := by
  induction h with
  | nil => rfl
  | cons hSatisfies _ ih =>
    rw [words_cons, words_cons, StackType.words_eq_of_satisfies hSatisfies, ih]

/-- Every value satisfies itself as a constraint. -/
theorem popValue_push (hValue : value ≠ .void) (stack : TypeStack) :
    popValue value (push value stack) = .ok stack := by
  have hSatisfies := (StackType.Below.refl value).satisfies hValue
  rw [push, if_neg hValue, popValue, if_pos hSatisfies]

theorem revert_push (pops : List StackType) (value : StackType) (stack : TypeStack) :
    revert (push value stack) (.uniform pops value) = .ok (pops ++ stack) := by
  by_cases hValue : value = .void
  · subst hValue
    rfl
  · rw [revert_uniform hValue, popValue_push hValue]
    rfl

theorem apply_uniform_pops (h : apply stack (.uniform pops value) = .ok left) :
    ∃ popped rest, stack = popped ++ rest ∧ left = push value rest ∧
      List.Forall₂ (fun found expected => StackType.satisfies found expected = true) popped pops := by
  simp only [apply] at h
  split at h
  · cases h
  obtain ⟨rest, hPop, hPush⟩ := bind_eq_ok.mp h
  cases hPush
  obtain ⟨popped, rfl, hPopped⟩ := popValues_forall₂ hPop
  exact ⟨popped, rest, rfl, rfl, hPopped⟩

/-! ## Effects -/

/-- Every effect that does not clear the stack can be undone on the stack that it leaves, which
restores the height. Values that were moved or copied come back as they were. Words that were
dropped come back unknown, and values that were popped one by one as their constraints. How far the
height changes is read off the effect alone. -/
theorem revert_restores (stack left : TypeStack) :
    (∀ pops value, apply stack (.uniform pops value) = .ok left →
      ∃ popped rest, stack = popped ++ rest ∧ left = push value rest ∧
        List.Forall₂ (fun found expected => StackType.satisfies found expected = true) popped pops ∧
        revert left (.uniform pops value) = .ok (pops ++ rest) ∧
        words (pops ++ rest) = words stack ∧
        (words left : Int) - words stack = value.words - words pops) ∧
    (∀ kind : Shuffle, kind.isPop = true → apply stack (.shuffle kind) = .ok left →
      ∃ dropped, stack = dropped ++ left ∧
        revert left (.shuffle kind) = .ok (List.replicate (words dropped) .any ++ left) ∧
        words (List.replicate (words dropped) .any ++ left) = words stack ∧
        (words left : Int) - words stack = -kind.topWords) ∧
    (∀ kind : Shuffle, kind.isPop = false → apply stack (.shuffle kind) = .ok left →
      revert left (.shuffle kind) = .ok stack ∧
        (words left : Int) - words stack = if kind = .swap then 0 else kind.topWords) := by
  refine ⟨?_, ?_, ?_⟩
  · intro pops value h
    obtain ⟨popped, rest, rfl, rfl, hPopped⟩ := apply_uniform_pops h
    have hWords := words_of_forall₂ hPopped
    refine ⟨popped, rest, rfl, rfl, hPopped, revert_push pops value rest, ?_, ?_⟩
    · rw [words_append, words_append, hWords]
    · rw [words_push, words_append]
      omega
  · intro kind hPop h
    obtain ⟨dropped, rfl, hWords⟩ := applyShuffle_drops hPop h
    refine ⟨dropped, rfl, ?_, ?_, ?_⟩
    · rw [hWords]
      exact revertShuffle_of_isPop hPop left
    · rw [words_append, words_append, words_replicate_any]
    · rw [words_append]
      omega
  · intro kind hPop h
    refine ⟨revertShuffle_applyShuffle hPop h, ?_⟩
    rw [words_applyShuffle hPop h]
    split
    · omega
    · omega

/-- A `long` is copied below two single words, a `long` is dropped, and a return address is popped
as a reference. -/
theorem revert_restores_mixed :
    (apply [.long, .int, .float, .double] (.shuffle .dup2X2) =
        .ok [.long, .int, .float, .long, .double] ∧
      revert [.long, .int, .float, .long, .double] (.shuffle .dup2X2) =
        .ok [.long, .int, .float, .double]) ∧
    (apply [.long, .int] (.shuffle .pop2) = .ok [.int] ∧
      revert [.int] (.shuffle .pop2) = .ok [.any, .any, .int]) ∧
    (apply [.returnAddress, .double, .int] (.uniform [.reference none, .double] .float) =
        .ok [.float, .int] ∧
      revert [.float, .int] (.uniform [.reference none, .double] .float) =
        .ok [.reference none, .double, .int]) := by
  have hCopied : apply [.long, .int, .float, .double] (.shuffle .dup2X2) =
      .ok [.long, .int, .float, .long, .double] := by decide +kernel
  have hDropped : apply [.long, .int] (.shuffle .pop2) = .ok [.int] := by decide +kernel
  have hPopped : apply [.returnAddress, .double, .int] (.uniform [.reference none, .double] .float) =
      .ok [.float, .int] := by decide +kernel
  refine ⟨⟨hCopied, ((revert_restores _ _).2.2 .dup2X2 rfl hCopied).1⟩, ⟨hDropped, ?_⟩, hPopped, ?_⟩
  · obtain ⟨dropped, hStack, hRevert, -⟩ := (revert_restores _ _).2.1 .pop2 rfl hDropped
    obtain rfl : dropped = [.long] := (List.append_cancel_right hStack).symm
    exact hRevert
  · obtain ⟨popped, rest, -, hLeft, -, hRevert, -⟩ := (revert_restores _ _).1 _ _ hPopped
    obtain rfl : rest = [.int] := (List.cons.inj hLeft).2.symm
    exact hRevert

end BytecodeFlow.TypeStack
