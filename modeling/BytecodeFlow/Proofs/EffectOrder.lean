import BytecodeFlow.FrameLayout
import BytecodeFlow.Proofs.StackOrder
import BytecodeFlow.Proofs.Success

/-!
# Effects and the order of stacks

Executing an effect and undoing it exchange the topmost values of a stack and leave the rest alone
(`apply_exchange`, `revert_exchange`). Both respect the order of stacks: what succeeds on a stack
succeeds on every stack below it that still covers what the effect needs, with a result below
(`apply_mono`, `revert_mono`).

Since the order is not transitive, a result that is below what a solution leaves need not be below
what the solution has at the next program point. It is, because the solution can be carried back
along the edge as well, which keeps the boundaries between its values (`apply_below_of_solved`,
`revert_below_of_solved`).
-/

namespace BytecodeFlow

namespace StackEffect

/-- The constraints on the values that an effect pops one by one. -/
def consumed : StackEffect → List StackType
  | .uniform pops _ => pops
  | .shuffle _ | .clear _ => []

/-- The values that an effect brings onto the stack. -/
def produced : StackEffect → List StackType
  | .uniform _ value => TypeStack.push value []
  | .shuffle _ => []
  | .clear value => value.toList

/-- No value that the effect pops or pushes stands for the absence of a value, except that nothing
may be pushed after popping. -/
def VoidFree : StackEffect → Prop
  | .uniform pops _ => TypeStack.VoidFree pops
  | .shuffle _ => True
  | .clear value => value ≠ some .void

theorem VoidFree.produced {effect : StackEffect} (h : effect.VoidFree) :
    TypeStack.VoidFree effect.produced := by
  cases effect with
  | uniform pops value =>
    show TypeStack.VoidFree (TypeStack.push value [])
    unfold TypeStack.push
    split
    · exact TypeStack.voidFree_nil
    · exact TypeStack.voidFree_cons.mpr ⟨‹_›, TypeStack.voidFree_nil⟩
  | shuffle kind => exact TypeStack.voidFree_nil
  | clear value => exact fun hMem => h (Option.mem_toList.mp hMem)

end StackEffect

theorem Shuffle.skippedWords_of_isPop {kind : Shuffle} (h : kind.isPop = true) :
    kind.skippedWords = 0 := by
  cases kind <;> first | rfl | cases h

namespace TypeStack

variable {a b c top rest : TypeStack} {depth : Nat} {effect : StackEffect}

/-! ## Taking words -/

theorem splitWords_append (hVoid : VoidFree top) (rest : TypeStack) :
    splitWords (words top) (top ++ rest) = (top, rest) := by
  induction top with
  | nil => simp [splitWords]
  | cons t top ih =>
    obtain ⟨hType, hTop⟩ := voidFree_cons.mp hVoid
    have hPos := StackType.words_pos hType
    obtain ⟨needed, hNeeded⟩ : ∃ needed, words (t :: top) = needed + 1 :=
      ⟨words (t :: top) - 1, by rw [words_cons]; omega⟩
    have hRest : needed + 1 - t.words = words top := by
      rw [words_cons] at hNeeded
      omega
    rw [hNeeded, List.cons_append, splitWords, hRest, ih hTop]

theorem takeWords_append (hVoid : VoidFree top) (rest : TypeStack) :
    takeWords (words top) (top ++ rest) = .ok (top, rest) := by
  simp [takeWords, splitWords_append hVoid]

theorem splitWords_fst_append_snd (needed : Nat) (a : TypeStack) :
    (splitWords needed a).1 ++ (splitWords needed a).2 = a := by
  induction a generalizing needed with
  | nil => cases needed <;> rfl
  | cons t a ih =>
    cases needed with
    | zero => rfl
    | succ needed => simp [splitWords, ih]

theorem takeWords_eq_ok (h : takeWords depth a = .ok (top, rest)) :
    a = top ++ rest ∧ words top = depth := by
  unfold takeWords at h
  split at h
  · cases h
  · have hSplit := splitWords_fst_append_snd depth a
    simp only at h
    split at h
    · rename_i hWords
      cases h
      exact ⟨hSplit.symm, hWords⟩
    · cases h

/-! ## Popping values -/

theorem popValue_eq_ok {t : StackType} (h : popValue t a = .ok b) :
    ∃ u, a = u :: b ∧ u.satisfies t = true := by
  cases a with
  | nil => cases h
  | cons u a =>
    simp only [popValue] at h
    split at h
    · rename_i hSatisfies
      cases h
      exact ⟨u, rfl, hSatisfies⟩
    · cases h

theorem popValues_eq_ok {pops : List StackType} (h : popValues pops a = .ok b) :
    ∃ top, a = top ++ b ∧ words top = words pops := by
  induction pops generalizing a with
  | nil =>
    cases h
    exact ⟨[], rfl, rfl⟩
  | cons t pops ih =>
    obtain ⟨middle, hPop, hRest⟩ := bind_eq_ok.mp h
    obtain ⟨u, rfl, hSatisfies⟩ := popValue_eq_ok hPop
    obtain ⟨top, rfl, hWords⟩ := ih hRest
    exact ⟨u :: top, rfl, by simp [hWords, StackType.words_eq_of_satisfies hSatisfies]⟩

/-- A value that is popped from a stack can be popped from a lower one that covers the
constraint. -/
theorem popValue_mono {t : StackType} {pops : List StackType} (hVoid : t ≠ .void)
    (hBelow : Below a b) (hMin : Below (t :: pops) a) {b' : TypeStack}
    (hOk : popValue t b = .ok b') :
    ∃ a', popValue t a = .ok a' ∧ Below pops a' ∧ Below a' b' := by
  obtain ⟨v, rfl, hSatisfies⟩ := popValue_eq_ok hOk
  have hWords := StackType.words_eq_of_satisfies hSatisfies
  cases hMin with
  | @cons _ u _ a hType hRest =>
    cases hBelow with
    | cons _ hRest' => exact ⟨a, by simp [popValue, hType.satisfies hVoid], hRest, hRest'⟩
    | wide hWide _ =>
      obtain rfl := hType.eq_any
      have hTwo := StackType.words_of_isWide hWide
      rw [StackType.words_any] at hWords
      omega
  | @wide u _ a hWide hRest =>
    -- an unknown word cannot be popped where a wide value lies
    have hTwo := StackType.words_of_isWide hWide
    rw [StackType.words_any] at hWords
    cases hBelow with
    | cons hType _ =>
      have hSame := hType.words_eq
      omega
    | wide hWide' _ =>
      have hTwo' := StackType.words_of_isWide hWide'
      omega

theorem popValues_mono {pops : List StackType} (hVoid : VoidFree pops) (hBelow : Below a b)
    (hMin : Below pops a) {b' : TypeStack} (hOk : popValues pops b = .ok b') :
    ∃ a', popValues pops a = .ok a' ∧ Below a' b' := by
  induction pops generalizing a b with
  | nil =>
    cases hOk
    exact ⟨a, rfl, hBelow⟩
  | cons t pops ih =>
    obtain ⟨hType, hPops⟩ := voidFree_cons.mp hVoid
    obtain ⟨middle, hPop, hRest⟩ := bind_eq_ok.mp hOk
    obtain ⟨lower, hLower, hMin', hBelow'⟩ := popValue_mono hType hBelow hMin hPop
    obtain ⟨a', hPopped, hResult⟩ := ih hPops hBelow' hMin' hRest
    refine ⟨a', ?_, hResult⟩
    rw [popValues, hLower]
    exact hPopped

/-! ## Shuffles -/

/-- What a shuffle makes of the group that it works on and of the values that the group passes. -/
def shuffled (kind : Shuffle) (top skipped : TypeStack) : TypeStack :=
  if kind.isPop then [] else if kind = .swap then skipped ++ top else top ++ skipped ++ top

theorem applyShuffle_eq_ok {kind : Shuffle} (h : applyShuffle kind a = .ok b) :
    ∃ top skipped rest, a = top ++ (skipped ++ rest) ∧ words top = kind.topWords ∧
      words skipped = kind.skippedWords ∧ b = shuffled kind top skipped ++ rest := by
  obtain ⟨⟨top, below⟩, hTop, hBelow⟩ := bind_eq_ok.mp h
  obtain ⟨hSplit, hTopWords⟩ := takeWords_eq_ok hTop
  by_cases hPop : kind.isPop = true
  · simp only [if_pos hPop] at hBelow
    cases hBelow
    exact ⟨top, [], _, hSplit, hTopWords, (Shuffle.skippedWords_of_isPop hPop).symm,
      by simp [shuffled, hPop]⟩
  · simp only [if_neg hPop] at hBelow
    obtain ⟨⟨skipped, rest⟩, hSkipped, hRest⟩ := bind_eq_ok.mp hBelow
    obtain ⟨rfl, hSkippedWords⟩ := takeWords_eq_ok hSkipped
    refine ⟨top, skipped, rest, hSplit, hTopWords, hSkippedWords, ?_⟩
    by_cases hSwap : kind = .swap
    · simp only [if_pos hSwap] at hRest
      cases hRest
      simp [shuffled, hSwap, Shuffle.isPop]
    · simp only [if_neg hSwap] at hRest
      cases hRest
      simp [shuffled, hSwap, hPop]

theorem applyShuffle_append {kind : Shuffle} {skipped : TypeStack} (hTop : VoidFree top)
    (hSkipped : VoidFree skipped) (hTopWords : words top = kind.topWords)
    (hSkippedWords : words skipped = kind.skippedWords) :
    applyShuffle kind (top ++ (skipped ++ rest)) = .ok (shuffled kind top skipped ++ rest) := by
  unfold applyShuffle shuffled
  rw [← hTopWords, takeWords_append hTop, ← hSkippedWords]
  simp only [bind, Except.bind]
  by_cases hPop : kind.isPop = true
  · have hNone : skipped = [] :=
      hSkipped.eq_nil (hSkippedWords.trans (Shuffle.skippedWords_of_isPop hPop))
    simp [hPop, hNone, pure, Except.pure]
  · rw [takeWords_append hSkipped]
    by_cases hSwap : kind = .swap
    · simp [hSwap, Shuffle.isPop, pure, Except.pure]
    · simp [hSwap, hPop, pure, Except.pure]

/-- Where a shuffle copies the group, undoing it joins both copies. -/
theorem revertShuffle_eq_ok {kind : Shuffle} (h : revertShuffle kind a = .ok b) :
    (kind.isPop = true ∧ b = List.replicate kind.topWords .any ++ a) ∨
      (kind = .swap ∧ ∃ top skipped rest, a = top ++ (skipped ++ rest) ∧ words top = 1 ∧
        words skipped = 1 ∧ b = skipped ++ (top ++ rest)) ∨
      (kind.isPop = false ∧ kind ≠ .swap ∧ ∃ top skipped copy group rest,
        a = top ++ (skipped ++ (copy ++ rest)) ∧ words top = kind.topWords ∧
        words skipped = kind.skippedWords ∧ words copy = kind.topWords ∧
        merge? copy top = some group ∧ b = group ++ (skipped ++ rest)) := by
  unfold revertShuffle at h
  by_cases hPop : kind.isPop = true
  · rw [if_pos hPop] at h
    cases h
    exact Or.inl ⟨hPop, rfl⟩
  · rw [if_neg hPop] at h
    obtain ⟨⟨top, below⟩, hTop, hBelow⟩ := bind_eq_ok.mp h
    obtain ⟨hSplit, hTopWords⟩ := takeWords_eq_ok hTop
    obtain ⟨⟨skipped, lower⟩, hSkipped, hLower⟩ := bind_eq_ok.mp hBelow
    obtain ⟨rfl, hSkippedWords⟩ := takeWords_eq_ok hSkipped
    by_cases hSwap : kind = .swap
    · simp only [if_pos hSwap] at hLower
      cases hLower
      subst hSwap
      exact Or.inr (Or.inl ⟨rfl, top, skipped, lower, hSplit, hTopWords, hSkippedWords, by simp⟩)
    · simp only [if_neg hSwap] at hLower
      obtain ⟨⟨copy, rest⟩, hCopy, hRest⟩ := bind_eq_ok.mp hLower
      obtain ⟨rfl, hCopyWords⟩ := takeWords_eq_ok hCopy
      simp only [merge] at hRest
      cases hMerge : merge? copy top with
      | none =>
        rw [hMerge] at hRest
        cases hRest
      | some group =>
        rw [hMerge] at hRest
        cases hRest
        exact Or.inr (Or.inr ⟨by simpa using hPop, hSwap, top, skipped, copy, group, rest, hSplit,
          hTopWords, hSkippedWords, hCopyWords, hMerge, by simp⟩)

theorem revertShuffle_swap {skipped : TypeStack} (hTop : VoidFree top)
    (hSkipped : VoidFree skipped) (hTopWords : words top = 1) (hSkippedWords : words skipped = 1) :
    revertShuffle .swap (top ++ (skipped ++ rest)) = .ok (skipped ++ (top ++ rest)) := by
  have hTake := takeWords_append hTop (skipped ++ rest)
  have hSkip := takeWords_append hSkipped rest
  rw [hTopWords] at hTake
  rw [hSkippedWords] at hSkip
  simp [revertShuffle, Shuffle.isPop, Shuffle.topWords, Shuffle.skippedWords, hTake, hSkip, bind,
    Except.bind, pure, Except.pure]

theorem wordsAfter_of_copies {kind : Shuffle} (hPop : kind.isPop = false) (hSwap : kind ≠ .swap) :
    kind.wordsAfter = 2 * kind.topWords + kind.skippedWords := by
  cases kind <;> first | rfl | exact absurd rfl hSwap | cases hPop

theorem revertShuffle_copies {kind : Shuffle} {skipped copy group : TypeStack}
    (hPop : kind.isPop = false) (hSwap : kind ≠ .swap) (hTop : VoidFree top)
    (hSkipped : VoidFree skipped) (hCopy : VoidFree copy) (hTopWords : words top = kind.topWords)
    (hSkippedWords : words skipped = kind.skippedWords) (hCopyWords : words copy = kind.topWords)
    (hMerge : merge? copy top = some group) :
    revertShuffle kind (top ++ (skipped ++ (copy ++ rest))) = .ok (group ++ (skipped ++ rest)) := by
  have hTake := takeWords_append hTop (skipped ++ (copy ++ rest))
  have hSkip := takeWords_append hSkipped (copy ++ rest)
  have hTakeCopy := takeWords_append hCopy rest
  rw [hTopWords] at hTake
  rw [hSkippedWords] at hSkip
  rw [hCopyWords] at hTakeCopy
  simp [revertShuffle, hPop, hSwap, hTake, hSkip, hTakeCopy, merge, hMerge, bind, Except.bind, pure,
    Except.pure]

theorem applyShuffle_mono {kind : Shuffle} (hVoid : VoidFree a) (hVoid' : VoidFree b)
    (hBelow : Below a b) (hHeight : kind.topWords + kind.skippedWords ≤ words a) {b' : TypeStack}
    (hOk : applyShuffle kind b = .ok b') :
    ∃ a', applyShuffle kind a = .ok a' ∧ Below a' b' := by
  obtain ⟨top, skipped, rest, rfl, hTopWords, hSkippedWords, rfl⟩ := applyShuffle_eq_ok hOk
  obtain ⟨lowTop, low, rfl, hLowTop, hTop, hLow⟩ := hBelow.exists_split (by omega)
  rw [words_append] at hHeight
  obtain ⟨lowSkipped, lowRest, rfl, hLowSkipped, hSkipped, hRest⟩ := hLow.exists_split (by omega)
  simp only [voidFree_append] at hVoid hVoid'
  refine ⟨_, applyShuffle_append hVoid.1 hVoid.2.1 (by omega) (by omega), ?_⟩
  have hCopy : Below (lowTop ++ lowRest) (top ++ rest) := hTop.append hLowTop hVoid'.1 hRest
  unfold shuffled
  split
  · exact hRest
  · split
    · rw [List.append_assoc, List.append_assoc]
      exact hSkipped.append hLowSkipped hVoid'.2.1 hCopy
    · simp only [List.append_assoc]
      exact hTop.append hLowTop hVoid'.1 (hSkipped.append hLowSkipped hVoid'.2.1 hCopy)

theorem voidFree_replicate_any (count : Nat) : VoidFree (List.replicate count .any) := by
  simp [VoidFree, List.mem_replicate]

theorem revertShuffle_mono {kind : Shuffle} (hVoid : VoidFree a) (hVoid' : VoidFree b)
    (hBelow : Below a b) (hHeight : kind.wordsAfter ≤ words a) {b' : TypeStack}
    (hOk : revertShuffle kind b = .ok b') :
    ∃ a', revertShuffle kind a = .ok a' ∧ Below a' b' := by
  rcases revertShuffle_eq_ok hOk with ⟨hPop, rfl⟩ |
      ⟨rfl, top, skipped, rest, rfl, hTopWords, hSkippedWords, rfl⟩ |
      ⟨hPop, hSwap, top, skipped, copy, group, rest, rfl, hTopWords, hSkippedWords, hCopyWords,
        hMerge, rfl⟩
  · refine ⟨List.replicate kind.topWords .any ++ a,
      by simp [revertShuffle, hPop, pure, Except.pure],
      ?_⟩
    exact (Below.refl _).append rfl (voidFree_replicate_any _) hBelow
  · have hTwo : 2 ≤ words a := hHeight
    obtain ⟨lowTop, low, rfl, hLowTop, hTop, hLow⟩ := hBelow.exists_split (by omega)
    rw [words_append] at hTwo
    obtain ⟨lowSkipped, lowRest, rfl, hLowSkipped, hSkipped, hRest⟩ :=
      hLow.exists_split (by omega)
    simp only [voidFree_append] at hVoid hVoid'
    refine ⟨_, revertShuffle_swap hVoid.1 hVoid.2.1 (by omega) (by omega), ?_⟩
    exact hSkipped.append hLowSkipped hVoid'.2.1 (hTop.append hLowTop hVoid'.1 hRest)
  · have hAfter := wordsAfter_of_copies hPop hSwap
    obtain ⟨lowTop, low, rfl, hLowTop, hTop, hLow⟩ := hBelow.exists_split (by omega)
    rw [words_append] at hHeight
    obtain ⟨lowSkipped, low, rfl, hLowSkipped, hSkipped, hLow'⟩ := hLow.exists_split (by omega)
    rw [words_append] at hHeight
    obtain ⟨lowCopy, lowRest, rfl, hLowCopy, hCopy, hRest⟩ := hLow'.exists_split (by omega)
    simp only [voidFree_append] at hVoid hVoid'
    -- the copies of the lower stack are below the joined group, so they join below it
    obtain ⟨hCopyGroup, hTopGroup, hGroupWords, hGroupVoid⟩ := merge?_below hMerge
    obtain ⟨lowGroup, hLowMerge, hGroup⟩ := (hCopy.trans_of_words hCopyGroup hLowCopy).exists_merge?
      (hTop.trans_of_words hTopGroup hLowTop)
    have hLowGroupWords := (merge?_below hLowMerge).2.2.1
    refine ⟨_, revertShuffle_copies hPop hSwap hVoid.1 hVoid.2.1 hVoid.2.2.1 (by omega) (by omega)
      (by omega) hLowMerge, ?_⟩
    exact hGroup.append (by omega) (hGroupVoid hVoid'.2.2.1 hVoid'.1)
      (hSkipped.append hLowSkipped hVoid'.2.1 hRest)

/-! ## Effects -/

/-- The topmost words that an effect needs. -/
abbrev needed (effect : StackEffect) : TypeStack :=
  (FrameLayout.minimalBefore effect).values

/-- The topmost words that an effect leaves. -/
abbrev left (effect : StackEffect) : TypeStack :=
  (FrameLayout.minimalAfter effect).values

theorem words_replicate_any (count : Nat) : words (List.replicate count .any) = count := by
  induction count with
  | zero => rfl
  | succ count ih => rw [List.replicate_succ, words_cons, ih, StackType.words_any, Nat.add_comm]

theorem words_push (t : StackType) (a : TypeStack) : words (push t a) = t.words + words a := by
  unfold push
  split
  · rename_i hVoid
    rw [hVoid]
    simp [StackType.words]
  · rw [words_cons]

theorem push_append (t : StackType) (a : TypeStack) : push t a = push t [] ++ a := by
  unfold push
  split <;> rfl

/-- An effect that does not clear the stack exchanges the words that it needs for those that it
leaves. -/
theorem apply_exchange (hClear : effect.isClear = false) (h : apply a effect = .ok b) :
    ∃ before after rest, a = before ++ rest ∧ b = after ++ rest ∧
      words before = words (needed effect) ∧ words after = words (left effect) := by
  cases effect with
  | uniform pops value =>
    simp only [apply] at h
    split at h
    · cases h
    · obtain ⟨rest, hPop, hPush⟩ := bind_eq_ok.mp h
      cases hPush
      obtain ⟨top, rfl, hWords⟩ := popValues_eq_ok hPop
      exact ⟨top, push value [], rest, rfl, push_append value rest, hWords, rfl⟩
  | shuffle kind =>
    obtain ⟨top, skipped, rest, rfl, hTop, hSkipped, rfl⟩ := applyShuffle_eq_ok h
    refine ⟨top ++ skipped, shuffled kind top skipped, rest, by simp, rfl, ?_, ?_⟩
    · show _ = words (List.replicate _ _)
      rw [words_replicate_any, words_append, hTop, hSkipped]
    · show _ = words (List.replicate _ _)
      rw [words_replicate_any]
      cases kind <;> simp_all [shuffled, Shuffle.isPop, Shuffle.wordsAfter, Shuffle.topWords,
        Shuffle.skippedWords]
  | clear value => cases hClear

theorem revert_uniform {pops : List StackType} {value : StackType} (hValue : value ≠ .void)
    (a : TypeStack) :
    revert a (.uniform pops value) = (do return pops ++ (← popValue value a)) := by
  cases value <;> first | exact absurd rfl hValue | rfl

theorem revert_uniform_eq_ok {pops : List StackType} {value : StackType} (hValue : value ≠ .void)
    (h : revert a (.uniform pops value) = .ok b) :
    ∃ t rest, a = t :: rest ∧ t.satisfies value = true ∧ b = pops ++ rest := by
  rw [revert_uniform hValue] at h
  obtain ⟨rest, hPop, hResult⟩ := bind_eq_ok.mp h
  cases hResult
  obtain ⟨t, rfl, hSatisfies⟩ := popValue_eq_ok hPop
  exact ⟨t, rest, rfl, hSatisfies, rfl⟩

/-- Undoing such an effect exchanges them back. -/
theorem revert_exchange (hClear : effect.isClear = false) (h : revert a effect = .ok b) :
    ∃ before after rest, a = after ++ rest ∧ b = before ++ rest ∧
      words before = words (needed effect) ∧ words after = words (left effect) := by
  cases effect with
  | uniform pops value =>
    by_cases hValue : value = .void
    · subst hValue
      cases h
      exact ⟨pops, [], a, rfl, rfl, rfl, rfl⟩
    · obtain ⟨t, rest, rfl, hSatisfies, rfl⟩ := revert_uniform_eq_ok hValue h
      refine ⟨pops, [t], rest, rfl, rfl, rfl, ?_⟩
      show _ = words (push value [])
      rw [words_push, words_cons, StackType.words_eq_of_satisfies hSatisfies]
  | shuffle kind =>
    have hNeeded : words (needed (.shuffle kind)) = kind.topWords + kind.skippedWords :=
      words_replicate_any _
    have hLeft : words (left (.shuffle kind)) = kind.wordsAfter := words_replicate_any _
    rcases revertShuffle_eq_ok h with ⟨hPop, rfl⟩ |
        ⟨rfl, top, skipped, rest, rfl, hTop, hSkipped, rfl⟩ |
        ⟨hPop, hSwap, top, skipped, copy, group, rest, rfl, hTop, hSkipped, hCopy, hMerge, rfl⟩
    · refine ⟨List.replicate kind.topWords .any, [], a, rfl, rfl, ?_, ?_⟩
      · rw [hNeeded, words_replicate_any]
        cases kind <;> first | rfl | cases hPop
      · rw [hLeft]
        cases kind <;> first | rfl | cases hPop
    · refine ⟨skipped ++ top, top ++ skipped, rest, by simp, by simp, ?_, ?_⟩
      · rw [hNeeded, words_append, hTop, hSkipped]
        rfl
      · rw [hLeft, words_append, hTop, hSkipped]
        rfl
    · have hGroup := (merge?_below hMerge).2.2.1
      refine ⟨group ++ skipped, top ++ (skipped ++ copy), rest, by simp, by simp, ?_, ?_⟩
      · rw [hNeeded, words_append]
        omega
      · rw [hLeft, wordsAfter_of_copies hPop hSwap, words_append, words_append]
        omega
  | clear value => cases hClear

theorem words_apply (hClear : effect.isClear = false) (h : apply a effect = .ok b) :
    words b + words (needed effect) = words a + words (left effect) := by
  obtain ⟨before, after, rest, rfl, rfl, hBefore, hAfter⟩ := apply_exchange hClear h
  simp only [words_append]
  omega

theorem words_revert (hClear : effect.isClear = false) (h : revert a effect = .ok b) :
    words b + words (left effect) = words a + words (needed effect) := by
  obtain ⟨before, after, rest, rfl, rfl, hBefore, hAfter⟩ := revert_exchange hClear h
  simp only [words_append]
  omega

/-- What can be executed on a stack can be executed on a lower one that covers what is needed. -/
theorem apply_mono (hEffect : effect.VoidFree) (hVoid : VoidFree a) (hVoid' : VoidFree b)
    (hBelow : Below a b) (hMin : Below (needed effect) a) {b' : TypeStack}
    (hOk : apply b effect = .ok b') : ∃ a', apply a effect = .ok a' ∧ Below a' b' := by
  cases effect with
  | uniform pops value =>
    have hHeight : ¬ words a < words pops := Nat.not_lt.mpr hMin.words_le
    simp only [apply] at hOk ⊢
    rw [if_neg hHeight]
    split at hOk
    · cases hOk
    · obtain ⟨rest, hPop, hPush⟩ := bind_eq_ok.mp hOk
      cases hPush
      obtain ⟨lowRest, hLowPop, hRest⟩ := popValues_mono hEffect hBelow hMin hPop
      refine ⟨push value lowRest, by rw [hLowPop]; rfl, ?_⟩
      unfold push
      split
      · exact hRest
      · exact .cons (.refl value) hRest
  | shuffle kind =>
    have hHeight := hMin.words_le
    rw [needed, FrameLayout.minimalBefore, FrameLayout.atLeast, words_replicate_any] at hHeight
    exact applyShuffle_mono hVoid hVoid' hBelow hHeight hOk
  | clear value =>
    refine ⟨b', ?_, .refl b'⟩
    cases value <;> exact hOk

/-- What can be undone on a stack can be undone on a lower one that covers what is left. -/
theorem revert_mono (hVoid : VoidFree a) (hVoid' : VoidFree b)
    (hBelow : Below a b) (hMin : Below (left effect) a) (hEffect : effect.VoidFree)
    {b' : TypeStack} (hOk : revert b effect = .ok b') :
    ∃ a', revert a effect = .ok a' ∧ Below a' b' := by
  cases effect with
  | uniform pops value =>
    by_cases hValue : value = .void
    · subst hValue
      cases hOk
      exact ⟨pops ++ a, rfl, (Below.refl pops).append rfl hEffect hBelow⟩
    · have hPushed : left (.uniform pops value) = [value] := if_neg hValue
      rw [hPushed] at hMin
      rw [revert_uniform hValue] at hOk ⊢
      obtain ⟨rest, hPop, hResult⟩ := bind_eq_ok.mp hOk
      cases hResult
      obtain ⟨lowRest, hLowPop, -, hRest⟩ := popValue_mono hValue hBelow hMin hPop
      refine ⟨pops ++ lowRest, by rw [hLowPop]; rfl, ?_⟩
      exact (Below.refl pops).append rfl hEffect hRest
  | shuffle kind =>
    have hHeight := hMin.words_le
    rw [left, FrameLayout.minimalAfter, FrameLayout.atLeast, words_replicate_any] at hHeight
    exact revertShuffle_mono hVoid hVoid' hBelow hHeight hOk
  | clear value =>
    cases hOk
    exact ⟨[], rfl, .nil _⟩

/-- What is on the stack after an effect was there before, or the effect has brought it. -/
theorem mem_or_mem_produced (h : apply a effect = .ok b) {t : StackType} (ht : t ∈ b) :
    t ∈ a ∨ t ∈ effect.produced := by
  cases effect with
  | uniform pops value =>
    simp only [apply] at h
    split at h
    · cases h
    · obtain ⟨rest, hPop, hPush⟩ := bind_eq_ok.mp h
      cases hPush
      obtain ⟨top, rfl, -⟩ := popValues_eq_ok hPop
      rw [push_append] at ht
      rcases List.mem_append.mp ht with ht | ht
      · exact Or.inr ht
      · exact Or.inl (List.mem_append_right _ ht)
  | shuffle kind =>
    obtain ⟨top, skipped, rest, rfl, -, -, rfl⟩ := applyShuffle_eq_ok h
    refine Or.inl ?_
    unfold shuffled at ht
    split at ht
    · simp_all
    · split at ht <;> simp only [List.mem_append] at ht ⊢ <;> tauto
  | clear value =>
    refine Or.inr ?_
    cases value with
    | none =>
      cases h
      exact ht
    | some value =>
      cases h
      unfold push at ht
      split at ht
      · cases ht
      · exact ht

theorem apply_voidFree (hEffect : effect.VoidFree) (hVoid : VoidFree a)
    (hOk : apply a effect = .ok b) : VoidFree b := by
  intro hMem
  rcases mem_or_mem_produced hOk hMem with hMem | hMem
  · exact hVoid hMem
  · exact hEffect.produced hMem

theorem revert_voidFree (hEffect : effect.VoidFree) (hVoid : VoidFree a)
    (hOk : revert a effect = .ok b) : VoidFree b := by
  cases effect with
  | uniform pops value =>
    by_cases hValue : value = .void
    · subst hValue
      cases hOk
      exact voidFree_append.mpr ⟨hEffect, hVoid⟩
    · obtain ⟨t, rest, rfl, -, rfl⟩ := revert_uniform_eq_ok hValue hOk
      exact voidFree_append.mpr ⟨hEffect, (voidFree_cons.mp hVoid).2⟩
  | shuffle kind =>
    rcases revertShuffle_eq_ok hOk with ⟨-, rfl⟩ | ⟨rfl, top, skipped, rest, rfl, -, -, rfl⟩ |
        ⟨-, -, top, skipped, copy, group, rest, rfl, -, -, -, hMerge, rfl⟩
    · exact voidFree_append.mpr ⟨voidFree_replicate_any _, hVoid⟩
    · simp only [voidFree_append] at hVoid ⊢
      tauto
    · simp only [voidFree_append] at hVoid ⊢
      exact ⟨(merge?_below hMerge).2.2.2 hVoid.2.2.1 hVoid.1, hVoid.2.1, hVoid.2.2.2⟩
  | clear value =>
    cases hOk
    exact voidFree_nil

/-! ## What effects need and leave -/

/-- An effect that succeeds finds a boundary below the words that it needs. -/
theorem needed_below_of_apply (hBeneath : Beneath (needed effect) a)
    (hOk : apply a effect = .ok b) : Below (needed effect) a := by
  cases hClear : effect.isClear with
  | true =>
    cases effect with
    | clear value => exact .nil a
    | uniform pops value => cases hClear
    | shuffle kind => cases hClear
  | false =>
    obtain ⟨before, _, rest, rfl, -, hWords, -⟩ := apply_exchange hClear hOk
    exact hBeneath.below_of_aligned ⟨before, rest, rfl, hWords⟩

/-- After a clearing effect only what it leaves is on the stack. -/
theorem eq_left_of_clear (hEffect : effect.VoidFree) (hClear : effect.isClear = true)
    (hOk : apply a effect = .ok b) : b = left effect := by
  cases effect with
  | uniform pops value => cases hClear
  | shuffle kind => cases hClear
  | clear value =>
    cases value with
    | none =>
      cases hOk
      rfl
    | some value =>
      cases hOk
      exact if_neg fun hEq => hEffect (congrArg some hEq)

/-- An effect leaves what it says it leaves. -/
theorem left_below_of_apply (hEffect : effect.VoidFree) (hVoid : VoidFree b)
    (hOk : apply a effect = .ok b) : Below (left effect) b := by
  cases effect with
  | uniform pops value =>
    simp only [apply] at hOk
    split at hOk
    · cases hOk
    · obtain ⟨rest, -, hPush⟩ := bind_eq_ok.mp hOk
      cases hPush
      show Below (push value []) (push value rest)
      unfold push
      split
      · exact .nil _
      · exact .cons (.refl value) (.nil _)
  | shuffle kind =>
    obtain ⟨_, after, rest, -, rfl, -, hWords⟩ := apply_exchange rfl hOk
    rw [left, FrameLayout.minimalAfter, FrameLayout.atLeast, words_replicate_any] at hWords
    exact replicate_any_below ⟨after, rest, rfl, hWords⟩ hVoid
  | clear value =>
    rw [eq_left_of_clear hEffect rfl hOk]
    exact .refl _

/-- What an effect leaves is on every stack above its result from which it can be undone. -/
theorem left_below_of_solved (hEffect : effect.VoidFree) (hVoid : VoidFree b)
    (hApply : apply a effect = .ok b) (hBelow : Below b c) {before : TypeStack}
    (hRevert : revert c effect = .ok before) : Below (left effect) c := by
  cases hClear : effect.isClear with
  | true => exact eq_left_of_clear hEffect hClear hApply ▸ hBelow
  | false =>
    have hLeft := left_below_of_apply hEffect hVoid hApply
    obtain ⟨_, after, rest, rfl, -, -, hWords⟩ := revert_exchange hClear hRevert
    exact hLeft.trans_of_aligned hBelow ⟨after, rest, rfl, hWords⟩

/-! ## Stacks below a solution

An edge is solved by the stacks `s` and `u` at its ends if executing its effect on `s` leads below
`u`, and undoing it on `u` leads back below `s`, at the same heights. -/

section Solved

variable {s u after before : TypeStack}

/-- What a stack below the solution leaves is below the solution. -/
theorem apply_below_of_solved (hEffect : effect.VoidFree) (hApply : apply s effect = .ok after)
    (hAfter : Below after u) (hRevert : revert u effect = .ok before) (hBefore : Below before s)
    (hHeight : effect.isClear = false → words before = words s) (hBelow : Below a s)
    (hOk : apply a effect = .ok b) (hResult : Below b after) : Below b u := by
  cases hClear : effect.isClear with
  | true =>
    rw [eq_left_of_clear hEffect hClear hOk, ← eq_left_of_clear hEffect hClear hApply]
    exact hAfter
  | false =>
    -- the end of `a` is a boundary of `s`, so of what `u` is carried back to, so of `u`
    have hAligned : Aligned (words a) before :=
      hBefore.aligned_of_aligned hBelow.aligned (hHeight hClear ▸ hBelow.words_le)
    obtain ⟨front, back, rest, rfl, rfl, hFront, hBack⟩ := revert_exchange hClear hRevert
    obtain ⟨front', back', rest', rfl, rfl, hFront', hBack'⟩ := apply_exchange hClear hOk
    rw [words_append, hFront', ← hFront] at hAligned
    have hEnd : Aligned (words (back' ++ rest')) (back ++ rest) := by
      rw [words_append, hBack', ← hBack]
      exact hAligned.of_append.append back
    exact hResult.trans_of_aligned hAfter hEnd

/-- What a stack below the solution asks for is below the solution. -/
theorem revert_below_of_solved (hApply : apply s effect = .ok after) (hAfter : Below after u)
    (hRevert : revert u effect = .ok before) (hBefore : Below before s)
    (hHeight : words after = words u) (hBelow : Below a u) (hOk : revert a effect = .ok b)
    (hResult : Below b before) : Below b s := by
  cases hClear : effect.isClear with
  | true =>
    cases effect with
    | uniform pops value => cases hClear
    | shuffle kind => cases hClear
    | clear value =>
      cases hOk
      exact .nil s
  | false =>
    have hAligned : Aligned (words a) after :=
      hAfter.aligned_of_aligned hBelow.aligned (hHeight ▸ hBelow.words_le)
    obtain ⟨front, back, rest, rfl, rfl, hFront, hBack⟩ := apply_exchange hClear hApply
    obtain ⟨front', back', rest', rfl, rfl, hFront', hBack'⟩ := revert_exchange hClear hOk
    rw [words_append, hBack', ← hBack] at hAligned
    have hEnd : Aligned (words (front' ++ rest')) (front ++ rest) := by
      rw [words_append, hFront', ← hFront]
      exact hAligned.of_append.append front
    exact hResult.trans_of_aligned hBefore hEnd

end Solved

end TypeStack

end BytecodeFlow
