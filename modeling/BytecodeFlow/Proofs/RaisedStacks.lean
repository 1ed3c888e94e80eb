import BytecodeFlow.Proofs.EffectReversal
import BytecodeFlow.Proofs.LayoutOrder
import BytecodeFlow.Proofs.Simulation

/-!
# Stacks of raised references

A stack is raised by replacing all its references by references to the class of all objects. Two
stacks of ordinary values that merge value by value are raised to the same stack
(`TypeStack.raise_eq_of_merge`).

What can be executed on a stack can be executed on the raised one, with a result below the raised
result, and it can be undone from there (`TypeStack.apply_raise`, `TypeStack.revert_raise`). So the
raised stacks at the ends of an edge solve it, as soon as the edge leads from one of the stacks to
the other (`FrameLayout.solved_raise`).
-/

namespace BytecodeFlow

namespace StackType

/-- The type with the class of all objects in place of any other class. -/
def raise : StackType → StackType
  | .reference _ => ofClass objectClass
  | t => t

variable {a b : StackType}

theorem below_raise (a : StackType) : a.Below a.raise := by
  rcases a with _ | _ | _ | _ | (_ | name) | _ | _ | _
  case reference.none => exact below_iff.mpr (Or.inr (Or.inr (Or.inl ⟨rfl, Or.inr ⟨_, rfl⟩⟩)))
  case reference.some => exact below_iff.mpr (Or.inr (Or.inr (Or.inr ⟨⟨name, rfl⟩, rfl⟩)))
  all_goals exact .refl _

theorem isOrdinary_raise (a : StackType) : a.raise.isOrdinary = a.isOrdinary := by
  cases a <;> rfl

theorem satisfies_raise (a constraint : StackType) :
    a.raise.satisfies constraint = a.satisfies constraint := by
  cases a <;> cases constraint <;> rfl

/-- A raised value is above every constraint that it satisfies. -/
theorem below_raise_of_satisfies {constraint : StackType} (ha : a.isOrdinary = true)
    (hConstraint : constraint.isOrdinary = true) (h : a.satisfies constraint = true) :
    constraint.Below a.raise := by
  cases constraint with
  | reference name =>
    cases a with
    | reference _ => exact below_raise (.reference name)
    | int | long | float | double => cases h
    | returnAddress | any | void => cases ha
  | int | long | float | double =>
    cases a with
    | returnAddress | any | void => cases ha
    | _ => first | exact .refl _ | cases h
  | returnAddress | any | void => cases hConstraint

theorem raise_eq_of_merge (ha : a.isOrdinary = true) (hb : b.isOrdinary = true)
    (h : (a.merge b).isSome = true) : a.raise = b.raise := by
  cases a with
  | returnAddress | any | void => cases ha
  | _ =>
    cases b with
    | returnAddress | any | void => cases hb
    | _ => first | rfl | cases h

end StackType

namespace TypeStack

/-- All values are what programs compute with. -/
def Ordinary (stack : TypeStack) : Prop :=
  ∀ t ∈ stack, t.isOrdinary = true

/-- The stack with the class of all objects in place of any other class. -/
def raise (stack : TypeStack) : TypeStack :=
  stack.map StackType.raise

variable {stack left top rest a b : TypeStack} {effect : StackEffect}

@[simp] theorem raise_nil : raise [] = [] := rfl

@[simp] theorem raise_cons (t : StackType) (stack : TypeStack) :
    raise (t :: stack) = t.raise :: raise stack := rfl

@[simp] theorem raise_append : raise (top ++ rest) = raise top ++ raise rest :=
  List.map_append

theorem ordinary_append : Ordinary (top ++ rest) ↔ Ordinary top ∧ Ordinary rest :=
  List.forall_mem_append

theorem Ordinary.known (h : Ordinary stack) : Known stack := by
  intro t ht
  have hType := h t ht
  constructor <;> rintro rfl <;> cases hType

theorem Ordinary.voidFree (h : Ordinary stack) : VoidFree stack :=
  h.known.voidFree

theorem Ordinary.raise (h : Ordinary stack) : Ordinary (raise stack) := by
  intro t ht
  obtain ⟨s, hs, rfl⟩ := List.mem_map.mp ht
  rw [StackType.isOrdinary_raise]
  exact h s hs

theorem fits_raise (stack : TypeStack) : Fits stack (raise stack) :=
  List.forall₂_map_right_iff.mpr (List.forall₂_same.mpr fun t _ => t.below_raise)

theorem words_raise (stack : TypeStack) : words (raise stack) = words stack :=
  (fits_raise stack).words_eq.symm

theorem Fits.below_append {upper : TypeStack} (h : Fits stack top) (hRest : Below rest upper) :
    Below (stack ++ rest) (top ++ upper) := by
  induction h with
  | nil => exact hRest
  | cons hType _ ih => exact .cons hType ih

theorem Fits.below (h : Fits stack top) : Below stack top := by
  simpa using h.below_append (.nil [])

theorem raise_eq_of_merge (ha : Ordinary a) (hb : Ordinary b) (hLength : a.length = b.length)
    (hMerge : ∀ (k : Nat) (s t : StackType), a[k]? = some s → b[k]? = some t →
      (s.merge t).isSome = true) : raise a = raise b := by
  unfold raise
  refine List.ext_getElem (by simpa using hLength) fun k hk hk' => ?_
  rw [List.length_map] at hk hk'
  rw [List.getElem_map, List.getElem_map]
  exact StackType.raise_eq_of_merge (ha _ (List.getElem_mem hk)) (hb _ (List.getElem_mem hk'))
    (hMerge k _ _ (List.getElem?_eq_getElem hk) (List.getElem?_eq_getElem hk'))

/-! ## Executing effects -/

/-- The popped values are raised to types above their constraints. -/
theorem popValues_raise {pops : List StackType} (hPops : Ordinary pops) (hStack : Ordinary stack)
    (h : popValues pops stack = .ok rest) :
    popValues pops (raise stack) = .ok (raise rest) ∧
      ∃ top, stack = top ++ rest ∧ Fits pops (raise top) := by
  induction pops generalizing stack with
  | nil =>
    cases h
    exact ⟨rfl, [], rfl, .nil⟩
  | cons t pops ih =>
    obtain ⟨hType, hPops⟩ := List.forall_mem_cons.mp hPops
    obtain ⟨middle, hPop, hRest⟩ := bind_eq_ok.mp h
    obtain ⟨u, rfl, hSatisfies⟩ := popValue_eq_ok hPop
    obtain ⟨hFirst, hStack⟩ := List.forall_mem_cons.mp hStack
    obtain ⟨hRaised, top, rfl, hFits⟩ := ih hPops hStack hRest
    refine ⟨?_, u :: top, rfl, .cons (u.below_raise_of_satisfies hFirst hType hSatisfies) hFits⟩
    have hPopped : popValue t (raise (u :: (top ++ rest))) = .ok (raise (top ++ rest)) := by
      rw [raise_cons, popValue, StackType.satisfies_raise, if_pos hSatisfies]
    rw [popValues, hPopped]
    exact hRaised

theorem raise_shuffled (kind : Shuffle) (top skipped : TypeStack) :
    raise (shuffled kind top skipped) = shuffled kind (raise top) (raise skipped) := by
  unfold shuffled
  split
  · rfl
  · split <;> simp

theorem applyShuffle_raise {kind : Shuffle} (hStack : Ordinary stack)
    (h : applyShuffle kind stack = .ok left) :
    applyShuffle kind (raise stack) = .ok (raise left) := by
  obtain ⟨top, skipped, rest, rfl, hTop, hSkipped, rfl⟩ := applyShuffle_eq_ok h
  simp only [ordinary_append] at hStack
  rw [raise_append, raise_append, raise_append, raise_shuffled]
  exact applyShuffle_append hStack.1.raise.voidFree hStack.2.1.raise.voidFree
    ((words_raise top).trans hTop) ((words_raise skipped).trans hSkipped)

theorem apply_raise (hConsumed : Ordinary effect.consumed) (hStack : Ordinary stack)
    (h : apply stack effect = .ok left) :
    ∃ after, apply (raise stack) effect = .ok after ∧ Fits after (raise left) := by
  cases effect with
  | uniform pops value =>
    simp only [apply, words_raise] at h ⊢
    split at h
    · cases h
    · rename_i hHeight
      obtain ⟨rest, hPop, hPush⟩ := bind_eq_ok.mp h
      cases hPush
      have hRaised : popValues pops (raise stack) = .ok (raise rest) :=
        (popValues_raise hConsumed hStack hPop).1
      refine ⟨push value (raise rest), ?_, ?_⟩
      · rw [if_neg hHeight, hRaised]
        rfl
      · rw [push_append, push_append value rest, raise_append]
        exact (fits_raise _).append (.refl _)
  | shuffle kind => exact ⟨_, applyShuffle_raise hStack h, .refl _⟩
  | clear value =>
    refine ⟨left, ?_, fits_raise left⟩
    cases value <;> exact h

/-- A stack that a shuffle can be executed on covers the words that it needs. -/
theorem needed_below_of_applyShuffle {kind : Shuffle} (hVoid : VoidFree stack)
    (h : applyShuffle kind stack = .ok left) : Below (needed (.shuffle kind)) stack := by
  obtain ⟨top, skipped, rest, rfl, hTop, hSkipped, -⟩ := applyShuffle_eq_ok h
  refine replicate_any_below ⟨top ++ skipped, rest, by simp, ?_⟩ hVoid
  rw [words_append, hTop, hSkipped]

theorem needed_below_raise (hConsumed : Ordinary effect.consumed) (hStack : Ordinary stack)
    (h : apply stack effect = .ok left) : Below (needed effect) (raise stack) := by
  cases effect with
  | uniform pops value =>
    simp only [apply] at h
    split at h
    · cases h
    · obtain ⟨rest, hPop, -⟩ := bind_eq_ok.mp h
      obtain ⟨-, top, rfl, hFits⟩ := popValues_raise hConsumed hStack hPop
      have hNeeded := hFits.below_append (.nil (raise rest))
      rw [List.append_nil, ← raise_append] at hNeeded
      exact hNeeded
  | shuffle kind =>
    exact needed_below_of_applyShuffle hStack.raise.voidFree (applyShuffle_raise hStack h)
  | clear value => exact .nil _

/-! ## Undoing them -/

/-- What a shuffle leaves can be undone, into nothing but what was there before. -/
theorem revertShuffle_of_apply {kind : Shuffle} (hVoid : VoidFree stack)
    (h : applyShuffle kind stack = .ok left) :
    ∃ before, revertShuffle kind left = .ok before ∧ Below before stack := by
  by_cases hPop : kind.isPop = true
  · -- the removed words come back unknown
    obtain ⟨dropped, rfl, hWords⟩ := applyShuffle_drops hPop h
    have hDropped := (voidFree_append.mp hVoid).1
    refine ⟨_, revertShuffle_of_isPop hPop left, ?_⟩
    exact (replicate_any_below ⟨dropped, [], by simp, hWords⟩ hDropped).append
      ((words_replicate_any _).trans hWords.symm) hDropped (.refl _)
  · exact ⟨stack, revertShuffle_applyShuffle (by simpa using hPop) h, .refl _⟩

theorem revert_raise (hConsumed : Ordinary effect.consumed) (hStack : Ordinary stack)
    (h : apply stack effect = .ok left) :
    ∃ before, revert (raise left) effect = .ok before ∧ Below before (raise stack) := by
  cases effect with
  | uniform pops value =>
    simp only [apply] at h
    split at h
    · cases h
    · obtain ⟨rest, hPop, hPush⟩ := bind_eq_ok.mp h
      cases hPush
      obtain ⟨-, top, rfl, hFits⟩ := popValues_raise hConsumed hStack hPop
      refine ⟨pops ++ raise rest, ?_, ?_⟩
      · by_cases hValue : value = .void
        · subst hValue
          rfl
        · rw [revert_uniform hValue, push, if_neg hValue, raise_cons, popValue,
            if_pos (value.below_raise.satisfies hValue)]
          rfl
      · rw [raise_append]
        exact hFits.below_append (.refl _)
  | shuffle kind =>
    exact revertShuffle_of_apply hStack.raise.voidFree (applyShuffle_raise hStack h)
  | clear value => exact ⟨[], rfl, .nil _⟩

end TypeStack

/-! ## Solved edges -/

namespace FrameLayout

variable {effect : StackEffect} {s u after before : TypeStack}

/-- Two whole stacks solve an edge if executing it fits one of them and undoing it is below the
other. -/
theorem solved_of_stacks (hs : TypeStack.VoidFree s) (hu : TypeStack.VoidFree u)
    (hNeeded : (minimalBefore effect).values.Below s)
    (hApply : TypeStack.apply s effect = .ok after) (hFits : TypeStack.Fits after u)
    (hRevert : TypeStack.revert u effect = .ok before) (hBelow : TypeStack.Below before s) :
    Solved effect (exactly s) (exactly u) := by
  refine ⟨rfl, rfl, hs, hu, ⟨hNeeded, fun hExact => ?_⟩, ?_, ?_⟩
  · rw [isExact_minimalBefore] at hExact
    cases hExact
  · exact ⟨_, apply_of_extend (extend_of_exact rfl _) hApply, hFits.below,
      fun _ => ⟨rfl, hFits.words_eq⟩⟩
  · refine ⟨_, revert_of_extend (extend_of_exact rfl _) hRevert, hBelow, fun hExact => ⟨rfl, ?_⟩⟩
    have hClear : effect.isClear = false := by simpa [exactly] using hExact
    have hForth := TypeStack.words_apply hClear hApply
    have hBack := TypeStack.words_revert hClear hRevert
    have hWords := hFits.words_eq
    show TypeStack.words before = TypeStack.words s
    omega

/-- The raised stacks at both ends of an edge solve it. -/
theorem solved_raise {stack left : TypeStack} (hConsumed : TypeStack.Ordinary effect.consumed)
    (hStack : TypeStack.Ordinary stack) (hLeft : TypeStack.Ordinary left)
    (h : TypeStack.apply stack effect = .ok left) :
    Solved effect (exactly (TypeStack.raise stack)) (exactly (TypeStack.raise left)) := by
  obtain ⟨after, hAfter, hFits⟩ := TypeStack.apply_raise hConsumed hStack h
  obtain ⟨before, hBefore, hBelow⟩ := TypeStack.revert_raise hConsumed hStack h
  exact solved_of_stacks hStack.raise.voidFree hLeft.raise.voidFree
    (TypeStack.needed_below_raise hConsumed hStack h) hAfter hFits hBefore hBelow

end FrameLayout

end BytecodeFlow
