import BytecodeFlow.Proofs.RaisedStacks

/-!
# Where the values on a stack come from

An effect produces the values on top of the stack that it leaves and moves the others there. The
origins of an effect on a stack give for each value afterwards the position that it was moved from,
if it was not produced (`StackEffect.origins`). They depend on the widths of the values only.

Stacks of known types solve an edge exactly if the effect can be executed, if they cover what it
pops and what it pushes, and if every value that is moved has the same type at both positions
(`FrameLayout.solved_iff`). So although the flow equations are about whole layouts, they say
something about single values.
-/

namespace BytecodeFlow

/-- A group of values and the values that it passes, rearranged by a shuffle. -/
def Shuffle.rearrange {α : Type} (kind : Shuffle) (top skipped : List α) : List α :=
  if kind.isPop then [] else if kind = .swap then skipped ++ top else top ++ skipped ++ top

theorem Shuffle.map_rearrange {α β : Type} (kind : Shuffle) (f : α → β) (top skipped : List α) :
    (kind.rearrange top skipped).map f = kind.rearrange (top.map f) (skipped.map f) := by
  unfold rearrange
  split
  · rfl
  · split <;> simp

/-- The positions that the values after an effect had before it, none for a value that is
produced. -/
def StackEffect.origins (effect : StackEffect) (stack : TypeStack) : List (Option Nat) :=
  let positions := List.range stack.length
  match effect with
  | .uniform pops value =>
    (TypeStack.push value []).map (fun _ => none) ++ (positions.drop pops.length).map some
  | .shuffle kind =>
    let top := (TypeStack.splitWords kind.topWords stack).1.length
    let skipped := (TypeStack.splitWords kind.skippedWords (stack.drop top)).1.length
    (kind.rearrange (positions.take top) ((positions.drop top).take skipped) ++
      positions.drop (top + skipped)).map some
  | .clear value => value.toList.map fun _ => none

namespace TypeStack

variable {s u left rest before a b c d top skipped : TypeStack} {effect : StackEffect}

/-- The values that an effect moves are the same before and after it. -/
structure Moves (effect : StackEffect) (s u : TypeStack) : Prop where
  length_eq : u.length = (effect.origins s).length
  carried : ∀ {i j : Nat}, (effect.origins s)[j]? = some (some i) → u[j]? = s[i]?

/-! ## Stacks of known types -/

theorem Below.fits (h : Below a b) (hKnown : Known a) (hWords : words a = words b)
    (hVoid : VoidFree b) : Fits a b :=
  (Fits.refl a).of_below hKnown h hWords hVoid

theorem Known.of_fits (ha : Known a) (h : Fits a b) : Known b := by
  induction h with
  | nil => exact ha
  | @cons s t _ _ hType _ ih =>
    obtain ⟨hFirst, hRest⟩ := List.forall_mem_cons.mp ha
    refine List.forall_mem_cons.mpr ⟨⟨?_, ?_⟩, ih hRest⟩
    · rintro rfl
      exact hFirst.1 hType.eq_any
    · rintro rfl
      exact hFirst.2 hType.eq_void

theorem Fits.trans (hab : Fits a b) (hbc : Fits b c) : Fits a c := by
  induction hab generalizing c with
  | nil => exact hbc
  | cons hType _ ih =>
    cases hbc with
    | cons hType' hRest => exact .cons (hType.trans hType') (ih hRest)

theorem Fits.antisymm (hab : Fits a b) (hba : Fits b a) : a = b := by
  induction hab with
  | nil => rfl
  | cons hType _ ih =>
    cases hba with
    | cons hType' hRest => rw [hType.antisymm hType', ih hRest]

theorem Fits.map_words (h : Fits a b) : a.map StackType.words = b.map StackType.words := by
  induction h with
  | nil => rfl
  | cons hType _ ih => rw [List.map_cons, List.map_cons, hType.words_eq, ih]

/-- Known types are below a stack value by value. -/
theorem below_iff_getElem? (hKnown : Known a) : Below a b ↔
    ∀ (i : Nat) (t : StackType), a[i]? = some t → ∃ v, b[i]? = some v ∧ t.Below v := by
  constructor
  · intro h
    induction h with
    | nil => simp
    | @cons t v _ _ hType _ ih =>
      obtain ⟨-, hRest⟩ := List.forall_mem_cons.mp hKnown
      intro i s hs
      cases i with
      | zero =>
        cases hs
        exact ⟨v, rfl, hType⟩
      | succ i => exact ih hRest i s hs
    | wide _ _ _ => exact absurd rfl (List.forall_mem_cons.mp hKnown).1.1
  · intro h
    induction a generalizing b with
    | nil => exact .nil b
    | cons t a ih =>
      obtain ⟨v, hv, hType⟩ := h 0 t rfl
      cases b with
      | nil => cases hv
      | cons w b =>
        cases hv
        exact .cons hType (ih (List.forall_mem_cons.mp hKnown).2 fun i => h (i + 1))

theorem append_inj_of_words (h : a ++ b = c ++ d) (hVoid : VoidFree (a ++ b))
    (hWords : words a = words c) : a = c ∧ b = d := by
  have hLeft := splitWords_append (voidFree_append.mp hVoid).1 b
  rw [h] at hVoid
  have hRight := splitWords_append (voidFree_append.mp hVoid).1 d
  rw [h, hWords] at hLeft
  exact Prod.mk.inj (hLeft.symm.trans hRight)

theorem Below.append_inv (h : Below (a ++ b) (c ++ d)) (hVoid : VoidFree (a ++ b))
    (hWords : words a = words c) : Below a c ∧ Below b d := by
  obtain ⟨top, rest, hSplit, hTopWords, hTop, hRest⟩ :=
    h.exists_split (by rw [words_append]; omega)
  obtain ⟨rfl, rfl⟩ := append_inj_of_words hSplit hVoid (hWords.trans hTopWords.symm)
  exact ⟨hTop, hRest⟩

theorem Fits.append_inv (h : Fits (a ++ b) (c ++ d)) (hVoid : VoidFree (a ++ b))
    (hWords : words a = words c) : Fits a c ∧ Fits b d := by
  obtain ⟨top, rest, hSplit, hTop, hRest⟩ := h.exists_split
  obtain ⟨rfl, rfl⟩ := append_inj_of_words hSplit hVoid (hWords.trans hTop.words_eq.symm)
  exact ⟨hTop, hRest⟩

/-! ## Origins depend on widths -/

theorem words_eq_of_map (h : a.map StackType.words = b.map StackType.words) :
    words a = words b := by
  have hSum : ∀ stack : TypeStack, words stack = (stack.map StackType.words).foldr (· + ·) 0 :=
    fun stack => by rw [List.foldr_map]; rfl
  rw [hSum, hSum, h]

theorem length_splitWords_congr (h : a.map StackType.words = b.map StackType.words) (depth : Nat) :
    (splitWords depth a).1.length = (splitWords depth b).1.length := by
  induction a generalizing b depth with
  | nil =>
    rw [List.map_eq_nil_iff.mp h.symm]
  | cons t a ih =>
    cases b with
    | nil => cases h
    | cons v b =>
      simp only [List.map_cons, List.cons.injEq] at h
      cases depth with
      | zero => rfl
      | succ depth => simp [splitWords, h.1, ih h.2]

theorem origins_congr (effect : StackEffect)
    (h : a.map StackType.words = b.map StackType.words) : effect.origins a = effect.origins b := by
  have hLength : a.length = b.length := by simpa using congrArg List.length h
  cases effect with
  | uniform pops value => simp only [StackEffect.origins, hLength]
  | shuffle kind =>
    have hTop := length_splitWords_congr h kind.topWords
    have hDrop : ∀ depth, (a.drop depth).map StackType.words = (b.drop depth).map StackType.words :=
      fun depth => by rw [List.map_drop, List.map_drop, h]
    have hSkipped := fun depth => length_splitWords_congr (hDrop depth) kind.skippedWords
    simp only [StackEffect.origins, hLength, hTop, hSkipped]
  | clear value => rfl

theorem applyShuffle_congr {kind : Shuffle} (h : a.map StackType.words = b.map StackType.words)
    (hVoid : VoidFree b) (hApply : applyShuffle kind a = .ok left) :
    ∃ left', applyShuffle kind b = .ok left' := by
  obtain ⟨top, skipped, rest, rfl, hTop, hSkipped, -⟩ := applyShuffle_eq_ok hApply
  rw [List.map_append, List.map_append] at h
  obtain ⟨top', lower, rfl, hTop', hLower⟩ := List.map_eq_append_iff.mp h.symm
  obtain ⟨skipped', rest', rfl, hSkipped', -⟩ := List.map_eq_append_iff.mp hLower
  simp only [voidFree_append] at hVoid
  exact ⟨_, applyShuffle_append hVoid.1 hVoid.2.1 ((words_eq_of_map hTop').trans hTop)
    ((words_eq_of_map hSkipped').trans hSkipped)⟩

theorem popValues_of_below {pops : List StackType} (hPops : VoidFree pops)
    (h : ∀ (i : Nat) (t : StackType), pops[i]? = some t → ∃ v, s[i]? = some v ∧ t.Below v) :
    popValues pops s = .ok (s.drop pops.length) := by
  induction pops generalizing s with
  | nil => rfl
  | cons t pops ih =>
    obtain ⟨hType, hPops⟩ := voidFree_cons.mp hPops
    obtain ⟨v, hv, hBelow⟩ := h 0 t rfl
    cases s with
    | nil => cases hv
    | cons w s =>
      cases hv
      have hPop : popValue t (v :: s) = .ok s := by
        rw [popValue, if_pos (hBelow.satisfies hType)]
      rw [popValues, hPop]
      exact ih hPops fun i => h (i + 1)

/-- What pops values one by one can be executed on every stack that covers them. -/
theorem apply_uniform_of_below {pops : List StackType} (hPops : Known pops) (hBelow : Below pops b)
    (value : StackType) :
    apply b (.uniform pops value) = .ok (push value (b.drop pops.length)) := by
  have hHeight : ¬ words b < words pops := Nat.not_lt.mpr hBelow.words_le
  have hPop : popValues pops b = .ok (b.drop pops.length) :=
    popValues_of_below hPops.voidFree ((below_iff_getElem? hPops).mp hBelow)
  rw [apply, if_neg hHeight, hPop]
  rfl

/-- An effect can be executed on every stack of the same widths that covers what it pops. -/
theorem apply_congr (h : a.map StackType.words = b.map StackType.words) (hVoid : VoidFree b)
    (hConsumed : Known effect.consumed) (hBelow : Below effect.consumed b)
    (hApply : apply a effect = .ok left) : ∃ left', apply b effect = .ok left' := by
  cases effect with
  | uniform pops value => exact ⟨_, apply_uniform_of_below hConsumed hBelow value⟩
  | shuffle kind => exact applyShuffle_congr h hVoid hApply
  | clear value => cases value <;> exact ⟨_, rfl⟩

/-! ## Executing an effect moves its values -/

theorem map_getElem?_range {α : Type} (l : List α) :
    (List.range l.length).map (fun i => l[i]?) = l.map some := by
  refine List.ext_getElem (by simp) fun k hk hk' => ?_
  rw [List.length_map] at hk'
  simp [hk']

/-- The values at the origins of a shuffle are what it leaves. -/
theorem origins_shuffle {kind : Shuffle} (hTop : VoidFree top) (hSkipped : VoidFree skipped)
    (hTopWords : words top = kind.topWords) (hSkippedWords : words skipped = kind.skippedWords) :
    ∃ positions : List Nat, StackEffect.origins (.shuffle kind) (top ++ (skipped ++ rest)) =
        positions.map some ∧
      positions.map (fun i => (top ++ (skipped ++ rest))[i]?) =
        (shuffled kind top skipped ++ rest).map some := by
  have hTopLength : (splitWords kind.topWords (top ++ (skipped ++ rest))).1 = top := by
    rw [← hTopWords, splitWords_append hTop]
  have hSkippedLength : (splitWords kind.skippedWords (skipped ++ rest)).1 = skipped := by
    rw [← hSkippedWords, splitWords_append hSkipped]
  refine ⟨_, rfl, ?_⟩
  simp only [hTopLength, List.drop_left, hSkippedLength]
  rw [show shuffled kind top skipped = kind.rearrange top skipped from rfl, List.map_append,
    List.map_append, Shuffle.map_rearrange, Shuffle.map_rearrange]
  simp only [List.map_take, List.map_drop, map_getElem?_range]
  simp [List.drop_append]

theorem popValues_eq_drop {pops : List StackType} (h : popValues pops s = .ok rest) :
    rest = s.drop pops.length := by
  induction pops generalizing s with
  | nil =>
    cases h
    rfl
  | cons t pops ih =>
    obtain ⟨middle, hPop, hRest⟩ := bind_eq_ok.mp h
    obtain ⟨u, rfl, -⟩ := popValue_eq_ok hPop
    exact ih hRest

theorem apply_uniform_eq_ok {pops : List StackType} {value : StackType}
    (h : apply s (.uniform pops value) = .ok u) : u = push value [] ++ s.drop pops.length := by
  simp only [apply] at h
  split at h
  · cases h
  · obtain ⟨rest, hPop, hPush⟩ := bind_eq_ok.mp h
    cases hPush
    rw [popValues_eq_drop hPop, push_append]

/-- Where an effect pops one by one, everything below keeps its place below what is pushed. -/
theorem origins_uniform {pops : List StackType} {value : StackType} {i j : Nat} :
    (StackEffect.origins (.uniform pops value) s)[j]? = some (some i) ↔
      ∃ k, pops.length + k < s.length ∧ i = pops.length + k ∧ j = (push value []).length + k := by
  simp only [StackEffect.origins]
  by_cases hj : j < (push value []).length
  · rw [List.getElem?_append_left (by simpa using hj), List.getElem?_map]
    constructor
    · intro h
      obtain ⟨_, -, hNone⟩ := Option.map_eq_some_iff.mp h
      cases hNone
    · rintro ⟨k, -, -, rfl⟩
      omega
  · rw [List.getElem?_append_right (by simpa using hj), List.length_map, List.getElem?_map,
      List.getElem?_drop]
    constructor
    · intro h
      obtain ⟨_, hPosition, hSame⟩ := Option.map_eq_some_iff.mp h
      cases hSame
      obtain ⟨hLength, hValue⟩ := List.getElem?_eq_some_iff.mp hPosition
      rw [List.getElem_range] at hValue
      rw [List.length_range] at hLength
      exact ⟨j - (push value []).length, hLength, hValue.symm, by omega⟩
    · rintro ⟨k, hk, rfl, rfl⟩
      rw [Nat.add_sub_cancel_left, List.getElem?_range hk]
      rfl

/-- A value without an origin was produced. -/
theorem lt_of_origin_none {j : Nat} (h : (effect.origins s)[j]? = some none) :
    j < effect.produced.length := by
  cases effect with
  | uniform pops value =>
    by_contra hj
    simp only [StackEffect.origins] at h
    rw [List.getElem?_append_right (by simpa [StackEffect.produced] using hj), List.getElem?_map]
      at h
    obtain ⟨_, -, hNone⟩ := Option.map_eq_some_iff.mp h
    cases hNone
  | shuffle kind =>
    simp only [StackEffect.origins, List.getElem?_map] at h
    obtain ⟨_, -, hNone⟩ := Option.map_eq_some_iff.mp h
    cases hNone
  | clear value =>
    obtain ⟨hj, -⟩ := List.getElem?_eq_some_iff.mp h
    simpa [StackEffect.origins, StackEffect.produced] using hj

/-- What a shuffle leaves is determined by the values that it moves. -/
theorem moves_iff_of_positions {kind : Shuffle} {positions : List Nat}
    (hOrigins : StackEffect.origins (.shuffle kind) s = positions.map some)
    (hValues : positions.map (fun i => s[i]?) = left.map some) :
    Moves (.shuffle kind) s u ↔ u = left := by
  have hLength : positions.length = left.length := by simpa using congrArg List.length hValues
  have hLookup : ∀ {i j : Nat}, positions[j]? = some i → left[j]? = s[i]? := by
    intro i j hPosition
    have hj := congrArg (·[j]?) hValues
    simp only [List.getElem?_map, hPosition, Option.map_some] at hj
    obtain ⟨v, hv, hSame⟩ := Option.map_eq_some_iff.mp hj.symm
    rw [hv, hSame]
  constructor
  · intro h
    have hSame : u.length = left.length := by
      rw [h.length_eq, hOrigins, List.length_map, hLength]
    refine List.ext_getElem? fun j => ?_
    cases hPosition : positions[j]? with
    | none =>
      rw [List.getElem?_eq_none_iff] at hPosition
      rw [List.getElem?_eq_none (by omega), List.getElem?_eq_none (by omega)]
    | some i =>
      rw [hLookup hPosition]
      exact h.carried (by rw [hOrigins, List.getElem?_map, hPosition]; rfl)
  · rintro rfl
    refine ⟨by rw [hOrigins, List.length_map, hLength], fun {i j} h => ?_⟩
    rw [hOrigins, List.getElem?_map] at h
    obtain ⟨_, hPosition, hSame⟩ := Option.map_eq_some_iff.mp h
    cases hSame
    exact hLookup hPosition

/-- A shuffle moves all values, and nothing else has its origins. -/
theorem moves_shuffle_iff {kind : Shuffle} (hVoid : VoidFree s)
    (h : applyShuffle kind s = .ok left) : Moves (.shuffle kind) s u ↔ u = left := by
  obtain ⟨top, skipped, rest, rfl, hTop, hSkipped, rfl⟩ := applyShuffle_eq_ok h
  simp only [voidFree_append] at hVoid
  obtain ⟨positions, hOrigins, hValues⟩ := origins_shuffle hVoid.1 hVoid.2.1 hTop hSkipped
  exact moves_iff_of_positions hOrigins hValues

theorem origin_clear_ne_some {value : Option StackType} {i j : Nat} :
    (StackEffect.origins (.clear value) s)[j]? ≠ some (some i) := by
  intro h
  rw [StackEffect.origins, List.getElem?_map] at h
  obtain ⟨_, -, hNone⟩ := Option.map_eq_some_iff.mp h
  cases hNone

theorem apply_clear {value : Option StackType} (hProduced : Known value.toList)
    (h : apply s (.clear value) = .ok u) : u = value.toList := by
  cases value with
  | none =>
    cases h
    rfl
  | some t =>
    cases h
    exact if_neg (hProduced t (by simp)).2

/-- An effect moves values and puts those that it produces on top. -/
theorem apply_moves (hProduced : Known effect.produced) (hVoid : VoidFree s)
    (h : apply s effect = .ok u) :
    Moves effect s u ∧ ∀ (j : Nat) (t : StackType), effect.produced[j]? = some t →
      u[j]? = some t := by
  cases effect with
  | uniform pops value =>
    obtain rfl := apply_uniform_eq_ok h
    refine ⟨⟨by simp [StackEffect.origins], fun {i j} hOrigin => ?_⟩, fun j t hj => ?_⟩
    · obtain ⟨k, -, rfl, rfl⟩ := origins_uniform.mp hOrigin
      rw [List.getElem?_append_right (by omega), Nat.add_sub_cancel_left, List.getElem?_drop]
    · change (push value [])[j]? = some t at hj
      rw [List.getElem?_append_left (List.getElem?_eq_some_iff.mp hj).1, hj]
  | shuffle kind => exact ⟨(moves_shuffle_iff hVoid h).mpr rfl, by simp [StackEffect.produced]⟩
  | clear value =>
    obtain rfl := apply_clear hProduced h
    refine ⟨⟨by simp [StackEffect.origins], fun {i j} hOrigin => ?_⟩, fun j t hj => hj⟩
    exact absurd hOrigin origin_clear_ne_some

/-! ## Solved edges -/

/-- If what is left by a shuffle fits a stack, and undoing the shuffle there is below what was there
before, then the shuffle leaves that stack. -/
theorem eq_of_revertShuffle {kind : Shuffle} (hs : VoidFree s) (hu : Known u)
    (hApply : applyShuffle kind s = .ok left) (hFits : Fits left u)
    (hRevert : revertShuffle kind u = .ok before) (hBelow : Below before s)
    (hWords : words before = words s) : u = left := by
  obtain ⟨top, skipped, rest, rfl, hTop, hSkipped, rfl⟩ := applyShuffle_eq_ok hApply
  refine Fits.antisymm ?_ hFits
  have hHeight := hFits.words_eq
  have hParts := hs
  simp only [voidFree_append] at hParts
  rcases revertShuffle_eq_ok hRevert with ⟨hPop, rfl⟩ |
    ⟨rfl, top', skipped', rest', rfl, hTop', hSkipped', rfl⟩ |
    ⟨hPop, hSwap, top', skipped', copy, group, rest', rfl, hTop', hSkipped', hCopy, hMerge, rfl⟩
  · have hNone : skipped = [] :=
      hParts.2.1.eq_nil (hSkipped.trans (Shuffle.skippedWords_of_isPop hPop))
    subst hNone
    simp only [shuffled, hPop, if_true, List.nil_append] at hHeight ⊢
    have hRest := (hBelow.append_inv (voidFree_append.mpr ⟨voidFree_replicate_any _, hu.voidFree⟩)
      ((words_replicate_any _).trans hTop.symm)).2
    exact Below.fits hRest hu hHeight.symm hParts.2.2
  · have hKnown : Known (skipped' ++ (top' ++ rest')) := by
      simp only [known_append] at hu ⊢
      exact ⟨hu.2.1, hu.1, hu.2.2⟩
    have hBefore : Fits (skipped' ++ (top' ++ rest')) (top ++ (skipped ++ rest)) :=
      hBelow.fits hKnown hWords hs
    obtain ⟨hFirst, hLower⟩ := hBefore.append_inv hKnown.voidFree (hSkipped'.trans hTop.symm)
    obtain ⟨hSecond, hRest⟩ :=
      hLower.append_inv (known_append.mp hKnown).2.voidFree (hTop'.trans hSkipped.symm)
    rw [show shuffled .swap top skipped = skipped ++ top from rfl, List.append_assoc]
    exact hSecond.append (hFirst.append hRest)
  · -- both copies are below the group that comes back, and that is below the group there was
    obtain ⟨hCopyBelow, hTopBelow, hGroup, hGroupVoid⟩ := merge?_below hMerge
    simp only [known_append] at hu
    have hGroupVoid := hGroupVoid hu.2.2.1.voidFree hu.1.voidFree
    have hTopFits : Fits top' group := hTopBelow.fits hu.1 (by omega) hGroupVoid
    have hCopyFits : Fits copy group := hCopyBelow.fits hu.2.2.1 (by omega) hGroupVoid
    have hKnown : Known (group ++ (skipped' ++ rest')) := by
      simp only [known_append]
      exact ⟨hu.1.of_fits hTopFits, hu.2.1, hu.2.2.2⟩
    have hBefore : Fits (group ++ (skipped' ++ rest')) (top ++ (skipped ++ rest)) :=
      hBelow.fits hKnown hWords hs
    obtain ⟨hFirst, hLower⟩ := hBefore.append_inv hKnown.voidFree (by omega)
    obtain ⟨hSecond, hRest⟩ :=
      hLower.append_inv (known_append.mp hKnown).2.voidFree (hSkipped'.trans hSkipped.symm)
    have hShuffled : shuffled kind top skipped = top ++ skipped ++ top := by
      simp [shuffled, hPop, hSwap]
    rw [hShuffled, List.append_assoc, List.append_assoc]
    exact (hTopFits.trans hFirst).append (hSecond.append ((hCopyFits.trans hFirst).append hRest))

theorem needed_below_of_consumed (hVoid : VoidFree s) (hBelow : Below effect.consumed s)
    (h : apply s effect = .ok left) : Below (needed effect) s := by
  cases effect with
  | uniform pops value => exact hBelow
  | shuffle kind => exact needed_below_of_applyShuffle hVoid h
  | clear value => exact .nil s

/-- What comes back when values popped one by one are restored. -/
theorem revert_uniform_eq_drop {pops : List StackType} {value : StackType}
    (h : revert u (.uniform pops value) = .ok before) :
    before = pops ++ u.drop (push value []).length := by
  by_cases hValue : value = .void
  · subst hValue
    cases h
    rfl
  · obtain ⟨v, rest, rfl, -, rfl⟩ := revert_uniform_eq_ok hValue h
    simp [push, hValue]

theorem revert_uniform_of_below (pops : List StackType) {value : StackType}
    (h : Below (push value []) u) :
    revert u (.uniform pops value) = .ok (pops ++ u.drop (push value []).length) := by
  by_cases hValue : value = .void
  · subst hValue
    rfl
  · have hPush : push value [] = [value] := if_neg hValue
    rw [hPush] at h ⊢
    cases h with
    | @cons _ v _ rest hType _ =>
      rw [revert_uniform hValue, popValue, if_pos (hType.satisfies hValue)]
      rfl

/-- Two stacks that an effect moves the same values to differ at most in what is produced. -/
theorem Moves.fits (hLeft : Moves effect s left)
    (hTop : ∀ (j : Nat) (t : StackType), effect.produced[j]? = some t → left[j]? = some t)
    (hProduced : Known effect.produced) (h : Moves effect s u) (hBelow : Below effect.produced u) :
    Fits left u := by
  have hLength : left.length = u.length := hLeft.length_eq.trans h.length_eq.symm
  refine List.forall₂_iff_get.mpr ⟨hLength, fun j hj hj' => ?_⟩
  rw [List.get_eq_getElem, List.get_eq_getElem]
  have hOrigins : j < (effect.origins s).length := hLeft.length_eq ▸ hj
  cases hOrigin : (effect.origins s)[j] with
  | some i =>
    have hCarried : (effect.origins s)[j]? = some (some i) := by
      rw [List.getElem?_eq_getElem hOrigins, hOrigin]
    have hSame := (hLeft.carried hCarried).trans (h.carried hCarried).symm
    rw [List.getElem?_eq_getElem hj, List.getElem?_eq_getElem hj'] at hSame
    rw [Option.some.inj hSame]
    exact .refl _
  | none =>
    have hNew : j < effect.produced.length :=
      lt_of_origin_none (s := s) (by rw [List.getElem?_eq_getElem hOrigins, hOrigin])
    have hPushed := hTop j _ (List.getElem?_eq_getElem hNew)
    obtain ⟨v, hv, hType⟩ :=
      (below_iff_getElem? hProduced).mp hBelow j _ (List.getElem?_eq_getElem hNew)
    rw [List.getElem?_eq_getElem hj] at hPushed
    rw [List.getElem?_eq_getElem hj'] at hv
    rw [Option.some.inj hPushed, Option.some.inj hv]
    exact hType

/-- A value below those that are popped is bounded by its successor, by executing the effect, and
bounds it, by undoing the effect. -/
theorem moves_uniform_of_below {pops : List StackType} {value : StackType} (hPops : Known pops)
    (hu : Known u) (hLeftKnown : Known left) (hLength : left.length = u.length)
    (hMoves : Moves (.uniform pops value) s left) (hLeft : Below left u)
    (hRevert : revert u (.uniform pops value) = .ok before) (hBefore : Below before s) :
    Moves (.uniform pops value) s u := by
  refine ⟨hLength.symm.trans hMoves.length_eq, fun {i j} hOrigin => ?_⟩
  have hCarried := hMoves.carried hOrigin
  obtain ⟨k, hk, rfl, rfl⟩ := origins_uniform.mp hOrigin
  rw [List.getElem?_eq_getElem hk] at hCarried ⊢
  obtain ⟨w, hw, hUp⟩ := (below_iff_getElem? hLeftKnown).mp hLeft _ _ hCarried
  obtain rfl := revert_uniform_eq_drop hRevert
  have hKnown : Known (pops ++ u.drop (push value []).length) :=
    known_append.mpr ⟨hPops, fun t ht => hu t (List.mem_of_mem_drop ht)⟩
  have hRestored : (pops ++ u.drop (push value []).length)[pops.length + k]? = some w := by
    rw [List.getElem?_append_right (by omega), Nat.add_sub_cancel_left, List.getElem?_drop, hw]
  obtain ⟨v, hv, hDown⟩ := (below_iff_getElem? hKnown).mp hBefore _ _ hRestored
  rw [List.getElem?_eq_getElem hk] at hv
  cases hv
  rw [hw, hUp.antisymm hDown]

/-- The values that are popped come back as their constraints, and all others as they were. -/
theorem revert_below_of_moves {pops : List StackType} {value : StackType} (hPops : Known pops)
    (hu : Known u) (hPopped : Below pops s) (h : Moves (.uniform pops value) s u) :
    Below (pops ++ u.drop (push value []).length) s := by
  have hKnown : Known (pops ++ u.drop (push value []).length) :=
    known_append.mpr ⟨hPops, fun t ht => hu t (List.mem_of_mem_drop ht)⟩
  refine (below_iff_getElem? hKnown).mpr fun i t ht => ?_
  by_cases hi : i < pops.length
  · rw [List.getElem?_append_left hi] at ht
    exact (below_iff_getElem? hPops).mp hPopped i t ht
  · obtain ⟨k, rfl⟩ := Nat.exists_eq_add_of_le (Nat.not_lt.mp hi)
    rw [List.getElem?_append_right (by omega), Nat.add_sub_cancel_left, List.getElem?_drop] at ht
    have hk : pops.length + k < s.length := by
      have hLength := h.length_eq
      have hBound := (List.getElem?_eq_some_iff.mp ht).1
      simp only [StackEffect.origins, List.length_append, List.length_map, List.length_drop,
        List.length_range] at hLength
      omega
    exact ⟨t, (h.carried (origins_uniform.mpr ⟨k, hk, rfl, rfl⟩)).symm.trans ht, .refl t⟩

end TypeStack

namespace FrameLayout

variable {effect : StackEffect} {s u : TypeStack}

/-- **Stacks of known types solve an edge value by value.** -/
theorem solved_iff (hConsumed : TypeStack.Known effect.consumed)
    (hProduced : TypeStack.Known effect.produced) (hs : TypeStack.Known s)
    (hu : TypeStack.Known u) :
    Solved effect (exactly s) (exactly u) ↔ (∃ left, TypeStack.apply s effect = .ok left) ∧
      TypeStack.Below effect.consumed s ∧ TypeStack.Below effect.produced u ∧
      TypeStack.Moves effect s u := by
  constructor
  · intro h
    obtain ⟨after, before, -, hExact, hAfter, hApply, hBefore, hRevert, hBeforeExact⟩ :=
      h.exists_values
    obtain ⟨hMoves, hTop⟩ := TypeStack.apply_moves hProduced hs.voidFree hApply
    have hKnown : TypeStack.Known after.values := by
      intro t ht
      rcases TypeStack.mem_or_mem_produced hApply ht with ht | ht
      · exact hs t ht
      · exact hProduced t ht
    have hFits : TypeStack.Fits after.values u :=
      hAfter.values.fits hKnown (hAfter.exact hExact).2 hu.voidFree
    refine ⟨⟨_, hApply⟩, ?_, ?_, ?_⟩
    · cases effect with
      | uniform pops value => exact h.needed.values
      | shuffle kind => exact .nil s
      | clear value => exact .nil s
    · refine (TypeStack.below_iff_getElem? hProduced).mpr fun j t hj => ?_
      exact (TypeStack.below_iff_getElem? hKnown).mp hAfter.values j t (hTop j t hj)
    · cases effect with
      | uniform pops value =>
        exact TypeStack.moves_uniform_of_below hConsumed hu hKnown hFits.length_eq hMoves
          hAfter.values hRevert hBefore.values
      | shuffle kind =>
        have hWords := (hBefore.exact hBeforeExact).2
        exact (TypeStack.moves_shuffle_iff hs.voidFree hApply).mpr (TypeStack.eq_of_revertShuffle
          hs.voidFree hu hApply hFits hRevert hBefore.values hWords)
      | clear value =>
        exact ⟨hFits.length_eq.symm.trans hMoves.length_eq,
          fun hOrigin => absurd hOrigin TypeStack.origin_clear_ne_some⟩
  · rintro ⟨⟨left, hApply⟩, hPopped, hPushed, hMoves⟩
    obtain ⟨hLeft, hTop⟩ := TypeStack.apply_moves hProduced hs.voidFree hApply
    obtain ⟨before, hRevert, hBelow⟩ : ∃ before,
        TypeStack.revert u effect = .ok before ∧ TypeStack.Below before s := by
      cases effect with
      | uniform pops value =>
        exact ⟨_, TypeStack.revert_uniform_of_below pops hPushed,
          TypeStack.revert_below_of_moves hConsumed hu hPopped hMoves⟩
      | shuffle kind =>
        obtain rfl := (TypeStack.moves_shuffle_iff hs.voidFree hApply).mp hMoves
        exact TypeStack.revertShuffle_of_apply hs.voidFree hApply
      | clear value => exact ⟨[], rfl, .nil s⟩
    exact solved_of_stacks hs.voidFree hu.voidFree
      (TypeStack.needed_below_of_consumed hs.voidFree hPopped hApply) hApply
      (hLeft.fits hTop hProduced hMoves hPushed) hRevert hBelow

end FrameLayout

end BytecodeFlow
