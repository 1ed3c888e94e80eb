import BytecodeFlow.Proofs.EffectOrder

/-!
# The order of layouts

A layout is below another if joining it to the other changes nothing (`merge_eq_right_iff`). An
exact layout is below exact ones of its own height only. As with stacks, there is a looser relation
that is transitive, `FrameLayout.Beneath`, and both agree on exact layouts.

Joining a list of demands to a layout goes up (`foldlM_merge_beneath`), and it succeeds if all of
them have a common upper bound, below which it stays (`foldlM_merge_below`). Along an edge that two
exact layouts solve, what lower layouts leave and ask for is below the solution again
(`Solved.apply_below`, `Solved.revert_below`).
-/

namespace BytecodeFlow.FrameLayout

/-- No value of the layout stands for the absence of a value. -/
def VoidFree (layout : FrameLayout) : Prop :=
  TypeStack.VoidFree layout.values

/-- The lower layout describes the upper one, which may know more. -/
structure Below (lower upper : FrameLayout) : Prop where
  values : TypeStack.Below lower.values upper.values
  exact : lower.isExact = true → upper.isExact = true ∧ lower.words = upper.words

/-- The same, except that the lower layout may end in the middle of a wide value. -/
structure Beneath (lower upper : FrameLayout) : Prop where
  values : TypeStack.Beneath lower.values upper.values
  exact : lower.isExact = true → upper.isExact = true ∧ lower.words = upper.words

variable {a b c d : FrameLayout}

theorem Below.beneath (h : a.Below b) : a.Beneath b :=
  ⟨h.values.beneath, h.exact⟩

theorem Below.refl (a : FrameLayout) : a.Below a :=
  ⟨.refl _, fun h => ⟨h, rfl⟩⟩

theorem Beneath.trans (hab : a.Beneath b) (hbc : b.Beneath c) : a.Beneath c := by
  refine ⟨hab.values.trans hbc.values, fun h => ?_⟩
  obtain ⟨hExact, hWords⟩ := hab.exact h
  obtain ⟨hExact', hWords'⟩ := hbc.exact hExact
  exact ⟨hExact', hWords.trans hWords'⟩

theorem Beneath.below_of_exact (h : a.Beneath b) (hExact : a.isExact = true) : a.Below b := by
  refine ⟨h.values.below_of_aligned ?_, h.exact⟩
  have hWords : TypeStack.words a.values = TypeStack.words b.values := (h.exact hExact).2
  rw [hWords]
  exact TypeStack.Aligned.full _

/-- Between a layout and an upper bound of it, both relations agree. -/
theorem Beneath.below_of_below (hab : a.Beneath b) (hac : a.Below c) (hbc : b.Below c) :
    a.Below b :=
  ⟨hab.values.below_of_aligned
    (hbc.values.aligned_of_aligned hac.values.aligned hab.values.words_le), hab.exact⟩

/-! ## The join -/

theorem excludesHeight_eq_false : a.excludesHeight b = false ↔
    (a.isExact = true → (b.isExact = true → a.words = b.words) ∧ b.words ≤ a.words) := by
  unfold excludesHeight
  cases a.isExact <;> cases b.isExact <;> simp
  omega

theorem merge_eq_ok : a.merge b = .ok d ↔ a.excludesHeight b = false ∧
    b.excludesHeight a = false ∧ TypeStack.merge? a.values b.values = some d.values ∧
    d.isExact = (a.isExact || b.isExact) := by
  unfold merge
  by_cases hHeight : (a.excludesHeight b || b.excludesHeight a) = true
  · rw [if_pos hHeight]
    rw [Bool.or_eq_true] at hHeight
    constructor
    · intro h
      cases h
    · rintro ⟨ha, hb, -⟩
      rcases hHeight with h | h
      · rw [ha] at h
        cases h
      · rw [hb] at h
        cases h
  · rw [if_neg hHeight]
    rw [Bool.not_eq_true, Bool.or_eq_false_iff] at hHeight
    unfold TypeStack.merge
    cases hMerge : TypeStack.merge? a.values b.values with
    | none =>
      constructor
      · intro h
        cases h
      · rintro ⟨-, -, h, -⟩
        cases h
    | some values =>
      constructor
      · intro h
        cases h
        exact ⟨hHeight.1, hHeight.2, rfl, rfl⟩
      · rintro ⟨-, -, hValues, hExact⟩
        obtain ⟨dValues, dExact⟩ := d
        cases hValues
        cases hExact
        rfl

/-- A join is above both sides. -/
theorem merge_below (h : a.merge b = .ok d) :
    a.Below d ∧ b.Below d ∧ (a.VoidFree → b.VoidFree → d.VoidFree) := by
  obtain ⟨hLeft, hRight, hMerge, hExact⟩ := merge_eq_ok.mp h
  obtain ⟨ha, hb, hWords, hVoid⟩ := TypeStack.merge?_below hMerge
  have hMax : d.words = max a.words b.words := hWords
  rw [excludesHeight_eq_false] at hLeft hRight
  refine ⟨⟨ha, fun hA => ?_⟩, ⟨hb, fun hB => ?_⟩, hVoid⟩
  · have hHeight := (hLeft hA).2
    refine ⟨by rw [hExact, hA, Bool.true_or], by omega⟩
  · have hHeight := (hRight hB).2
    refine ⟨by rw [hExact, hB, Bool.or_true], by omega⟩

/-- A layout does not exclude the height of another one that has an upper bound with it. -/
theorem Below.excludesHeight (hac : a.Below c) (hbc : b.Below c) : a.excludesHeight b = false := by
  rw [excludesHeight_eq_false]
  intro hExact
  have hWords := (hac.exact hExact).2
  have hHeight : b.words ≤ c.words := hbc.values.words_le
  refine ⟨fun hExact' => ?_, by omega⟩
  have hWords' := (hbc.exact hExact').2
  omega

/-- Two layouts with an upper bound have a join, which is the least one. -/
theorem Below.exists_merge (hac : a.Below c) (hbc : b.Below c) :
    ∃ d, a.merge b = .ok d ∧ d.Below c := by
  obtain ⟨values, hMerge, hValues⟩ := hac.values.exists_merge? hbc.values
  have hOk : a.merge b = .ok ⟨values, a.isExact || b.isExact⟩ :=
    merge_eq_ok.mpr ⟨hac.excludesHeight hbc, hbc.excludesHeight hac, hMerge, rfl⟩
  refine ⟨_, hOk, hValues, fun hExact => ?_⟩
  obtain ⟨ha, hb, -⟩ := merge_below hOk
  -- the exact side fixes the height
  rcases (Bool.or_eq_true _ _).mp hExact with hA | hB
  · exact ⟨(hac.exact hA).1, (ha.exact hA).2.symm.trans (hac.exact hA).2⟩
  · exact ⟨(hbc.exact hB).1, (hb.exact hB).2.symm.trans (hbc.exact hB).2⟩

theorem merge_eq_right_iff : a.merge b = .ok b ↔ a.Below b := by
  constructor
  · exact fun h => (merge_below h).1
  · intro h
    refine merge_eq_ok.mpr ⟨h.excludesHeight (.refl b), (Below.refl b).excludesHeight h,
      h.values.merge?, ?_⟩
    cases hExact : a.isExact with
    | false => rfl
    | true => exact (h.exact hExact).1

/-! ## Demands -/

/-- Joining demands to a layout goes up, and ends above everything that was demanded. -/
theorem foldlM_merge_beneath {demands : List (Except Error FrameLayout)} (ha : a.VoidFree)
    (hDemands : ∀ demand ∈ demands, ∀ b, demand = .ok b → b.VoidFree)
    (h : demands.foldlM (fun layout demand => do layout.merge (← demand)) a = .ok d) :
    a.Beneath d ∧ d.VoidFree ∧ ∀ demand ∈ demands, ∃ b, demand = .ok b ∧ b.Beneath d := by
  induction demands generalizing a with
  | nil =>
    cases h
    exact ⟨(Below.refl _).beneath, ha, fun _ hMem => absurd hMem List.not_mem_nil⟩
  | cons demand demands ih =>
    rw [List.foldlM_cons] at h
    obtain ⟨next, hStep, hRest⟩ := bind_eq_ok.mp h
    obtain ⟨b, hDemand, hMerge⟩ := bind_eq_ok.mp hStep
    obtain ⟨haNext, hbNext, hVoid⟩ := merge_below hMerge
    obtain ⟨hNext, hResult, hOthers⟩ :=
      ih (hVoid ha (hDemands demand List.mem_cons_self b hDemand))
        (fun other hMem => hDemands other (List.mem_cons_of_mem _ hMem)) hRest
    refine ⟨haNext.beneath.trans hNext, hResult, fun other hMem => ?_⟩
    rcases List.mem_cons.mp hMem with rfl | hMem
    · exact ⟨b, hDemand, hbNext.beneath.trans hNext⟩
    · exact hOthers other hMem

/-- Demands with a common upper bound can be met below it. -/
theorem foldlM_merge_below {demands : List (Except Error FrameLayout)} (hac : a.Below c)
    (hDemands : ∀ demand ∈ demands, ∃ b, demand = .ok b ∧ b.Below c) :
    ∃ d, demands.foldlM (fun layout demand => do layout.merge (← demand)) a = .ok d ∧
      d.Below c := by
  induction demands generalizing a with
  | nil => exact ⟨a, rfl, hac⟩
  | cons demand demands ih =>
    obtain ⟨b, rfl, hbc⟩ := hDemands demand List.mem_cons_self
    obtain ⟨next, hMerge, hNext⟩ := hac.exists_merge hbc
    obtain ⟨d, hRest, hd⟩ :=
      ih hNext fun other hMem => hDemands other (List.mem_cons_of_mem _ hMem)
    refine ⟨d, ?_, hd⟩
    rw [List.foldlM_cons]
    exact bind_eq_ok.mpr ⟨next, hMerge, hRest⟩

/-! ## Effects -/

variable {effect : StackEffect}

theorem voidFree_minimalBefore (hEffect : effect.VoidFree) : (minimalBefore effect).VoidFree := by
  cases effect with
  | uniform pops value => exact hEffect
  | shuffle kind => exact TypeStack.voidFree_replicate_any _
  | clear value => exact TypeStack.voidFree_nil

theorem voidFree_minimalAfter (hEffect : effect.VoidFree) : (minimalAfter effect).VoidFree := by
  cases effect with
  | uniform pops value =>
    show TypeStack.VoidFree (TypeStack.push value [])
    unfold TypeStack.push
    split
    · exact TypeStack.voidFree_nil
    · exact TypeStack.voidFree_cons.mpr ⟨‹_›, TypeStack.voidFree_nil⟩
  | shuffle kind => exact TypeStack.voidFree_replicate_any _
  | clear value =>
    cases value with
    | none => exact TypeStack.voidFree_nil
    | some value =>
      exact TypeStack.voidFree_cons.mpr
        ⟨fun hEq => hEffect (congrArg some hEq), TypeStack.voidFree_nil⟩

theorem isExact_minimalBefore : (minimalBefore effect).isExact = false := by
  cases effect <;> rfl

theorem isExact_minimalAfter : (minimalAfter effect).isExact = false := by
  cases effect <;> rfl

theorem apply_eq_ok (h : a.apply effect = .ok b) :
    ∃ base, a.extend (minimalBefore effect) = .ok base ∧
      TypeStack.apply base.values effect = .ok b.values ∧
      b.isExact = (base.isExact || effect.isClear) := by
  obtain ⟨base, hBase, h⟩ := bind_eq_ok.mp h
  obtain ⟨values, hValues, h⟩ := bind_eq_ok.mp h
  cases h
  exact ⟨base, hBase, mapError_eq_ok.mp hValues, rfl⟩

theorem revert_eq_ok (h : a.revert effect = .ok b) :
    ∃ base, a.extend (minimalAfter effect) = .ok base ∧
      TypeStack.revert base.values effect = .ok b.values ∧
      b.isExact = (base.isExact && !effect.isClear) := by
  obtain ⟨base, hBase, h⟩ := bind_eq_ok.mp h
  obtain ⟨values, hValues, h⟩ := bind_eq_ok.mp h
  cases h
  exact ⟨base, hBase, mapError_eq_ok.mp hValues, rfl⟩

theorem apply_of_extend {base : FrameLayout} {values : TypeStack}
    (hBase : a.extend (minimalBefore effect) = .ok base)
    (hValues : TypeStack.apply base.values effect = .ok values) :
    a.apply effect = .ok ⟨values, base.isExact || effect.isClear⟩ :=
  bind_eq_ok.mpr ⟨base, hBase, bind_eq_ok.mpr ⟨values, mapError_eq_ok.mpr hValues, rfl⟩⟩

theorem revert_of_extend {base : FrameLayout} {values : TypeStack}
    (hBase : a.extend (minimalAfter effect) = .ok base)
    (hValues : TypeStack.revert base.values effect = .ok values) :
    a.revert effect = .ok ⟨values, base.isExact && !effect.isClear⟩ :=
  bind_eq_ok.mpr ⟨base, hBase, bind_eq_ok.mpr ⟨values, mapError_eq_ok.mpr hValues, rfl⟩⟩

theorem extend_of_exact (h : a.isExact = true) (minimal : FrameLayout) :
    a.extend minimal = .ok a :=
  if_pos h

theorem extend_voidFree {minimal base : FrameLayout} (ha : a.VoidFree)
    (hMinimal : minimal.VoidFree) (h : a.extend minimal = .ok base) : base.VoidFree := by
  unfold extend at h
  split at h
  · cases h
    exact ha
  · exact (merge_below h).2.2 ha hMinimal

theorem apply_voidFree (hEffect : effect.VoidFree) (ha : a.VoidFree)
    (h : a.apply effect = .ok b) : b.VoidFree := by
  obtain ⟨base, hBase, hValues, -⟩ := apply_eq_ok h
  exact TypeStack.apply_voidFree hEffect
    (extend_voidFree ha (voidFree_minimalBefore hEffect) hBase) hValues

theorem revert_voidFree (hEffect : effect.VoidFree) (ha : a.VoidFree)
    (h : a.revert effect = .ok b) : b.VoidFree := by
  obtain ⟨base, hBase, hValues, -⟩ := revert_eq_ok h
  exact TypeStack.revert_voidFree hEffect
    (extend_voidFree ha (voidFree_minimalAfter hEffect) hBase) hValues

theorem apply_isExact (ha : a.isExact = true) (h : a.apply effect = .ok b) : b.isExact = true := by
  obtain ⟨base, hBase, -, hExact⟩ := apply_eq_ok h
  rw [extend_of_exact ha] at hBase
  cases hBase
  rw [hExact, ha, Bool.true_or]

/-- What an exact layout asks for is exact, or nothing at all. -/
theorem revert_below_of_beneath (ha : a.isExact = true) (h : a.revert effect = .ok b)
    (hBeneath : b.Beneath d) : b.Below d := by
  obtain ⟨base, hBase, hValues, hExact⟩ := revert_eq_ok h
  rw [extend_of_exact ha] at hBase
  cases hBase
  cases hClear : effect.isClear with
  | false => exact hBeneath.below_of_exact (by rw [hExact, ha, hClear]; rfl)
  | true =>
    have hNothing : b.values = [] := by
      cases effect with
      | uniform pops value => cases hClear
      | shuffle kind => cases hClear
      | clear value =>
        have hEmpty : (.ok [] : Except StackFault TypeStack) = .ok b.values := hValues
        exact (Except.ok.inj hEmpty).symm
    refine ⟨?_, hBeneath.exact⟩
    rw [hNothing]
    exact .nil _

/-- What an effect leaves is on the layout after it. -/
theorem minimalAfter_below_of_apply (hEffect : effect.VoidFree) (ha : a.VoidFree)
    (h : a.apply effect = .ok b) : (minimalAfter effect).Below b := by
  obtain ⟨base, hBase, hValues, -⟩ := apply_eq_ok h
  refine ⟨TypeStack.left_below_of_apply hEffect (apply_voidFree hEffect ha h) hValues, fun h => ?_⟩
  rw [isExact_minimalAfter] at h
  cases h

/-- An exact layout that an effect can be applied to is above what the effect needs, if it is
loosely so. -/
theorem minimalBefore_below_of_apply (ha : a.isExact = true)
    (hBeneath : (minimalBefore effect).Beneath a) (h : a.apply effect = .ok b) :
    (minimalBefore effect).Below a := by
  obtain ⟨base, hBase, hValues, -⟩ := apply_eq_ok h
  rw [extend_of_exact ha] at hBase
  cases hBase
  exact ⟨TypeStack.needed_below_of_apply hBeneath.values hValues, hBeneath.exact⟩

/-! ## Layouts below a solution -/

theorem extend_below {minimal : FrameLayout} (hMinimal : minimal.isExact = false)
    (hac : a.Below c) (hmc : minimal.Below c) (hExact : a.isExact = true → minimal.Below a) :
    ∃ base, a.extend minimal = .ok base ∧ base.Below c ∧
      TypeStack.Below minimal.values base.values ∧ base.isExact = a.isExact := by
  by_cases ha : a.isExact = true
  · exact ⟨a, extend_of_exact ha minimal, hac, (hExact ha).values, rfl⟩
  · obtain ⟨base, hMerge, hBase⟩ := hac.exists_merge hmc
    refine ⟨base, ?_, hBase, (merge_below hMerge).2.1.values, ?_⟩
    · rw [extend, if_neg ha]
      exact hMerge
    · rw [(merge_eq_ok.mp hMerge).2.2.2, hMinimal, Bool.or_false]

/-- What can be applied to an exact layout can be applied to the layouts below it that cover what is
needed. -/
theorem apply_mono {s after : FrameLayout} (hEffect : effect.VoidFree) (hs : s.isExact = true)
    (hsVoid : s.VoidFree) (hNeeded : (minimalBefore effect).Below s)
    (hApply : s.apply effect = .ok after) (ha : a.VoidFree) (has : a.Below s)
    (hExact : a.isExact = true → (minimalBefore effect).Below a) :
    ∃ b base : FrameLayout, a.apply effect = .ok b ∧ b.Below after ∧ base.Below s ∧
      TypeStack.apply base.values effect = .ok b.values := by
  obtain ⟨_, hBase, hAfter, hAfterExact⟩ := apply_eq_ok hApply
  rw [extend_of_exact hs] at hBase
  cases hBase
  obtain ⟨base, hBase, hBaseBelow, hBaseNeeded, hBaseExact⟩ :=
    extend_below isExact_minimalBefore has hNeeded hExact
  have hBaseVoid := extend_voidFree ha (voidFree_minimalBefore hEffect) hBase
  obtain ⟨values, hValues, hResult⟩ :=
    TypeStack.apply_mono hEffect hBaseVoid hsVoid hBaseBelow.values hBaseNeeded hAfter
  refine ⟨_, base, apply_of_extend hBase hValues, ⟨hResult, fun hResultExact => ?_⟩, hBaseBelow,
    hValues⟩
  refine ⟨by rw [hAfterExact, hs, Bool.true_or], ?_⟩
  show TypeStack.words values = TypeStack.words after.values
  cases hClear : effect.isClear with
  | true =>
    rw [TypeStack.eq_left_of_clear hEffect hClear hValues,
      TypeStack.eq_left_of_clear hEffect hClear hAfter]
  | false =>
    have hLow := TypeStack.words_apply hClear hValues
    have hHigh := TypeStack.words_apply hClear hAfter
    have hSame : TypeStack.words base.values = TypeStack.words s.values :=
      (hBaseBelow.exact (by simpa [hClear] using hResultExact)).2
    omega

/-- The layouts at the ends of an edge solve it. -/
structure Solved (effect : StackEffect) (s u : FrameLayout) : Prop where
  source_exact : s.isExact = true
  target_exact : u.isExact = true
  source_voidFree : s.VoidFree
  target_voidFree : u.VoidFree
  needed : (minimalBefore effect).Below s
  forward : ∃ after, s.apply effect = .ok after ∧ after.Below u
  backward : ∃ before, u.revert effect = .ok before ∧ before.Below s

namespace Solved

variable {s u : FrameLayout}

theorem exists_values (h : Solved effect s u) :
    ∃ after before : FrameLayout, s.apply effect = .ok after ∧ after.isExact = true ∧
      after.Below u ∧ TypeStack.apply s.values effect = .ok after.values ∧ before.Below s ∧
      TypeStack.revert u.values effect = .ok before.values ∧
      before.isExact = !effect.isClear := by
  obtain ⟨after, hApply, hAfter⟩ := h.forward
  obtain ⟨before, hRevert, hBefore⟩ := h.backward
  obtain ⟨_, hBase, hValues, -⟩ := apply_eq_ok hApply
  obtain ⟨_, hBase', hValues', hExact⟩ := revert_eq_ok hRevert
  rw [extend_of_exact h.source_exact] at hBase
  rw [extend_of_exact h.target_exact] at hBase'
  cases hBase
  cases hBase'
  rw [h.target_exact, Bool.true_and] at hExact
  exact ⟨after, before, hApply, apply_isExact h.source_exact hApply, hAfter, hValues, hBefore,
    hValues', hExact⟩

/-- What the effect leaves is on the layout at the end of the edge. -/
theorem minimalAfter_below (hEffect : effect.VoidFree) (h : Solved effect s u) :
    (minimalAfter effect).Below u := by
  obtain ⟨after, before, hApply, -, hAfter, hValues, -, hRevert, -⟩ := h.exists_values
  refine ⟨TypeStack.left_below_of_solved hEffect
    (apply_voidFree hEffect h.source_voidFree hApply) hValues hAfter.values hRevert, fun h => ?_⟩
  rw [isExact_minimalAfter] at h
  cases h

/-- What a layout below the solution leaves is below the solution. -/
theorem apply_below (hEffect : effect.VoidFree) (h : Solved effect s u) (ha : a.VoidFree)
    (has : a.Below s) (hExact : a.isExact = true → (minimalBefore effect).Below a) :
    ∃ b, a.apply effect = .ok b ∧ b.Below u := by
  obtain ⟨after, before, hApply, hAfterExact, hAfter, hValues, hBefore, hRevert, hBeforeExact⟩ :=
    h.exists_values
  obtain ⟨b, base, hOk, hb, hBase, hBaseValues⟩ :=
    apply_mono hEffect h.source_exact h.source_voidFree h.needed hApply ha has hExact
  refine ⟨b, hOk, ?_, fun hbExact => ?_⟩
  · refine TypeStack.apply_below_of_solved hEffect hValues hAfter.values hRevert hBefore.values ?_
      hBase.values hBaseValues hb.values
    intro hClear
    exact (hBefore.exact (by rw [hBeforeExact, hClear]; rfl)).2
  · exact ⟨h.target_exact, (hb.exact hbExact).2.trans (hAfter.exact hAfterExact).2⟩

/-- What a layout below the solution asks for is below the solution. -/
theorem revert_below (hEffect : effect.VoidFree) (h : Solved effect s u) (ha : a.VoidFree)
    (hau : a.Below u) (hExact : a.isExact = true → (minimalAfter effect).Below a) :
    ∃ b, a.revert effect = .ok b ∧ b.Below s := by
  obtain ⟨after, before, hApply, hAfterExact, hAfter, hValues, hBefore, hRevert, hBeforeExact⟩ :=
    h.exists_values
  obtain ⟨base, hBase, hBaseBelow, hBaseLeft, hBaseExact⟩ :=
    extend_below isExact_minimalAfter hau (h.minimalAfter_below hEffect) hExact
  have hBaseVoid := extend_voidFree ha (voidFree_minimalAfter hEffect) hBase
  obtain ⟨values, hBaseValues, hResult⟩ := TypeStack.revert_mono hBaseVoid h.target_voidFree
    hBaseBelow.values hBaseLeft hEffect hRevert
  have hHeight : TypeStack.words after.values = TypeStack.words u.values :=
    (hAfter.exact hAfterExact).2
  refine ⟨_, revert_of_extend hBase hBaseValues, ?_, fun hResultExact => ⟨h.source_exact, ?_⟩⟩
  · exact TypeStack.revert_below_of_solved hValues hAfter.values hRevert hBefore.values hHeight
      hBaseBelow.values hBaseValues hResult
  · obtain ⟨hBaseIsExact, hClear⟩ := (Bool.and_eq_true _ _).mp hResultExact
    rw [Bool.not_eq_true'] at hClear
    have hLow := TypeStack.words_revert hClear hBaseValues
    have hHigh := TypeStack.words_revert hClear hRevert
    have hSame : TypeStack.words base.values = TypeStack.words u.values :=
      (hBaseBelow.exact hBaseIsExact).2
    have hSource : TypeStack.words before.values = TypeStack.words s.values :=
      (hBefore.exact (by rw [hBeforeExact, hClear]; rfl)).2
    show TypeStack.words values = TypeStack.words s.values
    omega

end Solved

end BytecodeFlow.FrameLayout
