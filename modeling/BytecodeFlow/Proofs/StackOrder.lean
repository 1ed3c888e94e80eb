import BytecodeFlow.StackFrames.Search
import Mathlib.Tactic

/-!
# The order of stacks

A stack is below another if joining it to the other changes nothing: `a.merge b = some b`. On types
this is an order, and the join of two types is their least upper bound, if they have an upper bound
at all (`StackType.Below`).

On stacks it is no order. One unknown word is below two of them, and two are below a `long`, but the
single word cannot be lined up with half of a `long`. Two relations take its place.

* `TypeStack.Below` is the relation of the join. The join is a least upper bound for it
  (`merge?_below`, `Below.exists_merge?`).
* `TypeStack.Beneath` lets the lower stack end within a wide value. It is transitive.

They agree where the upper stack has a boundary between two values at the depth at which the lower
one ends (`Beneath.below_of_aligned`).
-/

namespace BytecodeFlow

/-! ## Types -/

namespace StackType

/-- Joining `a` to `b` changes nothing. -/
def Below (a b : StackType) : Prop :=
  a.merge b = some b

variable {a b c d : StackType}

theorem Below.refl (a : StackType) : a.Below a :=
  if_pos rfl

/-- What a type is below: itself, or what an unknown word, a reference to no class and a reference
to some class stand for. -/
theorem Below.eq_or (h : a.Below b) : a = b ∨ (a = .any ∧ b.words = 1) ∨
    (a = .reference none ∧ (b = .returnAddress ∨ ∃ name, b = .reference name)) ∨
    ((∃ name, a = .reference (some name)) ∧ b = ofClass objectClass) := by
  unfold Below merge at h
  split at h
  · exact Or.inl ‹_›
  · refine Or.inr ?_
    split at h <;> simp_all

theorem below_iff : a.Below b ↔ a = b ∨ (a = .any ∧ b.words = 1) ∨
    (a = .reference none ∧ (b = .returnAddress ∨ ∃ name, b = .reference name)) ∨
    ((∃ name, a = .reference (some name)) ∧ b = ofClass objectClass) := by
  refine ⟨Below.eq_or, ?_⟩
  rintro (rfl | ⟨rfl, hb⟩ | ⟨rfl, rfl | ⟨name, rfl⟩⟩ | ⟨⟨name, rfl⟩, rfl⟩)
  · exact .refl a
  · cases b <;> simp_all [Below, merge, words]
  · rfl
  · cases name <;> simp [Below, merge]
  · by_cases hName : name = objectClass <;> simp [Below, merge, ofClass, hName]

@[simp] theorem words_any : any.words = 1 := rfl

theorem words_of_isWide (h : a.isWide = true) : a.words = 2 := by
  simpa [isWide] using h

theorem words_eq_one_or_isWide (h : a ≠ .void) : a.words = 1 ∨ a.isWide = true := by
  cases a <;> simp_all [words, isWide]

theorem words_pos (h : a ≠ .void) : 0 < a.words := by
  rcases words_eq_one_or_isWide h with hOne | hWide
  · omega
  · have hTwo := words_of_isWide hWide
    omega

theorem any_below (h : b.words = 1) : any.Below b :=
  below_iff.mpr (Or.inr (Or.inl ⟨rfl, h⟩))

theorem Below.words_eq (h : a.Below b) : a.words = b.words := by
  rcases h.eq_or with rfl | ⟨rfl, hb⟩ | ⟨rfl, rfl | ⟨_, rfl⟩⟩ | ⟨⟨_, rfl⟩, rfl⟩
  · rfl
  · exact hb.symm
  all_goals rfl

theorem Below.eq_any (h : a.Below .any) : a = .any := by
  rcases h.eq_or with h | ⟨h, -⟩ | ⟨-, h | ⟨_, h⟩⟩ | ⟨-, h⟩
  · exact h
  · exact h
  all_goals cases h

theorem Below.eq_void (h : a.Below .void) : a = .void := by
  rcases h.eq_or with h | ⟨-, h⟩ | ⟨-, h | ⟨_, h⟩⟩ | ⟨-, h⟩
  · exact h
  all_goals cases h

theorem Below.eq_of_wide (h : a.Below b) (hWide : b.isWide = true) : a = b := by
  rcases h.eq_or with h | ⟨rfl, hb⟩ | ⟨rfl, rfl | ⟨_, rfl⟩⟩ | ⟨⟨_, rfl⟩, rfl⟩
  · exact h
  · simp [isWide, hb] at hWide
  all_goals cases hWide

theorem Below.isWide_eq (h : a.Below b) : a.isWide = b.isWide := by
  unfold isWide
  rw [h.words_eq]

theorem Below.trans (hab : a.Below b) (hbc : b.Below c) : a.Below c := by
  rcases hab.eq_or with rfl | ⟨rfl, hb⟩ | ⟨rfl, rfl | ⟨_, rfl⟩⟩ | ⟨⟨_, rfl⟩, rfl⟩
  · exact hbc
  · exact any_below (hbc.words_eq ▸ hb)
  all_goals
    rcases hbc.eq_or with rfl | ⟨h, -⟩ | ⟨h, rfl | ⟨_, rfl⟩⟩ | ⟨⟨_, h⟩, rfl⟩ <;>
      simp_all [below_iff, ofClass]

theorem merge_comm (a b : StackType) : a.merge b = b.merge a := by
  by_cases hEq : a = b
  · rw [hEq]
  · unfold merge
    rw [if_neg hEq, if_neg (Ne.symm hEq)]
    rcases a with _ | _ | _ | _ | (_ | _) | _ | _ | _ <;>
      rcases b with _ | _ | _ | _ | (_ | _) | _ | _ | _ <;> simp_all

theorem Below.antisymm (hab : a.Below b) (hba : b.Below a) : a = b := by
  have hMerge : a.merge b = some a := (merge_comm a b).trans hba
  exact Option.some.inj (hMerge.symm.trans hab)

/-- A join is above both sides. -/
theorem merge_below (h : a.merge b = some d) : a.Below d ∧ b.Below d := by
  by_cases hEq : a = b
  · subst hEq
    have hSame : a.merge a = some a := Below.refl a
    obtain rfl := Option.some.inj (hSame.symm.trans h)
    exact ⟨.refl a, .refl a⟩
  · simp only [below_iff]
    unfold merge at h
    rw [if_neg hEq] at h
    rcases a with _ | _ | _ | _ | (_ | _) | _ | _ | _ <;>
      rcases b with _ | _ | _ | _ | (_ | _) | _ | _ | _ <;>
        simp_all [words, ofClass] <;> subst h <;> simp

/-- Two types with an upper bound have a join, which is the least one. -/
theorem Below.exists_merge (hac : a.Below c) (hbc : b.Below c) :
    ∃ d, a.merge b = some d ∧ d.Below c := by
  by_cases hLeft : a.Below b
  · exact ⟨b, hLeft, hbc⟩
  · by_cases hRight : b.Below a
    · exact ⟨a, (merge_comm a b).trans hRight, hac⟩
    · have hWords : a.words = b.words := hac.words_eq.trans hbc.words_eq.symm
      rcases hac.eq_or with rfl | ⟨rfl, -⟩ | ⟨rfl, -⟩ | ⟨⟨name, rfl⟩, rfl⟩
      · exact absurd hbc hRight
      · exact absurd (any_below hWords.symm) hLeft
      · rcases hbc.eq_or with rfl | ⟨rfl, -⟩ | ⟨rfl, -⟩ | ⟨⟨_, rfl⟩, rfl⟩
        · exact absurd hac hLeft
        · exact absurd (any_below hWords) hRight
        · exact absurd (.refl _) hLeft
        · exact absurd rfl hLeft
      · rcases hbc.eq_or with rfl | ⟨rfl, -⟩ | ⟨rfl, -⟩ | ⟨⟨other, rfl⟩, -⟩
        · exact absurd hac hLeft
        · exact absurd (any_below hWords) hRight
        · exact absurd rfl hRight
        · -- two different classes join in the class of all objects
          refine ⟨ofClass objectClass, ?_, .refl _⟩
          have hNe : StackType.reference (some name) ≠ .reference (some other) :=
            fun hEq => hLeft (hEq ▸ .refl _)
          rw [merge, if_neg hNe]

/-- Every value above a constraint may be consumed there. -/
theorem Below.satisfies (h : a.Below b) (hVoid : a ≠ .void) : b.satisfies a = true := by
  rcases h.eq_or with rfl | ⟨rfl, hb⟩ | ⟨rfl, rfl | ⟨_, rfl⟩⟩ | ⟨⟨_, rfl⟩, rfl⟩
  · cases a <;> first | rfl | exact absurd rfl hVoid
  · cases b <;> first | rfl | cases hb
  all_goals rfl

theorem words_eq_of_satisfies (h : b.satisfies a = true) : b.words = a.words := by
  rcases a with _ | _ | _ | _ | _ | _ | _ | _ <;>
    rcases b with _ | _ | _ | _ | _ | _ | _ | _ <;> simp_all [StackType.satisfies, words]

/-- Going up the order uses up slack. -/
theorem Below.slack (h : a.Below b) : a = b ∨ b.slack < a.slack := by
  rcases h.eq_or with rfl | ⟨rfl, hb⟩ | ⟨rfl, rfl | ⟨_, rfl⟩⟩ | ⟨⟨name, rfl⟩, rfl⟩
  · exact Or.inl rfl
  · rcases b with _ | _ | _ | _ | (_ | _) | _ | _ | _ <;> simp_all [StackType.slack, words]
    split <;> omega
  · exact Or.inr (by decide)
  · rename_i name
    cases name with
    | none => exact Or.inl rfl
    | some name =>
      refine Or.inr ?_
      simp only [StackType.slack]
      split <;> omega
  · by_cases hName : name = objectClass
    · exact Or.inl (by rw [hName]; rfl)
    · exact Or.inr (by simp [StackType.slack, ofClass, hName])

end StackType

/-! ## Stacks -/

namespace TypeStack

@[simp] theorem words_nil : words [] = 0 := rfl

@[simp] theorem words_cons (a : StackType) (stack : TypeStack) :
    words (a :: stack) = a.words + words stack := rfl

@[simp] theorem words_append (top rest : TypeStack) :
    words (top ++ rest) = words top + words rest := by
  induction top with
  | nil => simp
  | cons a top ih => rw [List.cons_append, words_cons, words_cons, ih, Nat.add_assoc]

/-- Nothing on the stack stands for the absence of a value. -/
def VoidFree (stack : TypeStack) : Prop :=
  StackType.void ∉ stack

/-- The lower stack describes the topmost values of the upper one. Two unknown words may stand for a
wide value. -/
inductive Below : TypeStack → TypeStack → Prop
  | nil (upper : TypeStack) : Below [] upper
  | cons {a b : StackType} {lower upper : TypeStack} :
      a.Below b → Below lower upper → Below (a :: lower) (b :: upper)
  | wide {b : StackType} {lower upper : TypeStack} :
      b.isWide = true → Below lower upper → Below (.any :: .any :: lower) (b :: upper)

/-- The same, except that the lower stack may end in the middle of a wide value. -/
inductive Beneath : TypeStack → TypeStack → Prop
  | nil (upper : TypeStack) : Beneath [] upper
  | cons {a b : StackType} {lower upper : TypeStack} :
      a.Below b → Beneath lower upper → Beneath (a :: lower) (b :: upper)
  | wide {b : StackType} {lower upper : TypeStack} :
      b.isWide = true → Beneath lower upper → Beneath (.any :: .any :: lower) (b :: upper)
  | half {b : StackType} (upper : TypeStack) :
      b.isWide = true → Beneath [.any] (b :: upper)

/-- The topmost values occupy exactly the given number of words. -/
def Aligned (depth : Nat) (stack : TypeStack) : Prop :=
  ∃ top rest, stack = top ++ rest ∧ words top = depth

variable {a b c d : TypeStack} {t : StackType}

theorem voidFree_nil : VoidFree [] :=
  List.not_mem_nil

theorem voidFree_cons : VoidFree (t :: a) ↔ t ≠ .void ∧ VoidFree a := by
  simp [VoidFree, eq_comm]

theorem voidFree_append : VoidFree (a ++ b) ↔ VoidFree a ∧ VoidFree b := by
  simp [VoidFree]

theorem VoidFree.eq_nil (h : VoidFree a) (hWords : words a = 0) : a = [] := by
  cases a with
  | nil => rfl
  | cons t a =>
    simp only [words_cons] at hWords
    have hPos := StackType.words_pos (voidFree_cons.mp h).1
    omega

theorem Below.refl (a : TypeStack) : Below a a := by
  induction a with
  | nil => exact .nil _
  | cons t a ih => exact .cons (.refl t) ih

theorem Below.words_le (h : Below a b) : words a ≤ words b := by
  induction h with
  | nil => simp
  | cons hType _ ih =>
    have hWords := hType.words_eq
    simp only [words_cons]
    omega
  | wide hWide _ ih =>
    have hWords := StackType.words_of_isWide hWide
    simp only [words_cons, StackType.words_any]
    omega

/-! ### The join -/

theorem merge?_cons {u v : StackType} (hWords : t.words = u.words) (hType : t.merge u = some v)
    (hRest : merge? a b = some d) : merge? (t :: a) (u :: b) = some (v :: d) := by
  rw [merge?.eq_def]
  simp [hWords, hType, hRest]

theorem merge?_wide_left (hWide : t.isWide = true) :
    merge? (t :: a) (.any :: .any :: b) = (merge? a b).map (t :: ·) := by
  rw [merge?.eq_def]
  simp [StackType.words_of_isWide hWide, hWide]

theorem merge?_wide_right (hWide : t.isWide = true) :
    merge? (.any :: .any :: a) (t :: b) = (merge? a b).map (t :: ·) := by
  have hAny : StackType.any.isWide = false := rfl
  rw [merge?.eq_def]
  simp [StackType.words_of_isWide hWide, hWide, hAny]

theorem Below.merge? (h : Below a b) : merge? a b = some b := by
  induction h with
  | nil => simp [TypeStack.merge?]
  | cons hType _ ih => exact merge?_cons hType.words_eq hType ih
  | wide hWide _ ih => rw [merge?_wide_right hWide, ih, Option.map_some]

/-- A join is above both sides, and as high as the higher one. -/
theorem merge?_below (h : merge? a b = some d) :
    Below a d ∧ Below b d ∧ words d = max (words a) (words b) ∧
      (VoidFree a → VoidFree b → VoidFree d) := by
  induction a, b using TypeStack.merge?.induct generalizing d with
  | case1 right =>
    simp only [merge?, Option.some.injEq] at h
    subst h
    exact ⟨.nil _, .refl _, by simp, fun _ hb => hb⟩
  | case2 left hLeft =>
    have hSame : merge? left [] = some left := by
      cases left <;> simp [merge?]
    obtain rfl := Option.some.inj (hSame.symm.trans h)
    exact ⟨.refl _, .nil _, by simp, fun ha _ => ha⟩
  | case3 t left u right hWords value rest hRest hValue ih =>
    obtain rfl := Option.some.inj ((merge?_cons hWords hValue hRest).symm.trans h)
    obtain ⟨hLeft, hRight, hHeight, hVoid⟩ := ih hRest
    obtain ⟨hLeftType, hRightType⟩ := StackType.merge_below hValue
    have hValueWords := hLeftType.words_eq
    refine ⟨.cons hLeftType hLeft, .cons hRightType hRight, ?_, ?_⟩
    · simp only [words_cons]
      omega
    · intro ha hb
      rw [voidFree_cons] at ha hb ⊢
      refine ⟨?_, hVoid ha.2 hb.2⟩
      rintro rfl
      exact ha.1 hLeftType.eq_void
  | case5 t left u hWords hWide right ih =>
    obtain ⟨hWide, rfl⟩ := hWide
    rw [merge?_wide_left hWide, Option.map_eq_some_iff] at h
    obtain ⟨rest, hRest, rfl⟩ := h
    obtain ⟨hLeft, hRight, hHeight, hVoid⟩ := ih hRest
    have hTypeWords := StackType.words_of_isWide hWide
    refine ⟨.cons (.refl t) hLeft, .wide hWide hRight, ?_, ?_⟩
    · simp only [words_cons, StackType.words_any]
      omega
    · intro ha hb
      rw [voidFree_cons] at ha hb ⊢
      exact ⟨ha.1, hVoid ha.2 (voidFree_cons.mp hb.2).2⟩
  | case7 t u right hWords hNotLeft hWide left ih =>
    obtain ⟨rfl, hWide⟩ := hWide
    rw [merge?_wide_right hWide, Option.map_eq_some_iff] at h
    obtain ⟨rest, hRest, rfl⟩ := h
    obtain ⟨hLeft, hRight, hHeight, hVoid⟩ := ih hRest
    have hTypeWords := StackType.words_of_isWide hWide
    refine ⟨.wide hWide hLeft, .cons (.refl u) hRight, ?_, ?_⟩
    · simp only [words_cons, StackType.words_any]
      omega
    · intro ha hb
      rw [voidFree_cons] at ha hb ⊢
      exact ⟨hb.1, hVoid (voidFree_cons.mp ha.2).2 hb.2⟩
  | case4 t left u right hWords hNone ih =>
    rw [merge?.eq_def] at h
    simp only [hWords, if_true] at h
    cases h
  | case6 t left u right hWords hWide hNone =>
    rw [merge?.eq_def] at h
    simp only [if_neg hWords, if_pos hWide] at h
    cases h
  | case8 t left u right hWords hNotLeft hWide hNone =>
    rw [merge?.eq_def] at h
    simp only [if_neg hWords, if_neg hNotLeft, if_pos hWide] at h
    cases h
  | case9 t left u right hWords hNotLeft hNotRight =>
    rw [merge?.eq_def] at h
    simp only [hWords, hNotLeft, hNotRight, if_false] at h
    cases h

/-- Two stacks with an upper bound have a join, which is the least one. -/
theorem Below.exists_merge? (hac : Below a c) (hbc : Below b c) :
    ∃ d, TypeStack.merge? a b = some d ∧ Below d c := by
  induction hac generalizing b with
  | nil upper => exact ⟨b, by simp [TypeStack.merge?], hbc⟩
  | @cons t v a c hType hRest ih =>
    cases hbc with
    | nil => exact ⟨t :: a, by simp [TypeStack.merge?], .cons hType hRest⟩
    | cons hType' hRest' =>
      obtain ⟨w, hMerge, hw⟩ := hType.exists_merge hType'
      obtain ⟨d, hd, hdc⟩ := ih hRest'
      exact ⟨w :: d, merge?_cons (hType.words_eq.trans hType'.words_eq.symm) hMerge hd,
        .cons hw hdc⟩
    | wide hWide hRest' =>
      obtain rfl := hType.eq_of_wide hWide
      obtain ⟨d, hd, hdc⟩ := ih hRest'
      exact ⟨t :: d, by rw [merge?_wide_left hWide, hd, Option.map_some], .cons (.refl t) hdc⟩
  | @wide v a c hWide hRest ih =>
    cases hbc with
    | nil => exact ⟨_, by simp [TypeStack.merge?], .wide hWide hRest⟩
    | cons hType' hRest' =>
      obtain rfl := hType'.eq_of_wide hWide
      obtain ⟨d, hd, hdc⟩ := ih hRest'
      exact ⟨_ :: d, by rw [merge?_wide_right hWide, hd, Option.map_some], .cons (.refl _) hdc⟩
    | wide _ hRest' =>
      obtain ⟨d, hd, hdc⟩ := ih hRest'
      have hOne := merge?_cons (t := .any) (u := .any) rfl (StackType.Below.refl _) hd
      exact ⟨.any :: .any :: d, merge?_cons rfl (StackType.Below.refl _) hOne, .wide hWide hdc⟩

/-! ### Stacks that end within a value -/

theorem Below.beneath (h : Below a b) : Beneath a b := by
  induction h with
  | nil upper => exact .nil upper
  | cons hType _ ih => exact .cons hType ih
  | wide hWide _ ih => exact .wide hWide ih

theorem not_isWide_any : ¬ StackType.any.isWide = true := by
  decide

theorem Below.antisymm (hab : Below a b) (hba : Below b a) : a = b := by
  induction hab with
  | nil upper =>
    cases hba
    rfl
  | cons hType _ ih =>
    cases hba with
    | cons hType' hRest => rw [hType.antisymm hType', ih hRest]
    | wide hWide _ =>
      obtain rfl := hType.eq_any
      exact absurd hWide not_isWide_any
  | wide hWide _ _ =>
    cases hba with
    | cons hType _ =>
      obtain rfl := hType.eq_any
      exact absurd hWide not_isWide_any
    | wide hAny _ => exact absurd hAny not_isWide_any

theorem Beneath.trans (hab : Beneath a b) (hbc : Beneath b c) : Beneath a c := by
  induction hab generalizing c with
  | nil => exact .nil _
  | @cons t u a b hType hRest ih =>
    cases hbc with
    | cons hType' hRest' => exact .cons (hType.trans hType') (ih hRest')
    | @wide v b c hWide hRest' =>
      obtain rfl := hType.eq_any
      -- two unknown words of the middle stack stand for the wide value
      cases hRest with
      | nil => exact .half c hWide
      | @cons t' _ a _ hType'' hRest'' =>
        obtain rfl := hType''.eq_any
        have hOver : Beneath (.any :: a) (.any :: c) := ih (.cons (.refl _) hRest')
        cases hOver with
        | cons _ hInner => exact .wide hWide hInner
        | wide hAny _ => exact absurd hAny not_isWide_any
        | half _ hAny => exact absurd hAny not_isWide_any
      | wide hAny _ => exact absurd hAny not_isWide_any
      | half _ hAny => exact absurd hAny not_isWide_any
    | half upper hWide =>
      obtain rfl := hType.eq_any
      cases hRest with
      | nil => exact .half upper hWide
  | @wide u a b hWide hRest ih =>
    cases hbc with
    | cons hType' hRest' => exact .wide (hType'.isWide_eq ▸ hWide) (ih hRest')
    | wide hWide' hRest' => exact absurd hWide not_isWide_any
    | half upper hWide' => exact absurd hWide not_isWide_any
  | @half u upper hWide =>
    cases hbc with
    | cons hType' hRest' => exact .half _ (hType'.isWide_eq ▸ hWide)
    | wide hWide' hRest' => exact absurd hWide not_isWide_any
    | half upper hWide' => exact absurd hWide not_isWide_any

theorem Beneath.words_le (h : Beneath a b) : words a ≤ words b := by
  induction h with
  | nil => simp
  | cons hType _ ih =>
    have hWords := hType.words_eq
    simp only [words_cons]
    omega
  | wide hWide _ ih =>
    have hWords := StackType.words_of_isWide hWide
    simp only [words_cons, StackType.words_any]
    omega
  | half upper hWide =>
    have hWords := StackType.words_of_isWide hWide
    simp only [words_cons, words_nil, StackType.words_any]
    omega

/-! ### Boundaries -/

theorem Aligned.zero (a : TypeStack) : Aligned 0 a :=
  ⟨[], a, rfl, rfl⟩

theorem Aligned.full (a : TypeStack) : Aligned (words a) a :=
  ⟨a, [], by simp, rfl⟩

theorem Aligned.cons {depth : Nat} (h : Aligned depth a) (t : StackType) :
    Aligned (t.words + depth) (t :: a) := by
  obtain ⟨top, rest, rfl, rfl⟩ := h
  exact ⟨t :: top, rest, rfl, by simp⟩

theorem Aligned.tail {depth : Nat} (h : Aligned (t.words + depth) (t :: a)) :
    Aligned depth a := by
  obtain ⟨top, rest, hSplit, hTop⟩ := h
  cases top with
  | nil =>
    simp only [words_nil] at hTop
    obtain rfl : depth = 0 := by omega
    exact Aligned.zero a
  | cons u top =>
    obtain ⟨rfl, rfl⟩ := List.cons.inj hSplit
    simp only [words_cons] at hTop
    exact ⟨top, rest, rfl, by omega⟩

theorem Aligned.append {depth : Nat} (h : Aligned depth b) (a : TypeStack) :
    Aligned (words a + depth) (a ++ b) := by
  obtain ⟨top, rest, rfl, rfl⟩ := h
  exact ⟨a ++ top, rest, by simp, by simp⟩

theorem Aligned.of_append {depth : Nat} (h : Aligned (words a + depth) (a ++ b)) :
    Aligned depth b := by
  induction a with
  | nil => simpa using h
  | cons t a ih =>
    rw [words_cons, Nat.add_assoc, List.cons_append] at h
    exact ih h.tail

/-- A stack ends at a boundary of the stacks above it. -/
theorem Below.aligned (h : Below a b) : Aligned (words a) b := by
  induction h with
  | nil upper => exact Aligned.zero upper
  | cons hType _ ih =>
    rw [words_cons, hType.words_eq]
    exact ih.cons _
  | @wide u lower _ hWide _ ih =>
    have hWords := StackType.words_of_isWide hWide
    have hHeight : words (.any :: .any :: lower) = u.words + words lower := by
      simp only [words_cons, StackType.words_any]
      omega
    rw [hHeight]
    exact ih.cons _

/-- Where the upper stack has a boundary at the end of the lower one, both relations agree. -/
theorem Beneath.below_of_aligned (h : Beneath a b) (hAligned : Aligned (words a) b) :
    Below a b := by
  induction h with
  | nil upper => exact .nil upper
  | cons hType _ ih =>
    rw [words_cons, hType.words_eq] at hAligned
    exact .cons hType (ih hAligned.tail)
  | @wide u lower _ hWide _ ih =>
    have hWords := StackType.words_of_isWide hWide
    have hHeight : words (.any :: .any :: lower) = u.words + words lower := by
      simp only [words_cons, StackType.words_any]
      omega
    rw [hHeight] at hAligned
    exact .wide hWide (ih hAligned.tail)
  | @half u upper hWide =>
    obtain ⟨top, rest, hSplit, hTop⟩ := hAligned
    have hWords := StackType.words_of_isWide hWide
    cases top with
    | nil => simp at hTop
    | cons v top =>
      obtain ⟨rfl, -⟩ := List.cons.inj hSplit
      simp only [words_cons, words_nil, StackType.words_any] at hTop
      omega

/-- The order is transitive where the uppermost stack has a boundary at the end of the lowest. -/
theorem Below.trans_of_aligned (hab : Below a b) (hbc : Below b c)
    (hAligned : Aligned (words a) c) : Below a c :=
  (hab.beneath.trans hbc.beneath).below_of_aligned hAligned

theorem Below.trans_of_words (hab : Below a b) (hbc : Below b c) (hWords : words a = words b) :
    Below a c :=
  hab.trans_of_aligned hbc (hWords ▸ hbc.aligned)

/-- A boundary of the upper stack is one of the lower stack, if the lower stack is that high. -/
theorem Below.exists_split {top rest : TypeStack} (h : Below a (top ++ rest))
    (hHeight : words top ≤ words a) :
    ∃ lowTop lowRest, a = lowTop ++ lowRest ∧ words lowTop = words top ∧ Below lowTop top ∧
      Below lowRest rest := by
  induction top generalizing a with
  | nil => exact ⟨[], a, rfl, rfl, .nil _, h⟩
  | cons u top ih =>
    rw [List.cons_append] at h
    simp only [words_cons] at hHeight ⊢
    cases h with
    | nil =>
      rw [words_nil] at hHeight
      exact ⟨[], [], rfl, by rw [words_nil]; omega, .nil _, .nil _⟩
    | @cons t _ a _ hType hRest =>
      have hWords := hType.words_eq
      rw [words_cons] at hHeight
      obtain ⟨lowTop, lowRest, rfl, hEq, hTop, hLow⟩ := ih hRest (by omega)
      exact ⟨t :: lowTop, lowRest, rfl, by rw [words_cons]; omega, .cons hType hTop, hLow⟩
    | @wide _ a _ hWide hRest =>
      have hWords := StackType.words_of_isWide hWide
      simp only [words_cons, StackType.words_any] at hHeight
      obtain ⟨lowTop, lowRest, rfl, hEq, hTop, hLow⟩ := ih hRest (by omega)
      refine ⟨.any :: .any :: lowTop, lowRest, rfl, ?_, .wide hWide hTop, hLow⟩
      simp only [words_cons, StackType.words_any]
      omega

theorem Below.aligned_of_aligned {depth : Nat} (h : Below a b) (hAligned : Aligned depth b)
    (hDepth : depth ≤ words a) : Aligned depth a := by
  obtain ⟨top, rest, rfl, rfl⟩ := hAligned
  obtain ⟨lowTop, lowRest, rfl, hWords, -⟩ := h.exists_split hDepth
  exact ⟨lowTop, lowRest, rfl, hWords⟩

theorem Below.append {top rest : TypeStack} (hTop : Below a top) (hWords : words a = words top)
    (hVoid : VoidFree top) (hRest : Below b rest) : Below (a ++ b) (top ++ rest) := by
  induction hTop with
  | nil top =>
    obtain rfl := hVoid.eq_nil (by simpa using hWords.symm)
    exact hRest
  | cons hType _ ih =>
    have hTypeWords := hType.words_eq
    simp only [words_cons] at hWords
    exact .cons hType (ih (by omega) (voidFree_cons.mp hVoid).2)
  | wide hWide _ ih =>
    have hTypeWords := StackType.words_of_isWide hWide
    simp only [words_cons, StackType.words_any] at hWords
    exact .wide hWide (ih (by omega) (voidFree_cons.mp hVoid).2)

/-- Unknown words are below whatever ends where they end. -/
theorem replicate_any_below {depth : Nat} (hAligned : Aligned depth b) (hVoid : VoidFree b) :
    Below (List.replicate depth .any) b := by
  obtain ⟨top, rest, rfl, rfl⟩ := hAligned
  induction top with
  | nil => exact .nil _
  | cons t top ih =>
    obtain ⟨hType, hRest⟩ := voidFree_cons.mp hVoid
    rw [words_cons, List.cons_append]
    rcases StackType.words_eq_one_or_isWide hType with hOne | hWide
    · rw [hOne, Nat.add_comm, List.replicate_succ]
      exact .cons (StackType.any_below hOne) (ih hRest)
    · rw [StackType.words_of_isWide hWide, Nat.add_comm, List.replicate_succ, List.replicate_succ]
      exact .wide hWide (ih hRest)

/-- Among stacks of one height, going up uses up slack. -/
theorem Below.slack (h : Below a b) (hWords : words a = words b) (hVoid : VoidFree b) :
    a = b ∨ b.foldr (fun value rest => value.slack + rest) 0 <
      a.foldr (fun value rest => value.slack + rest) 0 := by
  induction h with
  | nil upper => exact Or.inl (hVoid.eq_nil (by simpa using hWords.symm)).symm
  | cons hType _ ih =>
    have hTypeWords := hType.words_eq
    simp only [words_cons] at hWords
    simp only [List.foldr_cons]
    rcases hType.slack with rfl | hLess
    · rcases ih (by omega) (voidFree_cons.mp hVoid).2 with rfl | hRest
      · exact Or.inl rfl
      · exact Or.inr (by omega)
    · rcases ih (by omega) (voidFree_cons.mp hVoid).2 with rfl | hRest
      · exact Or.inr (by omega)
      · exact Or.inr (by omega)
  | @wide u lower upper hWide _ ih =>
    have hTypeWords := StackType.words_of_isWide hWide
    have hNone : u.slack = 0 := by
      cases u <;> first | rfl | cases hWide
    have hAny : StackType.any.slack = 3 := rfl
    simp only [words_cons, StackType.words_any] at hWords
    simp only [List.foldr_cons]
    rcases ih (by omega) (voidFree_cons.mp hVoid).2 with rfl | hRest
    · exact Or.inr (by omega)
    · exact Or.inr (by omega)

end TypeStack

end BytecodeFlow
