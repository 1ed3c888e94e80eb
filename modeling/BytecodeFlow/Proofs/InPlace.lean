import Mathlib.Tactic

/-!
# Steps that work in place

A step of `EStateM` works on a state and may fail, and a failure keeps the state that it was raised
in. So a step that fails may leave half of its work behind. One that does not is called atomic
(`Atomic`). A row of steps is atomic if those before the last only look at the state
(`Atomic.bind`), or if those behind the first never fail (`Atomic.bind_of_total`).

A pass over a list of items is not atomic, but what it leaves is the work of the items before the
one that failed (`forM_eq_error`).

A step may also be known to leave a part of the state alone, however it ends (`Keeps`).
-/

namespace BytecodeFlow.InPlace

variable {ε σ α β : Type} {x : EStateM ε σ α} {f : α → EStateM ε σ β} {g : α → β} {s left : σ}

theorem bind_apply_eq_ok {b : β} : (x >>= f) s = .ok b left ↔
    ∃ a middle, x s = .ok a middle ∧ f a middle = .ok b left := by
  change EStateM.bind x f s = _ ↔ _
  cases h : x s <;> simp [EStateM.bind, h]

theorem bind_apply_eq_error {error : ε} : (x >>= f) s = .error error left ↔
    x s = .error error left ∨ ∃ a middle, x s = .ok a middle ∧ f a middle = .error error left := by
  change EStateM.bind x f s = _ ↔ _
  cases h : x s <;> simp [EStateM.bind, h]

theorem bind_apply_of_ok {a : α} {middle : σ} (h : x s = .ok a middle) :
    (x >>= f) s = f a middle := by
  change EStateM.bind x f s = _
  simp only [EStateM.bind, h]

theorem bind_apply_of_error {error : ε} (h : x s = .error error left) :
    (x >>= f) s = .error error left :=
  bind_apply_eq_error.mpr (Or.inl h)

theorem map_apply_eq_ok {b : β} : (g <$> x) s = .ok b left ↔ ∃ a, x s = .ok a left ∧ g a = b := by
  change EStateM.map g x s = _ ↔ _
  cases h : x s with
  | ok a middle => simp [EStateM.map, h, and_comm]
  | error error middle => simp [EStateM.map, h]

theorem map_apply_eq_error {error : ε} :
    (g <$> x) s = .error error left ↔ x s = .error error left := by
  change EStateM.map g x s = _ ↔ _
  cases h : x s <;> simp [EStateM.map, h]

/-! ## Atomic steps -/

/-- A step that leaves the state as it was if it fails. -/
def Atomic (x : EStateM ε σ α) : Prop :=
  ∀ s error left, x s = .error error left → left = s

/-- A step that does not change the state. -/
def Looks (x : EStateM ε σ α) : Prop :=
  Atomic x ∧ ∀ s a left, x s = .ok a left → left = s

/-- A step that never fails. -/
def Total (x : EStateM ε σ α) : Prop :=
  ∀ s error left, x s ≠ .error error left

theorem Total.atomic (h : Total x) : Atomic x :=
  fun s error left hError => absurd hError (h s error left)

theorem total_pure (a : α) : Total (pure a : EStateM ε σ α) := by
  intro s error left h
  cases h

theorem total_modify (change : σ → σ) : Total (modify change : EStateM ε σ PUnit) := by
  intro s error left h
  cases h

theorem looks_get : Looks (get : EStateM ε σ σ) := by
  constructor
  · intro s error left h
    cases h
  · intro s a left h
    cases h
    rfl

theorem looks_pure (a : α) : Looks (pure a : EStateM ε σ α) := by
  refine ⟨(total_pure a).atomic, ?_⟩
  intro s b left h
  cases h
  rfl

theorem looks_throw (error : ε) : Looks (throw error : EStateM ε σ α) := by
  constructor
  · intro s error left h
    cases h
    rfl
  · intro s a left h
    cases h

theorem Atomic.map (hx : Atomic x) : Atomic (g <$> x) := by
  intro s error left h
  exact hx s error left (map_apply_eq_error.mp h)

theorem Looks.bind (hx : Looks x) (hf : ∀ a, Looks (f a)) : Looks (x >>= f) := by
  constructor
  · intro s error left h
    rcases bind_apply_eq_error.mp h with hError | ⟨a, middle, hOk, hError⟩
    · exact hx.1 s error left hError
    · obtain rfl := hx.2 s a middle hOk
      exact (hf a).1 _ error left hError
  · intro s b left h
    obtain ⟨a, middle, hOk, hLast⟩ := bind_apply_eq_ok.mp h
    obtain rfl := hx.2 s a middle hOk
    exact (hf a).2 _ b left hLast

/-- What follows a look works on the same state. -/
theorem Looks.bind_eq_ok (hx : Looks x) {b : β} (h : (x >>= f) s = .ok b left) :
    ∃ a, x s = .ok a s ∧ f a s = .ok b left := by
  obtain ⟨a, middle, hOk, hLast⟩ := bind_apply_eq_ok.mp h
  obtain rfl := hx.2 s a middle hOk
  exact ⟨a, hOk, hLast⟩

/-- What follows a look is as atomic as before. -/
theorem Atomic.bind (hx : Looks x) (hf : ∀ a, Atomic (f a)) : Atomic (x >>= f) := by
  intro s error left h
  rcases bind_apply_eq_error.mp h with hError | ⟨a, middle, hOk, hError⟩
  · exact hx.1 s error left hError
  · obtain rfl := hx.2 s a middle hOk
    exact hf a _ error left hError

/-- What never fails may follow an atomic step. -/
theorem Atomic.bind_of_total (hx : Atomic x) (hf : ∀ a, Total (f a)) : Atomic (x >>= f) := by
  intro s error left h
  rcases bind_apply_eq_error.mp h with hError | ⟨a, middle, -, hError⟩
  · exact hx s error left hError
  · exact absurd hError (hf a middle error left)

/-! ## Steps that end -/

/-- A step ends without a failure. -/
def Ends (x : EStateM ε σ α) (s : σ) : Prop :=
  ∃ a left, x s = .ok a left

theorem Total.ends (h : Total x) (s : σ) : Ends x s := by
  cases hx : x s with
  | ok a left => exact ⟨a, left, hx⟩
  | error error left => exact absurd hx (h s error left)

theorem not_ends_throw (error : ε) : ¬ Ends (throw error : EStateM ε σ α) s := by
  intro h
  obtain ⟨a, left, h⟩ := h
  cases h

theorem ends_map : Ends (g <$> x) s ↔ Ends x s := by
  simp only [Ends, map_apply_eq_ok]
  constructor
  · intro h
    obtain ⟨_, left, a, ha, -⟩ := h
    exact ⟨a, left, ha⟩
  · intro h
    obtain ⟨a, left, ha⟩ := h
    exact ⟨g a, left, a, ha, rfl⟩

theorem ends_get_bind {f : σ → EStateM ε σ β} : Ends (get >>= f) s ↔ Ends (f s) s :=
  Iff.rfl

/-- What follows a check ends if the check does and what follows does. -/
theorem Looks.ends_bind {x : EStateM ε σ PUnit} {f : PUnit → EStateM ε σ β} (hx : Looks x) :
    Ends (x >>= f) s ↔ Ends x s ∧ Ends (f ⟨⟩) s := by
  constructor
  · intro h
    obtain ⟨b, left, h⟩ := h
    obtain ⟨_, hCheck, hRest⟩ := hx.bind_eq_ok h
    exact ⟨⟨_, _, hCheck⟩, ⟨b, left, hRest⟩⟩
  · intro h
    obtain ⟨⟨a, middle, hCheck⟩, ⟨b, left, hRest⟩⟩ := h
    obtain rfl := hx.2 s a middle hCheck
    exact ⟨b, left, bind_apply_eq_ok.mpr ⟨a, _, hCheck, hRest⟩⟩

/-! ## Passes -/

section Passes

variable {step : α → EStateM ε σ PUnit} {item : α} {items : List α} {error : ε}

theorem forM_cons_eq_ok : (item :: items).forM step s = .ok ⟨⟩ left ↔
    ∃ middle, step item s = .ok ⟨⟩ middle ∧ items.forM step middle = .ok ⟨⟩ left := by
  change (step item >>= fun _ => items.forM step) s = _ ↔ _
  rw [bind_apply_eq_ok]
  exact ⟨fun ⟨_, h⟩ => h, fun h => ⟨⟨⟩, h⟩⟩

theorem forM_cons_eq_error : (item :: items).forM step s = .error error left ↔
    step item s = .error error left ∨
      ∃ middle, step item s = .ok ⟨⟩ middle ∧ items.forM step middle = .error error left := by
  change (step item >>= fun _ => items.forM step) s = _ ↔ _
  rw [bind_apply_eq_error]
  exact or_congr Iff.rfl ⟨fun ⟨_, h⟩ => h, fun h => ⟨⟨⟩, h⟩⟩

/-- A pass that fails has done the work of the items before the one that failed. -/
theorem forM_eq_error (h : items.forM step s = .error error left) :
    ∃ before failed rest middle, items = before ++ failed :: rest ∧
      before.forM step s = .ok ⟨⟩ middle ∧ step failed middle = .error error left := by
  induction items generalizing s with
  | nil => cases h
  | cons item items ih =>
    rcases forM_cons_eq_error.mp h with hFirst | ⟨middle, hFirst, hRest⟩
    · exact ⟨[], item, items, s, rfl, rfl, hFirst⟩
    · obtain ⟨before, failed, rest, reached, rfl, hBefore, hFailed⟩ := ih hRest
      exact ⟨item :: before, failed, rest, reached, rfl,
        forM_cons_eq_ok.mpr ⟨middle, hFirst, hBefore⟩, hFailed⟩

/-- A pass that ends keeps what each of its steps keeps. -/
theorem forM_preserves {P : σ → Prop}
    (hStep : ∀ item s left, P s → step item s = .ok ⟨⟩ left → P left) (hs : P s)
    (h : items.forM step s = .ok ⟨⟩ left) : P left := by
  induction items generalizing s with
  | nil =>
    cases h
    exact hs
  | cons item items ih =>
    obtain ⟨middle, hFirst, hRest⟩ := forM_cons_eq_ok.mp h
    exact ih (hStep item s middle hs hFirst) hRest

end Passes

/-! ## Parts that are left alone -/

/-- The state that a step leaves, whether it fails or not. -/
def leaves (x : EStateM ε σ α) (s : σ) : σ :=
  match x s with
  | .ok _ left => left
  | .error _ left => left

/-- A step that does not change a part of the state, whether it fails or not. -/
def Keeps {γ : Type} (part : σ → γ) (x : EStateM ε σ α) : Prop :=
  ∀ s, part (leaves x s) = part s

section Parts

variable {γ : Type} {part : σ → γ}

theorem Looks.keeps (hx : Looks x) (part : σ → γ) : Keeps part x := by
  intro s
  unfold leaves
  cases h : x s with
  | ok a left => rw [hx.2 s a left h]
  | error error left => rw [hx.1 s error left h]

theorem keeps_modify {change : σ → σ} (h : ∀ s, part (change s) = part s) :
    Keeps part (modify change : EStateM ε σ PUnit) :=
  h

theorem Keeps.bind (hx : Keeps part x) (hf : ∀ a, Keeps part (f a)) : Keeps part (x >>= f) := by
  intro s
  have hFirst := hx s
  unfold leaves at hFirst ⊢
  cases h : x s with
  | ok a middle =>
    rw [h] at hFirst
    rw [bind_apply_of_ok h]
    exact (hf a middle).trans hFirst
  | error error left =>
    rw [h] at hFirst
    rw [bind_apply_of_error h]
    exact hFirst

theorem Keeps.map (hx : Keeps part x) : Keeps part (g <$> x) := by
  intro s
  have hFirst := hx s
  unfold leaves at hFirst ⊢
  cases h : x s with
  | ok a left =>
    rw [h] at hFirst
    rw [map_apply_eq_ok.mpr ⟨a, h, rfl⟩]
    exact hFirst
  | error error left =>
    rw [h] at hFirst
    rw [map_apply_eq_error.mpr h]
    exact hFirst

theorem Keeps.forM {step : α → EStateM ε σ PUnit} (h : ∀ item, Keeps part (step item))
    (items : List α) : Keeps part (items.forM step) := by
  induction items with
  | nil => exact (looks_pure _).keeps part
  | cons item items ih => exact (h item).bind fun _ => ih

end Parts

end BytecodeFlow.InPlace
