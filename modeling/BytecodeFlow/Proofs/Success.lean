import Mathlib.Data.List.Forall2
import Mathlib.Tactic

/-!
# Passes that succeed

What the success of a pass says about its parts. A list is mapped exactly if each of its items is
(`mapM_eq_ok`), and a pass over a list keeps what each of its steps keeps (`foldlM_preserves`).

A pass may also be known to fail exactly if a condition does not hold (`Decides`). The conditions of
passes in a row add up (`Decides.bind`, `Decides.foldlM`). Where it is open whether a pass fails,
`Yields` says what it may fail with.
-/

namespace BytecodeFlow

variable {ε α β σ : Type}

theorem bind_eq_ok {x : Except ε α} {f : α → Except ε β} {b : β} :
    x >>= f = .ok b ↔ ∃ a, x = .ok a ∧ f a = .ok b := by
  cases x with
  | error error =>
    constructor
    · intro h
      cases h
    · rintro ⟨a, h, -⟩
      cases h
  | ok a =>
    constructor
    · exact fun h => ⟨a, rfl, h⟩
    · rintro ⟨_, h, hf⟩
      cases h
      exact hf

theorem map_eq_ok {x : Except ε α} {f : α → β} {b : β} :
    f <$> x = .ok b ↔ ∃ a, x = .ok a ∧ f a = b := by
  cases x with
  | error error =>
    constructor
    · intro h
      cases h
    · rintro ⟨a, h, -⟩
      cases h
  | ok a =>
    constructor
    · intro h
      cases h
      exact ⟨a, rfl, rfl⟩
    · rintro ⟨_, h, rfl⟩
      cases h
      rfl

theorem mapError_eq_ok {ε' : Type} {x : Except ε α} {f : ε → ε'} {a : α} :
    x.mapError f = .ok a ↔ x = .ok a := by
  cases x with
  | error error => constructor <;> intro h <;> cases h
  | ok a =>
    constructor
    · intro h
      cases h
      rfl
    · intro h
      cases h
      rfl

/-- A list is mapped if each of its items is. -/
theorem mapM_eq_ok {f : α → Except ε β} {items : List α} {results : List β} :
    items.mapM f = .ok results ↔ List.Forall₂ (fun a b => f a = .ok b) items results := by
  induction items generalizing results with
  | nil =>
    rw [List.mapM_nil, List.forall₂_nil_left_iff]
    constructor
    · intro h
      cases h
      rfl
    · rintro rfl
      rfl
  | cons item items ih =>
    rw [List.mapM_cons]
    constructor
    · intro h
      obtain ⟨first, hFirst, h⟩ := bind_eq_ok.mp h
      obtain ⟨rest, hRest, h⟩ := bind_eq_ok.mp h
      cases h
      exact .cons hFirst (ih.mp hRest)
    · rintro (_ | ⟨hFirst, hRest⟩)
      rw [hFirst, ih.mpr hRest]
      rfl

theorem mem_mapM {f : α → Except ε β} {items : List α} {results : List β} {b : β}
    (h : items.mapM f = .ok results) : b ∈ results ↔ ∃ a ∈ items, f a = .ok b := by
  have hForall := mapM_eq_ok.mp h
  clear h
  induction hForall with
  | nil => simp
  | cons hFirst _ ih =>
    rw [List.mem_cons, List.exists_mem_cons_iff, hFirst, Except.ok.injEq, eq_comm]
    exact or_congr Iff.rfl ih

theorem mapM_ok_of_mem {f : α → Except ε β} {items : List α} {results : List β} {a : α}
    (h : items.mapM f = .ok results) (ha : a ∈ items) : ∃ b, f a = .ok b := by
  have hForall := mapM_eq_ok.mp h
  clear h
  induction hForall with
  | nil => cases ha
  | cons hFirst _ ih =>
    rcases List.mem_cons.mp ha with rfl | ha
    · exact ⟨_, hFirst⟩
    · exact ih ha

/-- A table that is computed entry by entry. -/
theorem mapM_range_eq_ok {f : Nat → Except ε β} {count : Nat} {results : List β}
    (h : (List.range count).mapM f = .ok results) :
    results.length = count ∧ ∀ k, k < count → ∃ b, results[k]? = some b ∧ f k = .ok b := by
  obtain ⟨hLength, hEach⟩ := List.forall₂_iff_get.mp (mapM_eq_ok.mp h)
  rw [List.length_range] at hLength
  refine ⟨hLength.symm, fun k hk => ?_⟩
  have hResult := hEach k (by simpa using hk) (by omega)
  rw [List.get_eq_getElem, List.getElem_range] at hResult
  exact ⟨_, List.getElem?_eq_getElem (by omega), hResult⟩

theorem mapM_getElem? {f : α → Except ε β} {items : List α} {results : List β}
    (h : items.mapM f = .ok results) (k : Nat) :
    Option.Rel (fun a b => f a = .ok b) items[k]? results[k]? := by
  have hForall := mapM_eq_ok.mp h
  clear h
  induction hForall generalizing k with
  | nil => exact .none
  | cons hFirst _ ih =>
    cases k with
    | zero => exact .some hFirst
    | succ k => exact ih k

/-- The items of a list with their numbers. -/
theorem getElem?_zip_range (items : List α) (k : Nat) :
    ((List.range items.length).zip items)[k]? = items[k]?.map (k, ·) := by
  by_cases hk : k < items.length
  · simp [hk]
  · rw [List.getElem?_eq_none (by simpa using hk), List.getElem?_eq_none (by simpa using hk)]
    rfl

theorem mem_zip_range {items : List α} {index : Nat} {item : α} :
    (index, item) ∈ (List.range items.length).zip items ↔ items[index]? = some item := by
  simp [List.mem_iff_getElem?, getElem?_zip_range]

theorem mapM_succeeds {f : α → Except ε β} {items : List α}
    (hf : ∀ item ∈ items, ∃ b, f item = .ok b) : ∃ results, items.mapM f = .ok results := by
  induction items with
  | nil => exact ⟨[], rfl⟩
  | cons item items ih =>
    obtain ⟨first, hFirst⟩ := hf item List.mem_cons_self
    obtain ⟨rest, hRest⟩ := ih fun other hOther => hf other (List.mem_cons_of_mem _ hOther)
    refine ⟨first :: rest, ?_⟩
    rw [List.mapM_cons, hFirst, hRest]
    rfl

theorem exists_mapM_iff {f : α → Except ε β} {items : List α} :
    (∃ results, items.mapM f = .ok results) ↔ ∀ item ∈ items, ∃ b, f item = .ok b := by
  constructor
  · intro h item hItem
    obtain ⟨results, hResults⟩ := h
    exact mapM_ok_of_mem hResults hItem
  · exact mapM_succeeds

theorem foldlM_preserves {P : σ → Prop} {step : σ → α → Except ε σ} {items : List α}
    {state result : σ} (hStep : ∀ state item next, item ∈ items → P state →
      step state item = .ok next → P next)
    (hState : P state) (h : items.foldlM step state = .ok result) : P result := by
  induction items generalizing state with
  | nil =>
    cases h
    exact hState
  | cons item items ih =>
    rw [List.foldlM_cons] at h
    obtain ⟨next, hNext, hRest⟩ := bind_eq_ok.mp h
    exact ih (fun state other next hOther => hStep state other next (List.mem_cons_of_mem _ hOther))
      (hStep state item next List.mem_cons_self hState hNext) hRest

/-! ## Checks -/

/-- A check ends if the condition holds and fails if it does not, with a result and a fault of the
given kinds. -/
inductive Decides (condition : Prop) (Result : α → Prop) (Fault : ε → Prop) : Except ε α → Prop
  | ok {result : α} (hCondition : condition) (hResult : Result result) :
      Decides condition Result Fault (.ok result)
  | error {fault : ε} (hCondition : ¬ condition) (hFault : Fault fault) :
      Decides condition Result Fault (.error fault)

namespace Decides

variable {P Q : Prop} {R : α → Prop} {S : β → Prop} {F : ε → Prop} {x : Except ε α}

theorem of_eq_ok {result : α} (h : Decides P R F x) (hx : x = .ok result) : P ∧ R result := by
  subst hx
  cases h with
  | ok hCondition hResult => exact ⟨hCondition, hResult⟩

theorem of_eq_error {fault : ε} (h : Decides P R F x) (hx : x = .error fault) : ¬ P ∧ F fault := by
  subst hx
  cases h with
  | error hCondition hFault => exact ⟨hCondition, hFault⟩

theorem exists_ok_iff (h : Decides P R F x) : (∃ result, x = .ok result) ↔ P := by
  cases h with
  | ok hCondition => exact ⟨fun _ => hCondition, fun _ => ⟨_, rfl⟩⟩
  | error hCondition =>
    constructor
    · rintro ⟨_, hOk⟩
      cases hOk
    · exact fun h => absurd h hCondition

theorem congr (h : Decides P R F x) (hIff : P ↔ Q) : Decides Q R F x :=
  propext hIff ▸ h

theorem mono {R' : α → Prop} (h : Decides P R F x) (hMono : ∀ a, R a → R' a) :
    Decides P R' F x := by
  cases h with
  | ok hCondition hResult => exact .ok hCondition (hMono _ hResult)
  | error hCondition hFault => exact .error hCondition hFault

theorem weaken {F' : ε → Prop} (h : Decides P R F x) (hFault : ∀ fault, F fault → F' fault) :
    Decides P R F' x := by
  cases h with
  | ok hCondition hResult => exact .ok hCondition hResult
  | error hCondition hBad => exact .error hCondition (hFault _ hBad)

/-- What follows a check may rely on its condition and its result. -/
theorem bind {f : α → Except ε β} (h : Decides P R F x)
    (hNext : P → ∀ a, R a → Decides Q S F (f a)) : Decides (P ∧ Q) S F (x >>= f) := by
  cases h with
  | @ok a hCondition hResult =>
    exact (hNext hCondition a hResult).congr (and_iff_right hCondition).symm
  | error hCondition hFault => exact .error (fun h => hCondition h.1) hFault

/-- A pass whose steps check their items. The invariant may speak of the items that are done. -/
theorem foldlM {Good : α → Prop} {I : List α → σ → Prop} {step : σ → α → Except ε σ}
    {items : List α} {state : σ}
    (hStep : ∀ done item rest state, items = done ++ item :: rest → I done state →
      Decides (Good item) (I (done ++ [item])) F (step state item))
    (hState : I [] state) :
    Decides (∀ item ∈ items, Good item) (I items) F (items.foldlM step state) := by
  suffices hRest : ∀ todo done state, items = done ++ todo → I done state →
      Decides (∀ item ∈ todo, Good item) (I items) F (todo.foldlM step state) from
    hRest items [] state rfl hState
  intro todo
  induction todo with
  | nil =>
    intro done state hSplit hDone
    rw [List.append_nil] at hSplit
    exact .ok (by simp) (hSplit ▸ hDone)
  | cons item todo ih =>
    intro done state hSplit hDone
    rw [List.foldlM_cons, List.forall_mem_cons]
    exact (hStep done item todo state hSplit hDone).bind fun _ next hNext =>
      ih (done ++ [item]) next (by simp [hSplit]) hNext

end Decides

/-! ## Results and faults -/

/-- A pass has a result of the one kind, or a fault of the other. -/
inductive Yields (Result : α → Prop) (Fault : ε → Prop) : Except ε α → Prop
  | ok {result : α} (hResult : Result result) : Yields Result Fault (.ok result)
  | error {fault : ε} (hFault : Fault fault) : Yields Result Fault (.error fault)

/-- If a pass fails, then with a fault of the given kind. -/
abbrev FaultsAre (Fault : ε → Prop) (x : Except ε α) : Prop :=
  Yields (fun _ => True) Fault x

namespace Yields

variable {R : α → Prop} {S : β → Prop} {F : ε → Prop} {x : Except ε α}

theorem of_eq_ok {result : α} (h : Yields R F x) (hx : x = .ok result) : R result := by
  subst hx
  cases h with
  | ok hResult => exact hResult

theorem of_eq_error {fault : ε} (h : Yields R F x) (hx : x = .error fault) : F fault := by
  subst hx
  cases h with
  | error hFault => exact hFault

theorem pure (a : α) : FaultsAre F (pure a : Except ε α) :=
  .ok trivial

theorem self (x : Except ε α) : FaultsAre (fun fault => x = .error fault) x := by
  cases x with
  | error fault => exact .error rfl
  | ok result => exact .ok trivial

theorem strengthen (h : FaultsAre F x) (hResult : ∀ a, x = .ok a → R a) : Yields R F x := by
  cases h with
  | ok _ => exact .ok (hResult _ rfl)
  | error hFault => exact .error hFault

theorem weaken {F' : ε → Prop} (h : Yields R F x) (hFault : ∀ fault, F fault → F' fault) :
    Yields R F' x := by
  cases h with
  | ok hResult => exact .ok hResult
  | error hBad => exact .error (hFault _ hBad)

theorem bind {f : α → Except ε β} (h : Yields R F x)
    (hNext : ∀ a, x = .ok a → R a → Yields S F (f a)) : Yields S F (x >>= f) := by
  cases h with
  | ok hResult => exact hNext _ rfl hResult
  | error hFault => exact .error hFault

theorem map {f : α → β} (h : Yields R F x) (hResult : ∀ a, R a → S (f a)) :
    Yields S F (f <$> x) := by
  cases h with
  | ok hOk => exact .ok (hResult _ hOk)
  | error hFault => exact .error hFault

theorem mapError {ε' : Type} {F' : ε' → Prop} {f : ε → ε'} (h : Yields R F x)
    (hFault : ∀ fault, F fault → F' (f fault)) : Yields R F' (x.mapError f) := by
  cases h with
  | ok hResult => exact .ok hResult
  | error hBad => exact .error (hFault _ hBad)

theorem mapM {f : α → Except ε β} {items : List α} (h : ∀ item ∈ items, FaultsAre F (f item)) :
    FaultsAre F (items.mapM f) := by
  induction items with
  | nil => exact .ok trivial
  | cons item items ih =>
    rw [List.mapM_cons]
    refine (h item List.mem_cons_self).bind fun first _ _ => ?_
    exact (ih fun other hOther => h other (List.mem_cons_of_mem _ hOther)).bind fun _ _ _ =>
      .pure _

theorem foldlM {I : σ → Prop} {step : σ → α → Except ε σ} {items : List α} {state : σ}
    (hStep : ∀ state, ∀ item ∈ items, I state → Yields I F (step state item)) (hState : I state) :
    Yields I F (items.foldlM step state) := by
  induction items generalizing state with
  | nil => exact .ok hState
  | cons item items ih =>
    rw [List.foldlM_cons]
    refine (hStep state item List.mem_cons_self hState).bind fun next _ hNext => ?_
    exact ih (fun state other hOther => hStep state other (List.mem_cons_of_mem _ hOther)) hNext

end Yields

end BytecodeFlow
