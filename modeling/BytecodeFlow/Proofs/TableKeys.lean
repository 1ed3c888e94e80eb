import BytecodeFlow.Proofs.AssemblySteps

/-!
# The keys of table switches

A table switch is accepted if each of its keys comes right after the one before it in 32-bit
arithmetic, where the least integer comes right after the greatest. So the keys count up from the
first one, but around (`consecutive_iff`): after the greatest key they go on with the least one, and
they repeat if there are more of them than 32-bit integers.

As integers they count up exactly if the greatest key is not passed (`countUp_iff`), and only then
are they increasing (`pairwise_lt_iff`). They differ from each other exactly if no more keys are
given than there are (`nodup_iff`).
-/

namespace BytecodeFlow

namespace Assembler

open InPlace

/-- The keys count up from the first one, as integers. -/
def CountUp (keys : List Int32) : Prop :=
  ∀ (first key : Int32) (index : Nat), keys[0]? = some first → keys[index]? = some key →
    key.toInt = first.toInt + index

/-- The keys count up from the first one in 32 bits. -/
def CountAround (keys : List Int32) : Prop :=
  ∀ (first key : Int32) (index : Nat), keys[0]? = some first → keys[index]? = some key →
    key.toInt = (first.toInt + index).bmod Int32.size

/-- As many keys as are given can count up from the first one without passing the greatest. -/
def HaveRoom (keys : List Int32) : Prop :=
  ∀ first : Int32, keys[0]? = some first → first.toInt + keys.length ≤ Int32.maxValue.toInt + 1

/-! ## From neighbours to all keys -/

theorem countAround_cons {first : Int32} {keys : List Int32} :
    CountAround (first :: keys) ↔ ∀ (key : Int32) (index : Nat),
      (first :: keys)[index]? = some key → key.toInt = (first.toInt + index).bmod Int32.size := by
  constructor
  · intro h key index hKey
    exact h first key index rfl hKey
  · intro h other key index hFirst hKey
    cases hFirst
    exact h key index hKey

/-- Counting from the key after the first one is counting from the first one, one step ahead. -/
theorem bmod_toInt_add_one (first : Int32) (index : Nat) :
    ((first + 1).toInt + index).bmod Int32.size =
      (first.toInt + (index + 1 : Nat)).bmod Int32.size := by
  have hNext : (first + 1).toInt = (first.toInt + 1).bmod Int32.size := Int32.toInt_add first 1
  rw [hNext, Int.bmod_add_bmod]
  congr 1
  push_cast
  ring

theorem countAround_cons_cons {first second : Int32} {keys : List Int32} :
    CountAround (first :: second :: keys) ↔
      second = first + 1 ∧ CountAround (second :: keys) := by
  rw [countAround_cons, countAround_cons]
  constructor
  · intro h
    have hSecond : second = first + 1 := by
      rw [← Int32.toInt_inj, h second 1 rfl, ← bmod_toInt_add_one]
      simp
    refine ⟨hSecond, fun key index hKey => ?_⟩
    rw [h key (index + 1) hKey, ← bmod_toInt_add_one, hSecond]
  · intro h key index hKey
    obtain ⟨rfl, hRest⟩ := h
    cases index with
    | zero =>
      cases hKey
      simp
    | succ index => rw [hRest key index hKey, bmod_toInt_add_one]

/-- Keys of which each comes right after the one before it count up around. -/
theorem consecutive_iff (keys : List Int32) : consecutive keys = true ↔ CountAround keys := by
  fun_induction consecutive keys with
  | case1 first second keys ih =>
    rw [Bool.and_eq_true, beq_iff_eq, ih, countAround_cons_cons]
  | case2 keys hShort =>
    refine iff_of_true rfl ?_
    match keys, hShort with
    | [], _ => simp [CountAround]
    | [first], _ => simp [countAround_cons, List.getElem?_singleton]
    | first :: second :: keys, hShort => exact absurd rfl (hShort first second keys)

instance (keys : List Int32) : Decidable (CountAround keys) :=
  decidable_of_iff _ (consecutive_iff keys)

/-! ## Where the keys come around -/

/-- If no key lies below its place after the first one, the last key has room for all of them. -/
theorem haveRoom_of_le {keys : List Int32} (h : ∀ (first key : Int32) (index : Nat),
    keys[0]? = some first → keys[index]? = some key → first.toInt + index ≤ key.toInt) :
    HaveRoom keys := by
  intro first hFirst
  obtain ⟨hPos, -⟩ := List.getElem?_eq_some_iff.mp hFirst
  obtain ⟨last, hLast⟩ : ∃ last, keys[keys.length - 1]? = some last :=
    ⟨_, List.getElem?_eq_getElem (Nat.sub_lt hPos Nat.one_pos)⟩
  have hPlace := h first last (keys.length - 1) hFirst hLast
  have hLe := Int32.toInt_le last
  omega

theorem countUp_iff {keys : List Int32} : CountUp keys ↔ CountAround keys ∧ HaveRoom keys := by
  constructor
  · intro h
    refine ⟨fun first key index hFirst hKey => ?_, haveRoom_of_le fun first key index hFirst hKey =>
      (h first key index hFirst hKey).ge⟩
    rw [← h first key index hFirst hKey, Int32.toInt_bmod_size]
  · intro h first key index hFirst hKey
    obtain ⟨hAround, hRoom⟩ := h
    obtain ⟨hIndex, -⟩ := List.getElem?_eq_some_iff.mp hKey
    have hFits := hRoom first hFirst
    have hLow := Int32.le_toInt first
    rw [hAround first key index hFirst hKey]
    rw [Int32.toInt_maxValue] at hFits
    exact Int.bmod_eq_of_le (by simp [Int32.size]; omega) (by simp [Int32.size]; omega)

/-- Increasing keys are at least as far apart as their places. -/
theorem add_le_of_pairwise_lt {keys : List Int32} (h : keys.Pairwise (· < ·)) {first : Int32}
    (hFirst : keys[0]? = some first) (index : Nat) {key : Int32} (hKey : keys[index]? = some key) :
    first.toInt + index ≤ key.toInt := by
  induction index generalizing key with
  | zero =>
    rw [hFirst] at hKey
    cases hKey
    simp
  | succ index ih =>
    obtain ⟨hIndex, rfl⟩ := List.getElem?_eq_some_iff.mp hKey
    have hBefore := ih (List.getElem?_eq_getElem (Nat.lt_of_succ_lt hIndex))
    have hStep := List.pairwise_iff_getElem.mp h index (index + 1) (Nat.lt_of_succ_lt hIndex) hIndex
      (Nat.lt_succ_self index)
    rw [Int32.lt_iff_toInt_lt] at hStep
    push_cast
    omega

/-- Keys that count up around are increasing exactly if they do not come around. -/
theorem CountAround.pairwise_lt_iff {keys : List Int32} (h : CountAround keys) :
    keys.Pairwise (· < ·) ↔ HaveRoom keys := by
  constructor
  · intro hIncreasing
    exact haveRoom_of_le fun first key index hFirst hKey =>
      add_le_of_pairwise_lt hIncreasing hFirst index hKey
  · intro hRoom
    have hUp := countUp_iff.mpr ⟨h, hRoom⟩
    rw [List.pairwise_iff_getElem]
    intro i j hi hj hLt
    have hFirst := List.getElem?_eq_getElem (Nat.zero_lt_of_lt hi)
    have hLeft := hUp _ _ i hFirst (List.getElem?_eq_getElem hi)
    have hRight := hUp _ _ j hFirst (List.getElem?_eq_getElem hj)
    rw [Int32.lt_iff_toInt_lt, hLeft, hRight]
    omega

/-- Keys that count up around repeat exactly if there are more of them than 32-bit integers. -/
theorem CountAround.nodup_iff {keys : List Int32} (h : CountAround keys) :
    keys.Nodup ↔ keys.length ≤ Int32.size := by
  constructor
  · intro hNodup
    by_contra hMore
    have hFirst := List.getElem?_eq_getElem (l := keys) (i := 0) (by omega)
    have hAgain := List.getElem?_eq_getElem (l := keys) (i := Int32.size) (by omega)
    have hSame := h _ _ Int32.size hFirst hAgain
    rw [Int.add_bmod_right, Int32.toInt_bmod_size, Int32.toInt_inj] at hSame
    have hPlace := (hNodup.getElem_inj_iff).mp hSame
    cases hPlace
  · intro hFew
    rw [List.nodup_iff_getElem?_ne_getElem?]
    intro i j hLt hj hSame
    have hFirst := List.getElem?_eq_getElem (l := keys) (i := 0) (by omega)
    have hRight := List.getElem?_eq_getElem hj
    have hLeft := h _ _ i hFirst (hSame.trans hRight)
    rw [h _ _ j hFirst hRight, Int.bmod_eq_bmod_iff_bmod_sub_eq_zero] at hLeft
    have hDvd := Int.dvd_of_bmod_eq_zero hLeft
    have hLe := Int.le_of_dvd (by omega) hDvd
    omega

/-! ## Accepted switches -/

/-- What a table switch does to an assembler. -/
theorem switch_table_apply (a : Assembler) (fallback : String) (cases : List (Int32 × String)) :
    switch .table fallback cases a =
      if cases = [] then .error (.precondition .emptyTableSwitch) a
      else if CountAround (cases.map Prod.fst) then
        .ok a.position
          { a with instructions := a.instructions.push ⟨.switch .table fallback cases, a.line⟩ }
      else .error (.precondition .scatteredTableSwitch) a := by
  unfold switch checkKeys
  simp only [List.isEmpty_iff, List.map_eq_nil_iff, consecutive_iff]
  split
  · rfl
  · split
    · rfl
    · rfl

/-- **Table switches are accepted around the greatest key.** A table switch is accepted if and only
if it has keys and these count up from the first one in 32 bits, and is then added as the next
instruction; a switch that is refused adds nothing. As integers the keys of an accepted switch count
up, and are increasing, if and only if they do not pass the greatest 32-bit integer, and no key is
given twice if and only if there are no more of them than 32-bit integers. -/
theorem tableSwitch_accepts_around (a : Assembler) (fallback : String)
    (cases : List (Int32 × String)) :
    (Ends (switch .table fallback cases) a ↔ cases ≠ [] ∧ CountAround (cases.map Prod.fst)) ∧
    (∀ order b, switch .table fallback cases a = .ok order b → order = a.position ∧
      b = { a with instructions := a.instructions.push ⟨.switch .table fallback cases, a.line⟩ }) ∧
    (∀ error b, switch .table fallback cases a = .error error b → b = a ∧
      error = .precondition (if cases = [] then .emptyTableSwitch else .scatteredTableSwitch)) ∧
    (cases ≠ [] ∧ CountUp (cases.map Prod.fst) ↔
      Ends (switch .table fallback cases) a ∧ HaveRoom (cases.map Prod.fst)) ∧
    (Ends (switch .table fallback cases) a →
      ((cases.map Prod.fst).Pairwise (· < ·) ↔ HaveRoom (cases.map Prod.fst)) ∧
      ((cases.map Prod.fst).Nodup ↔ cases.length ≤ Int32.size)) := by
  have hEnds : Ends (switch .table fallback cases) a ↔
      cases ≠ [] ∧ CountAround (cases.map Prod.fst) := by
    rw [ends_switch, ends_checkKeys, consecutive_iff, Ne, List.map_eq_nil_iff]
  refine ⟨hEnds, fun order b hOk => ?_, fun error b hError => ?_, ?_, fun hAccepted => ?_⟩
  · rw [switch_table_apply] at hOk
    split at hOk
    · cases hOk
    · split at hOk
      · cases hOk
        exact ⟨rfl, rfl⟩
      · cases hOk
  · rw [switch_table_apply] at hError
    split at hError
    · rename_i hEmpty
      cases hError
      rw [if_pos hEmpty]
      exact ⟨rfl, rfl⟩
    · rename_i hSome
      split at hError
      · cases hError
      · cases hError
        rw [if_neg hSome]
        exact ⟨rfl, rfl⟩
  · rw [hEnds, countUp_iff, and_assoc]
  · have hAround := (hEnds.mp hAccepted).2
    refine ⟨hAround.pairwise_lt_iff, ?_⟩
    rw [hAround.nodup_iff, List.length_map]

/-- Two cases at the greatest keys. -/
def lastKeys : List (Int32 × String) :=
  [(2147483646, "low"), (2147483647, "high")]

/-- A case at the greatest key, and one at the least. -/
def outerKeys : List (Int32 × String) :=
  [(2147483647, "high"), (-2147483648, "low")]

theorem tableSwitch_accepts_around_outerKeys :
    (Ends (switch .table "else" lastKeys) { method := ⟨"Pick", "run", "(I)V"⟩ } ∧
        CountUp (lastKeys.map Prod.fst) ∧ (lastKeys.map Prod.fst).Pairwise (· < ·)) ∧
      Ends (switch .table "else" outerKeys) { method := ⟨"Pick", "run", "(I)V"⟩ } ∧
        ¬ (outerKeys.map Prod.fst).Pairwise (· < ·) ∧ ¬ HaveRoom (outerKeys.map Prod.fst) ∧
        (outerKeys.map Prod.fst).Nodup := by
  obtain ⟨hLast, -, -, hUp, hLastKeys⟩ :=
    tableSwitch_accepts_around { method := ⟨"Pick", "run", "(I)V"⟩ } "else" lastKeys
  obtain ⟨hOuter, -, -, -, hOuterKeys⟩ :=
    tableSwitch_accepts_around { method := ⟨"Pick", "run", "(I)V"⟩ } "else" outerKeys
  have hAccepted := hLast.mpr ⟨by decide, by decide⟩
  have hIncreasing : (lastKeys.map Prod.fst).Pairwise (· < ·) := by decide
  have hAround := hOuter.mpr ⟨by decide, by decide⟩
  have hFalling : ¬ (outerKeys.map Prod.fst).Pairwise (· < ·) := by decide
  refine ⟨⟨hAccepted, ?_, hIncreasing⟩, hAround, hFalling, ?_, ?_⟩
  · exact (hUp.mpr ⟨hAccepted, (hLastKeys hAccepted).1.mp hIncreasing⟩).2
  · exact mt (hOuterKeys hAround).1.mpr hFalling
  · exact (hOuterKeys hAround).2.mpr (by decide)

/-- The keys of an accepted table switch need not count up. -/
theorem not_tableSwitch_counts_up_outerKeys :
    ¬ ∀ (a : Assembler) (fallback : String) (cases : List (Int32 × String)),
      Ends (switch .table fallback cases) a ↔ cases ≠ [] ∧ CountUp (cases.map Prod.fst) := by
  intro h
  have hAccepted : Ends (switch .table "else" outerKeys) { method := ⟨"Pick", "run", "(I)V"⟩ } :=
    ends_switch.mpr (ends_checkKeys.mpr ⟨by decide, by decide⟩)
  have hLow := ((h _ _ _).mp hAccepted).2 2147483647 (-2147483648) 1 rfl rfl
  exact absurd hLow (by decide)

end Assembler

end BytecodeFlow
