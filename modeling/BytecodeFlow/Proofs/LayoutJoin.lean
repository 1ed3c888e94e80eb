import BytecodeFlow.Proofs.LeastFrames

/-!
# The join of layouts

The join of two layouts is their least upper bound, and it fails only if they have no upper bound at
all (`merge_eq_ok_iff_isLeast`). Layouts that are below each other are equal, so this determines the
join, and its laws follow without another look at how the values are lined up: the order of the
sides does not matter, and on exact layouts neither does the grouping of three of them
(`merge_merge_eq_ok_iff`).

Exactness is needed for the last law. One unknown word is below two of them, and two are below a
`long`, but the single word alone has no join with the `long`.
-/

namespace BytecodeFlow

namespace FrameLayout

variable {a b c d : FrameLayout}

theorem Below.antisymm (hab : a.Below b) (hba : b.Below a) : a = b := by
  obtain ⟨values, isExact⟩ := a
  obtain ⟨values', isExact'⟩ := b
  obtain rfl : values = values' := hab.values.antisymm hba.values
  have hExact : isExact = true ↔ isExact' = true :=
    ⟨fun h => (hab.exact h).1, fun h => (hba.exact h).1⟩
  rw [Bool.eq_iff_iff.mpr hExact]

/-- An exact layout is as high as what lies above it, so nothing can end within a value. -/
theorem Below.trans_of_exact (hab : a.Below b) (hbc : b.Below c) (hExact : a.isExact = true) :
    a.Below c :=
  (hab.beneath.trans hbc.beneath).below_of_exact hExact

/-- The join is the least upper bound, and exists if there is any. -/
theorem merge_eq_ok_iff_isLeast :
    a.merge b = .ok d ↔
      a.Below d ∧ b.Below d ∧ ∀ upper, a.Below upper → b.Below upper → d.Below upper := by
  constructor
  · intro h
    obtain ⟨ha, hb, -⟩ := merge_below h
    refine ⟨ha, hb, ?_⟩
    intro upper ha' hb'
    obtain ⟨join, hJoin, hLeast⟩ := ha'.exists_merge hb'
    obtain rfl := Except.ok.inj (h.symm.trans hJoin)
    exact hLeast
  · intro h
    obtain ⟨ha, hb, hLeast⟩ := h
    obtain ⟨join, hJoin, hBelow⟩ := ha.exists_merge hb
    obtain ⟨ha', hb', -⟩ := merge_below hJoin
    rw [hJoin, hBelow.antisymm (hLeast join ha' hb')]

theorem merge_comm_eq_ok : a.merge b = .ok d ↔ b.merge a = .ok d := by
  rw [merge_eq_ok_iff_isLeast, merge_eq_ok_iff_isLeast]
  constructor
  · rintro ⟨ha, hb, hLeast⟩
    exact ⟨hb, ha, fun upper hb' ha' => hLeast upper ha' hb'⟩
  · rintro ⟨hb, ha, hLeast⟩
    exact ⟨ha, hb, fun upper ha' hb' => hLeast upper hb' ha'⟩

theorem isExact_of_merge (h : a.merge b = .ok d) :
    d.isExact = true ↔ a.isExact = true ∨ b.isExact = true := by
  rw [(merge_eq_ok.mp h).2.2.2, Bool.or_eq_true]

theorem words_of_merge (h : a.merge b = .ok d) : d.words = max a.words b.words :=
  (TypeStack.merge?_below (merge_eq_ok.mp h).2.2.1).2.2.1

/-- Joining exact layouts one after the other ends in the least upper bound of all of them. -/
theorem merge_merge_eq_ok_iff (ha : a.isExact = true) (hb : b.isExact = true) :
    (∃ ab, a.merge b = .ok ab ∧ ab.merge c = .ok d) ↔
      a.Below d ∧ b.Below d ∧ c.Below d ∧
        ∀ upper, a.Below upper → b.Below upper → c.Below upper → d.Below upper := by
  constructor
  · intro h
    obtain ⟨ab, hFirst, hSecond⟩ := h
    obtain ⟨haJoin, hbJoin, hLeast⟩ := merge_eq_ok_iff_isLeast.mp hFirst
    obtain ⟨habJoin, hcJoin, hLeast'⟩ := merge_eq_ok_iff_isLeast.mp hSecond
    refine ⟨haJoin.trans_of_exact habJoin ha, hbJoin.trans_of_exact habJoin hb, hcJoin, ?_⟩
    intro upper ha' hb' hc'
    exact hLeast' upper (hLeast upper ha' hb') hc'
  · intro h
    obtain ⟨haJoin, hbJoin, hcJoin, hLeast⟩ := h
    obtain ⟨ab, hFirst, hab⟩ := haJoin.exists_merge hbJoin
    obtain ⟨join, hSecond, hJoin⟩ := hab.exists_merge hcJoin
    obtain ⟨haBelow, hbBelow, -⟩ := merge_below hFirst
    obtain ⟨habBelow, hcBelow, -⟩ := merge_below hSecond
    have hBack := hLeast join (haBelow.trans_of_exact habBelow ha)
      (hbBelow.trans_of_exact habBelow hb) hcBelow
    exact ⟨ab, hFirst, by rw [hSecond, hJoin.antisymm hBack]⟩

theorem merge_assoc_of_exact (ha : a.isExact = true) (hb : b.isExact = true)
    (hc : c.isExact = true) :
    (∃ ab, a.merge b = .ok ab ∧ ab.merge c = .ok d) ↔
      ∃ bc, b.merge c = .ok bc ∧ a.merge bc = .ok d := by
  have hTurned : (∃ bc, b.merge c = .ok bc ∧ a.merge bc = .ok d) ↔
      ∃ bc, b.merge c = .ok bc ∧ bc.merge a = .ok d :=
    exists_congr fun _ => and_congr_right fun _ => merge_comm_eq_ok
  rw [hTurned, merge_merge_eq_ok_iff ha hb, merge_merge_eq_ok_iff hb hc]
  constructor
  · rintro ⟨haJoin, hbJoin, hcJoin, hLeast⟩
    exact ⟨hbJoin, hcJoin, haJoin, fun upper hb' hc' ha' => hLeast upper ha' hb' hc'⟩
  · rintro ⟨hbJoin, hcJoin, haJoin, hLeast⟩
    exact ⟨haJoin, hbJoin, hcJoin, fun upper ha' hb' hc' => hLeast upper hb' hc' ha'⟩

/-- Without exactness one grouping may fail where the other does not. -/
example :
    ((atLeast [.any]).merge (atLeast [.any, .any]) >>= (·.merge (atLeast [.long]))).isOk = true ∧
      ((atLeast [.any, .any]).merge (atLeast [.long]) >>= (atLeast [.any]).merge).isOk = false := by
  decide +kernel

/-- Joining layouts gives their least upper bound, in the order in which a layout is below another
if joining them changes nothing. It fails only where there is no upper bound. The order of the sides
does not matter, and for exact layouts neither does the grouping. No layout needs to be free of
values without a word. -/
theorem merge_is_least_upper_bound (a b : FrameLayout) :
    a ≤ a ∧
    (∀ c, a.merge b = .ok c ↔ b.merge a = .ok c) ∧
    (∀ c, a.merge b = .ok c →
      a ≤ c ∧ b ≤ c ∧ (c.isExact = true ↔ a.isExact = true ∨ b.isExact = true) ∧
        c.words = max a.words b.words) ∧
    (∀ d, a ≤ d → b ≤ d → ∃ c, a.merge b = .ok c ∧ c ≤ d) ∧
    (∀ c d, a.isExact = true → b.isExact = true → c.isExact = true →
      ((∃ ab, a.merge b = .ok ab ∧ ab.merge c = .ok d) ↔
        ∃ bc, b.merge c = .ok bc ∧ a.merge bc = .ok d)) := by
  simp only [le_iff_below]
  refine ⟨.refl a, fun c => merge_comm_eq_ok, ?_, ?_, ?_⟩
  · intro c h
    obtain ⟨ha, hb, -⟩ := merge_below h
    exact ⟨ha, hb, isExact_of_merge h, words_of_merge h⟩
  · intro d ha hb
    exact ha.exists_merge hb
  · intro c d ha hb hc
    exact merge_assoc_of_exact ha hb hc

/-- A `long` meets two unknown words, once on top of a layout of unknown depth and once between
exact layouts. -/
theorem merge_is_least_upper_bound_wide :
    ((exactly [.any, .any, .reference none]).merge (atLeast [.long]) =
        .ok (exactly [.long, .reference none]) ∧
      atLeast [.long] ≤ exactly [.long, .reference none]) ∧
    (∃ c, (exactly [.any, .any, .reference none]).merge (atLeast [.long]) = .ok c ∧
      c ≤ exactly [.long, .returnAddress]) ∧
    ∃ bc, (exactly [.long, .reference none]).merge (exactly [.any, .any, .returnAddress]) =
        .ok bc ∧
      (exactly [.any, .any, .reference none]).merge bc = .ok (exactly [.long, .returnAddress]) := by
  have hJoin : (exactly [.any, .any, .reference none]).merge (atLeast [.long]) =
      .ok (exactly [.long, .reference none]) := by decide +kernel
  have hUpper : exactly [.any, .any, .reference none] ≤ exactly [.long, .returnAddress] := by
    show FrameLayout.merge _ _ = _
    decide +kernel
  have hUpper' : atLeast [.long] ≤ exactly [.long, .returnAddress] := by
    show FrameLayout.merge _ _ = _
    decide +kernel
  have hFirst : (exactly [.any, .any, .reference none]).merge (exactly [.long, .reference none]) =
      .ok (exactly [.long, .reference none]) := by decide +kernel
  have hSecond : (exactly [.long, .reference none]).merge (exactly [.any, .any, .returnAddress]) =
      .ok (exactly [.long, .returnAddress]) := by decide +kernel
  obtain ⟨-, -, hBounds, hLeast, -⟩ := merge_is_least_upper_bound
    (exactly [.any, .any, .reference none]) (atLeast [.long])
  obtain ⟨-, -, -, -, hAssoc⟩ := merge_is_least_upper_bound
    (exactly [.any, .any, .reference none]) (exactly [.long, .reference none])
  exact ⟨⟨hJoin, (hBounds _ hJoin).2.1⟩, hLeast _ hUpper hUpper',
    (hAssoc _ _ rfl rfl rfl).mp ⟨_, hFirst, hSecond⟩⟩

end FrameLayout

end BytecodeFlow
