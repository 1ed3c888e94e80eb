import BytecodeFlow.VariableTable
import Mathlib.Tactic

/-!
# Looking up variables

A variable is found at an instruction if it is live there, and also at the instruction right before
its lifetime, which may store its first value (`covers_iff`). Where a slot is used again without a
gap, both the old variable and the new one are found at the last instruction of the old one, and the
table gives the one that it lists first. So a lookup depends on the order of the table at some
instructions, even if no two lifetimes of a slot share an instruction.

* `find?_perm_iff`: a search gives the same item in all orders of a list exactly if there are no two
  items to find.
* `lookup_order_free_iff`: the instructions at which the order of the table does not matter.
-/

namespace BytecodeFlow

namespace VariableLifetime

/-- The variable is live at an instruction. -/
def LiveAt (lifetime : VariableLifetime) (order : Int) : Prop :=
  lifetime.start ≤ order ∧ order < lifetime.stop

/-- The lifetime starts right behind an instruction. -/
def StartsAfter (lifetime : VariableLifetime) (order : Int) : Prop :=
  lifetime.start = order + 1 ∧ lifetime.start ≤ lifetime.stop

/-- The variable is in the slot, and it is live at the instruction or starts right behind it. -/
def Describes (lifetime : VariableLifetime) (slot : Nat) (order : Int) : Prop :=
  lifetime.slot = slot ∧ (lifetime.LiveAt order ∨ lifetime.StartsAfter order)

instance (lifetime : VariableLifetime) (order : Int) : Decidable (lifetime.LiveAt order) :=
  inferInstanceAs (Decidable (_ ∧ _))

instance (lifetime : VariableLifetime) (order : Int) : Decidable (lifetime.StartsAfter order) :=
  inferInstanceAs (Decidable (_ ∧ _))

instance (lifetime : VariableLifetime) (slot : Nat) (order : Int) :
    Decidable (lifetime.Describes slot order) :=
  inferInstanceAs (Decidable (_ ∧ _))

/-- No instruction is in both lifetimes. -/
def Apart (a b : VariableLifetime) : Prop :=
  ∀ order, ¬ (a.LiveAt order ∧ b.LiveAt order)

theorem Apart.symm {a b : VariableLifetime} (h : a.Apart b) : b.Apart a :=
  fun order hBoth => h order hBoth.symm

theorem covers_iff {lifetime : VariableLifetime} {slot : Nat} {order : Int} :
    lifetime.covers slot order = true ↔ lifetime.Describes slot order := by
  simp only [covers, Describes, LiveAt, StartsAfter, Bool.and_eq_true, beq_iff_eq,
    decide_eq_true_eq]
  omega

end VariableLifetime

/-- A search gives the same item in all orders of a list exactly if any two items that it can find
are the same. -/
theorem find?_perm_iff {α : Type} [DecidableEq α] {p : α → Bool} {items : List α} :
    (∀ permuted : List α, permuted.Perm items → permuted.find? p = items.find? p) ↔
      ∀ a ∈ items, ∀ b ∈ items, p a = true → p b = true → a = b := by
  constructor
  · intro h
    -- an item that can be found is found once it comes first
    have hFirst : ∀ a ∈ items, p a = true → items.find? p = some a := by
      intro a ha hp
      rw [← h (a :: items.erase a) (List.perm_cons_erase ha).symm, List.find?_cons_of_pos hp]
    intro a ha b hb hpa hpb
    exact Option.some.inj ((hFirst a ha hpa).symm.trans (hFirst b hb hpb))
  · intro h permuted hPerm
    cases hFound : items.find? p with
    | none =>
      rw [List.find?_eq_none] at hFound ⊢
      exact fun a ha => hFound a (hPerm.mem_iff.mp ha)
    | some a =>
      have hMem := List.mem_of_find?_eq_some hFound
      have hp := List.find?_some hFound
      obtain ⟨b, hb⟩ : ∃ b, permuted.find? p = some b := by
        rw [← Option.isSome_iff_exists, List.find?_isSome]
        exact ⟨a, hPerm.mem_iff.mpr hMem, hp⟩
      rw [hb, h b (hPerm.mem_iff.mp (List.mem_of_find?_eq_some hb)) a hMem (List.find?_some hb) hp]

namespace VariableTable

open VariableLifetime

variable {table : VariableTable} {slot : Nat} {order : Int}

/-- The lifetimes of a slot share no instruction. -/
def SlotsDisjoint (table : VariableTable) : Prop :=
  table.Pairwise fun a b => a.slot = b.slot → a.Apart b

/-- A slot holds at most one live variable. -/
theorem SlotsDisjoint.eq_of_liveAt (h : SlotsDisjoint table) {a b : VariableLifetime}
    (ha : a ∈ table) (hb : b ∈ table) (hSlot : a.slot = b.slot) (hLive : a.LiveAt order)
    (hLive' : b.LiveAt order) : a = b := by
  by_contra hNe
  have hSymm : Std.Symm fun a b : VariableLifetime => a.slot = b.slot → a.Apart b :=
    ⟨fun _ _ hApart hEq => (hApart hEq.symm).symm⟩
  exact h.forall ha hb hNe hSlot order ⟨hLive, hLive'⟩

theorem lookup_eq_some {a : VariableLifetime} (h : lookup table slot order = some a) :
    a ∈ table ∧ a.Describes slot order := by
  unfold lookup at h
  have hCovers := List.find?_some h
  exact ⟨List.mem_of_find?_eq_some h, covers_iff.mp hCovers⟩

theorem lookup_eq_none_iff :
    lookup table slot order = none ↔ ∀ a ∈ table, ¬ a.Describes slot order := by
  simp only [lookup, List.find?_eq_none, covers_iff]

theorem lookup_perm_iff :
    (∀ permuted : VariableTable, permuted.Perm table →
        lookup permuted slot order = lookup table slot order) ↔
      ∀ a ∈ table, ∀ b ∈ table, a.Describes slot order → b.Describes slot order → a = b := by
  simp only [← covers_iff]
  exact find?_perm_iff

/-- **Where the order of the table does not matter.** If the lifetimes of a slot share no
instruction, then a lookup finds a variable of the slot that is live at the instruction or starts
right behind it, whenever there is one. In all orders of the table it finds the same variable, which
is the live one if there is one, exactly if no variable of the slot starts right behind the
instruction while another one is live there or starts there too. -/
theorem lookup_order_free_iff (table : VariableTable) (hDisjoint : SlotsDisjoint table) (slot : Nat)
    (order : Int) :
    (∀ permuted : VariableTable, permuted.Perm table →
      (∀ a, lookup permuted slot order = some a → a ∈ table ∧ a.Describes slot order) ∧
      (lookup permuted slot order = none → ∀ a ∈ table, ¬ a.Describes slot order)) ∧
    ((∀ permuted : VariableTable, permuted.Perm table →
        lookup permuted slot order = lookup table slot order ∧
        ∀ a ∈ table, a.slot = slot → a.LiveAt order → lookup permuted slot order = some a) ↔
      ∀ a ∈ table, ∀ b ∈ table, a.slot = slot → a.StartsAfter order → b.Describes slot order →
        a = b) := by
  refine ⟨fun permuted hPerm => ⟨fun a hFound => ?_, fun hNone a ha => ?_⟩, fun h => ?_,
    fun h => ?_⟩
  · obtain ⟨hMem, hDescribes⟩ := lookup_eq_some hFound
    exact ⟨hPerm.mem_iff.mp hMem, hDescribes⟩
  · exact lookup_eq_none_iff.mp hNone a (hPerm.mem_iff.mpr ha)
  · intro a ha b hb hSlot hStarts
    exact lookup_perm_iff.mp (fun permuted hPerm => (h permuted hPerm).1) a ha b hb
      ⟨hSlot, Or.inr hStarts⟩
  · -- two variables to find are both live, or one of them starts behind the instruction
    have hUnique : ∀ a ∈ table, ∀ b ∈ table, a.Describes slot order → b.Describes slot order →
        a = b := by
      rintro a ha b hb ⟨hSlot, hLive | hStarts⟩ ⟨hSlot', hLive' | hStarts'⟩
      · exact hDisjoint.eq_of_liveAt ha hb (hSlot.trans hSlot'.symm) hLive hLive'
      · exact (h b hb a ha hSlot' hStarts' ⟨hSlot, Or.inl hLive⟩).symm
      · exact h a ha b hb hSlot hStarts ⟨hSlot', Or.inl hLive'⟩
      · exact h a ha b hb hSlot hStarts ⟨hSlot', Or.inr hStarts'⟩
    intro permuted hPerm
    refine ⟨lookup_perm_iff.mpr hUnique permuted hPerm, fun a ha hSlot hLive => ?_⟩
    cases hFound : lookup permuted slot order with
    | none =>
      exact absurd ⟨hSlot, Or.inl hLive⟩
        (lookup_eq_none_iff.mp hFound a (hPerm.mem_iff.mpr ha))
    | some b =>
      obtain ⟨hMem, hDescribes⟩ := lookup_eq_some hFound
      rw [hUnique b (hPerm.mem_iff.mp hMem) a ha hDescribes ⟨hSlot, Or.inl hLive⟩]

/-- A string in a slot that holds a number as soon as the string is gone. -/
def reusedSlot : VariableTable :=
  [⟨"count", "I", 1, 9, 12, .int⟩,
    ⟨"name", "Ljava/lang/String;", 1, 4, 9, .ofClass "java/lang/String"⟩]

theorem slotsDisjoint_reusedSlot : SlotsDisjoint reusedSlot := by
  refine List.pairwise_pair.mpr fun _ order hBoth => ?_
  obtain ⟨⟨hStart, -⟩, -, hStop⟩ := hBoth
  simp only at hStart hStop
  omega

/-- In the middle of the string's lifetime the string is found in all orders of the table, and so it
is at the instruction that stores it. At its last instruction the table decides. -/
theorem lookup_order_free_iff_reusedSlot :
    SlotsDisjoint reusedSlot ∧
      (∀ permuted : VariableTable, permuted.Perm reusedSlot →
        (lookup permuted 1 6).map VariableLifetime.name = some "name" ∧
          (lookup permuted 1 3).map VariableLifetime.name = some "name") ∧
      ¬ ∀ permuted : VariableTable, permuted.Perm reusedSlot →
        lookup permuted 1 8 = lookup reusedSlot 1 8 ∧
        ∀ a ∈ reusedSlot, a.slot = 1 → a.LiveAt 8 → lookup permuted 1 8 = some a := by
  have hDisjoint := slotsDisjoint_reusedSlot
  refine ⟨hDisjoint, fun permuted hPerm => ⟨?_, ?_⟩, fun hFree => ?_⟩
  · have hFree := (lookup_order_free_iff reusedSlot hDisjoint 1 6).2.mpr (by decide)
    rw [(hFree permuted hPerm).1]
    decide
  · have hFree := (lookup_order_free_iff reusedSlot hDisjoint 1 3).2.mpr (by decide)
    rw [(hFree permuted hPerm).1]
    decide
  · exact absurd ((lookup_order_free_iff reusedSlot hDisjoint 1 8).2.mp hFree) (by decide)

/-- At the last instruction of the string the number is found, which is not live there, and with the
string first in the table the string is found. -/
theorem not_lookup_order_free_reusedSlot :
    (¬ ∀ (table permuted : VariableTable) (slot : Nat) (order : Int), SlotsDisjoint table →
        permuted.Perm table → lookup permuted slot order = lookup table slot order) ∧
      ¬ ∀ (table : VariableTable) (slot : Nat) (order : Int), SlotsDisjoint table →
        (∃ a ∈ table, a.slot = slot ∧ a.LiveAt order) →
          ∃ a, lookup table slot order = some a ∧ a.LiveAt order := by
  constructor
  · intro h
    exact absurd (h reusedSlot reusedSlot.reverse 1 8 slotsDisjoint_reusedSlot
      (List.reverse_perm reusedSlot)) (by decide)
  · intro h
    obtain ⟨a, hFound, hLive⟩ := h reusedSlot 1 8 slotsDisjoint_reusedSlot (by decide)
    have hNumber : lookup reusedSlot 1 8 = some ⟨"count", "I", 1, 9, 12, .int⟩ := by decide
    obtain rfl := Option.some.inj (hNumber.symm.trans hFound)
    exact absurd hLive (by decide)

end VariableTable

end BytecodeFlow
