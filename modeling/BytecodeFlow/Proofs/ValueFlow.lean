import BytecodeFlow.Proofs.FrameCompleteness
import BytecodeFlow.Proofs.ValueOrigins

/-!
# What meets in one value of a frame

A slot is a position on the stack before an instruction. The edges of the flow graph carry values
from slot to slot (`FlowGraph.Carries`), and slots that are joined by such moves, in whatever
direction, are linked. A type meets a slot if in some linked slot a value is produced with this
type or consumed as one of this type (`FlowGraph.Meets`). All types that the paths to an instruction
leave in a slot meet it (`FrameSolution.meets_of_leaves`), but so do types from paths that only join
them later.

The frames have in every slot the least type above all those that meet it (`exists_isLeast_meets`).
It is above them, since linked slots have the same value in every solution of the flow equations. It
is the least, since any other upper bound may replace the value in all the linked slots
(`FrameSolution.frameSolution_replace`).
-/

namespace BytecodeFlow

/-- A position on the stack before an instruction, counted from the top. -/
structure Slot where
  node : Nat
  depth : Nat

namespace FlowGraph

/-- An edge moves the value in one slot to the other. -/
def Carries (flow : FlowGraph) (locals : VariableTable) (source target : Slot) : Prop :=
  flow.IsLive source.node ∧ flow.IsLive target.node ∧ flow.graph.Adj source.node target.node ∧
    ∃ stack effect, flow.Leaves locals source.node stack ∧
      flow.effectBetween locals source.node target.node = .ok effect ∧
      (effect.origins stack)[target.depth]? = some (some source.depth)

/-- Two slots are joined by moves of values. -/
def Linked (flow : FlowGraph) (locals : VariableTable) : Slot → Slot → Prop :=
  Relation.EqvGen (flow.Carries locals)

/-- An instruction produces the value in a slot with a type, or consumes it as one of that type. -/
inductive UsedAs (flow : FlowGraph) (locals : VariableTable) : Slot → StackType → Prop
  | produced {node target depth : Nat} {effect : StackEffect} {t : StackType}
      (hLive : flow.IsLive node) (hTarget : flow.IsLive target)
      (hAdj : flow.graph.Adj node target)
      (hEffect : flow.effectBetween locals node target = .ok effect)
      (hType : effect.produced[depth]? = some t) : UsedAs flow locals ⟨target, depth⟩ t
  | consumed {node target depth : Nat} {effect : StackEffect} {t : StackType}
      (hLive : flow.IsLive node) (hAdj : flow.graph.Adj node target)
      (hEffect : flow.effectBetween locals node target = .ok effect)
      (hType : effect.consumed[depth]? = some t) : UsedAs flow locals ⟨node, depth⟩ t

/-- The value in a linked slot is used as one of the type. -/
def Meets (flow : FlowGraph) (locals : VariableTable) (slot : Slot) (t : StackType) : Prop :=
  ∃ origin, flow.Linked locals origin slot ∧ flow.UsedAs locals origin t

variable {flow : FlowGraph} {locals : VariableTable} {family : Nat → FrameLayout}
  {node target : Nat} {slot : Slot} {stack : TypeStack} {effect : StackEffect}
  {t v w : StackType}

theorem Meets.of_linked {origin : Slot} (h : flow.Meets locals origin t)
    (hLinked : flow.Linked locals origin slot) : flow.Meets locals slot t := by
  obtain ⟨first, hFirst, hUsed⟩ := h
  exact ⟨first, .trans _ _ _ hFirst hLinked, hUsed⟩

theorem UsedAs.meets (h : flow.UsedAs locals slot t) : flow.Meets locals slot t :=
  ⟨slot, .refl slot, h⟩

namespace FrameSolution

/-- The value of a solution in a slot. -/
abbrev valueAt (family : Nat → FrameLayout) (slot : Slot) : Option StackType :=
  (family slot.node).values[slot.depth]?

/-! ## Solutions of the flow equations -/

theorem fits_of_leaves (h : flow.FrameSolution locals family) (hShape : flow.WellShaped)
    (hLive : flow.IsLive node) (hStack : flow.Leaves locals node stack) :
    TypeStack.Known stack ∧ TypeStack.Fits stack (family node).values := by
  obtain ⟨nodes, hPath, hStack⟩ := hStack
  obtain ⟨_, hSame, hKnown, hFits⟩ := h.simulate_fits hShape hPath
  obtain rfl := Except.ok.inj (hStack.symm.trans hSame)
  exact ⟨hKnown, hFits hLive.2⟩

theorem exists_leaves (h : flow.FrameSolution locals family) (hShape : flow.WellShaped)
    (hLive : flow.IsLive node) : ∃ stack, flow.Leaves locals node stack := by
  obtain ⟨nodes, hPath⟩ := hLive.1
  obtain ⟨stack, hStack, -⟩ := h.simulate_fits hShape hPath
  exact ⟨stack, nodes, hPath, hStack⟩

theorem known (h : flow.FrameSolution locals family) (hShape : flow.WellShaped)
    (hLive : flow.IsLive node) : TypeStack.Known (family node).values := by
  obtain ⟨stack, hStack⟩ := h.exists_leaves hShape hLive
  obtain ⟨hKnown, hFits⟩ := h.fits_of_leaves hShape hLive hStack
  exact hKnown.of_fits hFits

theorem origins_eq (h : flow.FrameSolution locals family) (hShape : flow.WellShaped)
    (hLive : flow.IsLive node) (hStack : flow.Leaves locals node stack) (effect : StackEffect) :
    effect.origins stack = effect.origins (family node).values :=
  TypeStack.origins_congr effect (h.fits_of_leaves hShape hLive hStack).2.map_words

theorem eq_exactly (h : flow.FrameSolution locals family) (hLive : flow.IsLive node) :
    family node = .exactly (family node).values := by
  have hExact := h.exact hLive
  cases hLayout : family node with
  | mk values isExact =>
    rw [hLayout] at hExact
    cases hExact
    rfl

/-- The effect of an edge can be executed on the stack at its start, which covers what is popped. -/
theorem executes (h : flow.FrameSolution locals family) (hLive : flow.IsLive node)
    (hAdj : flow.graph.Adj node target)
    (hEffect : flow.effectBetween locals node target = .ok effect) :
    (∃ left, TypeStack.apply (family node).values effect = .ok left) ∧
      TypeStack.Below effect.consumed (family node).values := by
  obtain ⟨_, output, hEffect', hNeeded, hOutput, -⟩ := h.edge hLive hAdj
  obtain rfl := Except.ok.inj (hEffect.symm.trans hEffect')
  obtain ⟨_, hBase, hValues, -⟩ := FrameLayout.apply_eq_ok hOutput
  rw [FrameLayout.extend_of_exact (h.exact hLive)] at hBase
  cases hBase
  refine ⟨⟨_, hValues⟩, ?_⟩
  have hBelow := (FrameLayout.le_iff_below.mp hNeeded).values
  cases effect with
  | uniform pops value => exact hBelow
  | shuffle kind => exact .nil _
  | clear value => exact .nil _

/-- The stack at the end of an edge covers what is pushed, and holds the values that are moved. -/
theorem moves (h : flow.FrameSolution locals family) (hShape : flow.WellShaped)
    (hLive : flow.IsLive node) (hTarget : flow.IsLive target) (hAdj : flow.graph.Adj node target)
    (hEffect : flow.effectBetween locals node target = .ok effect) :
    TypeStack.Below effect.produced (family target).values ∧
      TypeStack.Moves effect (family node).values (family target).values := by
  obtain ⟨_, output, hEffect', hNeeded, hOutput, hEnd⟩ := h.edge hLive hAdj
  obtain rfl := Except.ok.inj (hEffect.symm.trans hEffect')
  obtain ⟨hLeft, before, hBefore, hAsked⟩ := hEnd hTarget
  have hSolved : FrameLayout.Solved effect (family node) (family target) :=
    ⟨h.exact hLive, h.exact hTarget, h.voidFree hLive, h.voidFree hTarget,
      FrameLayout.le_iff_below.mp hNeeded, ⟨output, hOutput, FrameLayout.le_iff_below.mp hLeft⟩,
      ⟨before, hBefore, FrameLayout.le_iff_below.mp hAsked⟩⟩
  rw [h.eq_exactly hLive, h.eq_exactly hTarget, FrameLayout.solved_iff
    (TypeStack.Ordinary.known (effectBetween_consumed hEffect)) (known_produced hEffect)
    (h.known hShape hLive) (h.known hShape hTarget)] at hSolved
  exact hSolved.2.2

/-- Stacks of known types solve the flow equations if every effect can be executed, if they cover
what is popped and pushed, and if they hold the values that are moved. -/
theorem of_values {stackAt : Nat → TypeStack} (hEntry : stackAt flow.entry = [])
    (hKnown : ∀ {node : Nat}, flow.IsLive node → TypeStack.Known (stackAt node))
    (hEdge : ∀ {node target : Nat}, flow.IsLive node → flow.graph.Adj node target →
      ∃ effect left, flow.effectBetween locals node target = .ok effect ∧
        TypeStack.apply (stackAt node) effect = .ok left ∧
        TypeStack.Below effect.consumed (stackAt node) ∧ (flow.IsLive target →
          TypeStack.Below effect.produced (stackAt target) ∧
            TypeStack.Moves effect (stackAt node) (stackAt target))) :
    flow.FrameSolution locals fun node => .exactly (stackAt node) := by
  refine frameSolution_of_stacks hEntry (fun hLive => (hKnown hLive).voidFree)
    fun {node target} hLive hAdj => ?_
  obtain ⟨effect, left, hEffect, hApply, hPopped, hTarget⟩ := hEdge hLive hAdj
  refine ⟨effect, left, hEffect,
    TypeStack.needed_below_of_consumed (hKnown hLive).voidFree hPopped hApply, hApply,
    fun hLiveTarget => ?_⟩
  obtain ⟨hPushed, hMoves⟩ := hTarget hLiveTarget
  exact (FrameLayout.solved_iff (TypeStack.Ordinary.known (effectBetween_consumed hEffect))
    (known_produced hEffect) (hKnown hLive) (hKnown hLiveTarget)).mpr
      ⟨⟨left, hApply⟩, hPopped, hPushed, hMoves⟩

/-! ## Solutions are above all that meets -/

theorem valueAt_of_carries {source : Slot} (h : flow.FrameSolution locals family)
    (hShape : flow.WellShaped) (hCarries : flow.Carries locals source slot) :
    valueAt family source = valueAt family slot := by
  obtain ⟨hLive, hTarget, hAdj, stack, effect, hStack, hEffect, hOrigin⟩ := hCarries
  rw [h.origins_eq hShape hLive hStack] at hOrigin
  exact ((h.moves hShape hLive hTarget hAdj hEffect).2.carried hOrigin).symm

/-- Linked slots have the same value. -/
theorem valueAt_of_linked {source : Slot} (h : flow.FrameSolution locals family)
    (hShape : flow.WellShaped) (hLinked : flow.Linked locals source slot) :
    valueAt family source = valueAt family slot := by
  induction hLinked with
  | rel _ _ hCarries => exact h.valueAt_of_carries hShape hCarries
  | refl _ => rfl
  | symm _ _ _ ih => exact ih.symm
  | trans _ _ _ _ _ ih ih' => exact ih.trans ih'

theorem below_of_usedAs (h : flow.FrameSolution locals family) (hShape : flow.WellShaped)
    (hUsed : flow.UsedAs locals slot t) : ∃ v, valueAt family slot = some v ∧ t.Below v := by
  cases hUsed with
  | produced hLive hTarget hAdj hEffect hType =>
    exact (TypeStack.below_iff_getElem? (known_produced hEffect)).mp
      (h.moves hShape hLive hTarget hAdj hEffect).1 _ _ hType
  | consumed hLive hAdj hEffect hType =>
    exact (TypeStack.below_iff_getElem?
      (TypeStack.Ordinary.known (effectBetween_consumed hEffect))).mp
      (h.executes hLive hAdj hEffect).2 _ _ hType

theorem below_of_meets (h : flow.FrameSolution locals family) (hShape : flow.WellShaped)
    (hMeets : flow.Meets locals slot t) : ∃ v, valueAt family slot = some v ∧ t.Below v := by
  obtain ⟨origin, hLinked, hUsed⟩ := hMeets
  rw [← h.valueAt_of_linked hShape hLinked]
  exact h.below_of_usedAs hShape hUsed

/-! ## What paths leave meets -/

/-- Each value that a path leaves was produced somewhere and moved along the path since. -/
theorem meets_of_leaves (h : flow.FrameSolution locals family) (hShape : flow.WellShaped)
    (hLive : flow.IsLive node) (hStack : flow.Leaves locals node stack) {depth : Nat}
    (hType : stack[depth]? = some t) : flow.Meets locals ⟨node, depth⟩ t := by
  obtain ⟨nodes, hPath, hStack⟩ := hStack
  induction hPath using Digraph.Path.snoc_induction generalizing stack depth with
  | single _ =>
    cases hStack
    cases hType
  | @snoc middle target nodes hPath hAdj ih =>
    rw [hPath.zip_tail_snoc] at hStack
    obtain ⟨before, effect, hBefore, hEffect, hApply⟩ := simulate_snoc.mp hStack
    have hMiddle : flow.IsLive middle :=
      ⟨⟨nodes, hPath⟩, Nat.ne_of_lt (hShape.source_lt hAdj)⟩
    have hLeaves : flow.Leaves locals middle before := ⟨nodes, hPath, hBefore⟩
    have hKnown := (h.fits_of_leaves hShape hMiddle hLeaves).1
    obtain ⟨hMoves, hTop⟩ :=
      TypeStack.apply_moves (known_produced hEffect) hKnown.voidFree hApply
    have hDepth : depth < (effect.origins before).length :=
      hMoves.length_eq ▸ (List.getElem?_eq_some_iff.mp hType).1
    cases hOrigin : (effect.origins before)[depth] with
    | some i =>
      have hCarried : (effect.origins before)[depth]? = some (some i) := by
        rw [List.getElem?_eq_getElem hDepth, hOrigin]
      have hMeets := ih hMiddle ((hMoves.carried hCarried).symm.trans hType) hBefore
      exact hMeets.of_linked
        (.rel _ _ ⟨hMiddle, hLive, hAdj, before, effect, hLeaves, hEffect, hCarried⟩)
    | none =>
      have hNew : depth < effect.produced.length :=
        TypeStack.lt_of_origin_none (s := before) (by rw [List.getElem?_eq_getElem hDepth, hOrigin])
      have hProduced := List.getElem?_eq_getElem hNew
      obtain rfl := Option.some.inj ((hTop depth _ hProduced).symm.trans hType)
      exact (UsedAs.produced hMiddle hLive hAdj hEffect hProduced).meets

/-- Some known type meets every slot that holds a value. -/
theorem exists_meets (h : flow.FrameSolution locals family) (hShape : flow.WellShaped)
    (hLive : flow.IsLive slot.node) (hv : valueAt family slot = some v) :
    ∃ t, t ≠ .any ∧ t ≠ .void ∧ flow.Meets locals slot t ∧ t.Below v := by
  obtain ⟨stack, hStack⟩ := h.exists_leaves hShape hLive
  obtain ⟨hKnown, hFits⟩ := h.fits_of_leaves hShape hLive hStack
  obtain ⟨hDepth, rfl⟩ := List.getElem?_eq_some_iff.mp hv
  have hDepth' : slot.depth < stack.length := hFits.length_eq ▸ hDepth
  have hType := List.getElem?_eq_getElem hDepth'
  obtain ⟨hAny, hVoid⟩ := hKnown _ (List.getElem_mem hDepth')
  exact ⟨_, hAny, hVoid, h.meets_of_leaves hShape hLive hStack hType, hFits.get hDepth' hDepth⟩

/-! ## Another type in linked slots -/

open Classical in
/-- The family with another type in all slots that are linked with the given one. -/
noncomputable def replace (flow : FlowGraph) (locals : VariableTable) (family : Nat → FrameLayout)
    (slot : Slot) (w : StackType) (node : Nat) : FrameLayout :=
  .exactly ((family node).values.mapIdx fun depth v =>
    if flow.Linked locals ⟨node, depth⟩ slot then w else v)

theorem valueAt_replace_of_linked {x : Slot} (hLinked : flow.Linked locals x slot)
    (hv : valueAt family x = some v) :
    valueAt (replace flow locals family slot w) x = some w := by
  have hv : (family x.node).values[x.depth]? = some v := hv
  simp [valueAt, replace, FrameLayout.exactly, hv, hLinked]

theorem valueAt_replace_of_not_linked {x : Slot} (hLinked : ¬ flow.Linked locals x slot) :
    valueAt (replace flow locals family slot w) x = valueAt family x := by
  simp [valueAt, replace, FrameLayout.exactly, hLinked]

/-- A type above all that meets a slot. -/
def Bounds (flow : FlowGraph) (locals : VariableTable) (slot : Slot) (w : StackType) : Prop :=
  ∀ t, flow.Meets locals slot t → t.Below w

/-- What uses a value is below its replacement. -/
theorem below_replace (h : flow.FrameSolution locals family) (hShape : flow.WellShaped)
    (hBounds : Bounds flow locals slot w) {x : Slot} (hUsed : flow.UsedAs locals x t) :
    ∃ u, valueAt (replace flow locals family slot w) x = some u ∧ t.Below u := by
  obtain ⟨v, hv, hBelow⟩ := h.below_of_usedAs hShape hUsed
  by_cases hLinked : flow.Linked locals x slot
  · exact ⟨w, valueAt_replace_of_linked hLinked hv, hBounds t ⟨x, hLinked, hUsed⟩⟩
  · exact ⟨v, (valueAt_replace_of_not_linked hLinked).trans hv, hBelow⟩

theorem length_replace (node : Nat) :
    (replace flow locals family slot w node).values.length = (family node).values.length := by
  simp [replace, FrameLayout.exactly]

/-- A replacement is known and as wide as the value: a type that meets the slot is below both. -/
theorem exists_valueAt_replace (h : flow.FrameSolution locals family) (hShape : flow.WellShaped)
    (hBounds : Bounds flow locals slot w) {x : Slot} (hLive : flow.IsLive x.node)
    (hv : valueAt family x = some v) :
    ∃ u, valueAt (replace flow locals family slot w) x = some u ∧ u.words = v.words ∧
      u ≠ .any ∧ u ≠ .void := by
  by_cases hLinked : flow.Linked locals x slot
  · obtain ⟨t, hAny, hVoid, hMeets, hBelow⟩ := h.exists_meets hShape hLive hv
    have hAbove : t.Below w := hBounds t (hMeets.of_linked hLinked)
    refine ⟨w, valueAt_replace_of_linked hLinked hv, hAbove.words_eq.symm.trans hBelow.words_eq,
      ?_, ?_⟩
    · rintro rfl
      exact hAny hAbove.eq_any
    · rintro rfl
      exact hVoid hAbove.eq_void
  · exact ⟨v, (valueAt_replace_of_not_linked hLinked).trans hv, rfl,
      h.known hShape hLive v (List.mem_of_getElem? hv)⟩

theorem map_words_replace (h : flow.FrameSolution locals family) (hShape : flow.WellShaped)
    (hBounds : Bounds flow locals slot w) (hLive : flow.IsLive node) :
    (family node).values.map StackType.words =
      (replace flow locals family slot w node).values.map StackType.words := by
  refine List.ext_getElem (by simp [length_replace]) fun depth hDepth hDepth' => ?_
  rw [List.length_map] at hDepth hDepth'
  rw [List.getElem_map, List.getElem_map]
  have hv : valueAt family ⟨node, depth⟩ = some (family node).values[depth] :=
    List.getElem?_eq_getElem hDepth
  obtain ⟨u, hu, hWords, -⟩ := h.exists_valueAt_replace hShape hBounds hLive hv
  rw [(List.getElem?_eq_some_iff.mp hu).2, hWords]

theorem known_replace (h : flow.FrameSolution locals family) (hShape : flow.WellShaped)
    (hBounds : Bounds flow locals slot w) (hLive : flow.IsLive node) :
    TypeStack.Known (replace flow locals family slot w node).values := by
  intro u hu
  obtain ⟨depth, hDepth⟩ := List.mem_iff_getElem?.mp hu
  have hBound := (List.getElem?_eq_some_iff.mp hDepth).1
  rw [length_replace] at hBound
  have hv : valueAt family ⟨node, depth⟩ = some (family node).values[depth] :=
    List.getElem?_eq_getElem hBound
  obtain ⟨_, hu', -, hKnown⟩ := h.exists_valueAt_replace hShape hBounds hLive hv
  obtain rfl := Option.some.inj (hDepth.symm.trans hu')
  exact hKnown

/-- An edge moves the replacements as it moves the values. -/
theorem moves_replace (h : flow.FrameSolution locals family) (hShape : flow.WellShaped)
    (hBounds : Bounds flow locals slot w) (hLive : flow.IsLive node)
    (hTarget : flow.IsLive target) (hAdj : flow.graph.Adj node target)
    (hEffect : flow.effectBetween locals node target = .ok effect) :
    TypeStack.Moves effect (replace flow locals family slot w node).values
      (replace flow locals family slot w target).values := by
  obtain ⟨-, hMoves⟩ := h.moves hShape hLive hTarget hAdj hEffect
  have hOrigins := TypeStack.origins_congr effect (h.map_words_replace hShape hBounds hLive)
  refine ⟨?_, fun {i j} hOrigin => ?_⟩
  · rw [length_replace, ← hOrigins, hMoves.length_eq]
  · rw [← hOrigins] at hOrigin
    have hSame := hMoves.carried hOrigin
    obtain ⟨stack, hStack⟩ := h.exists_leaves hShape hLive
    have hCarries : flow.Carries locals ⟨node, i⟩ ⟨target, j⟩ := by
      refine ⟨hLive, hTarget, hAdj, stack, effect, hStack, hEffect, ?_⟩
      rw [h.origins_eq hShape hLive hStack]
      exact hOrigin
    have hMove : flow.Linked locals ⟨node, i⟩ ⟨target, j⟩ := .rel _ _ hCarries
    by_cases hLinked : flow.Linked locals ⟨node, i⟩ slot
    · have hLinked' : flow.Linked locals ⟨target, j⟩ slot :=
        .trans _ _ _ (.symm _ _ hMove) hLinked
      have hDepth : j < (family target).values.length :=
        hMoves.length_eq ▸ (List.getElem?_eq_some_iff.mp hOrigin).1
      have hv := List.getElem?_eq_getElem hDepth
      exact (valueAt_replace_of_linked hLinked' hv).trans
        (valueAt_replace_of_linked hLinked (hSame.symm.trans hv)).symm
    · have hLinked' : ¬ flow.Linked locals ⟨target, j⟩ slot :=
        fun hLinked' => hLinked (.trans _ _ _ hMove hLinked')
      exact (valueAt_replace_of_not_linked hLinked').trans
        (hSame.trans (valueAt_replace_of_not_linked hLinked).symm)

/-- Any type above all that meets a slot may stand in the linked slots. -/
theorem frameSolution_replace (h : flow.FrameSolution locals family) (hShape : flow.WellShaped)
    (hBounds : Bounds flow locals slot w) :
    flow.FrameSolution locals (replace flow locals family slot w) := by
  have hKnown := fun {node : Nat} (hLive : flow.IsLive node) =>
    h.known_replace hShape hBounds hLive
  change flow.FrameSolution locals fun node =>
    .exactly (replace flow locals family slot w node).values
  refine .of_values ?_ hKnown fun {node target} hLive hAdj => ?_
  · simp only [replace, h.entry]
    rfl
  · obtain ⟨effect, -, hEffect, -⟩ := h.edge hLive hAdj
    have hConsumed : TypeStack.Known effect.consumed :=
      TypeStack.Ordinary.known (effectBetween_consumed hEffect)
    have hPopped : TypeStack.Below effect.consumed
        (replace flow locals family slot w node).values :=
      (TypeStack.below_iff_getElem? hConsumed).mpr fun _ _ hType =>
        h.below_replace hShape hBounds (.consumed hLive hAdj hEffect hType)
    obtain ⟨_, hApply⟩ := (h.executes hLive hAdj hEffect).1
    obtain ⟨left, hLeft⟩ := TypeStack.apply_congr (h.map_words_replace hShape hBounds hLive)
      (hKnown hLive).voidFree hConsumed hPopped hApply
    refine ⟨effect, left, hEffect, hLeft, hPopped, fun hTarget => ⟨?_,
      h.moves_replace hShape hBounds hLive hTarget hAdj hEffect⟩⟩
    exact (TypeStack.below_iff_getElem? (known_produced hEffect)).mpr fun _ _ hType =>
      h.below_replace hShape hBounds (.produced hLive hTarget hAdj hEffect hType)

end FrameSolution

/-- **The frames have in every slot the least type above all that meets it.** -/
theorem exists_isLeast_meets (hShape : flow.WellShaped) {frames : StackFrames}
    (hFrames : flow.stackFrames locals = .ok frames) (slot : Slot) (hLive : flow.IsLive slot.node)
    (hStack : flow.Leaves locals slot.node stack) (hDepth : slot.depth < stack.length) :
    ∃ input v, frames.inputAt slot.node = some input ∧ input.values[slot.depth]? = some v ∧
      (∀ t, flow.Meets locals slot t → t.Below v) ∧
      ∀ w, (∀ t, flow.Meets locals slot t → t.Below w) → v.Below w := by
  obtain ⟨-, family, h, hInputs⟩ := exists_frameSolution hShape hFrames
  obtain ⟨-, hFits⟩ := h.fits_of_leaves hShape hLive hStack
  have hFrame : slot.depth < (family slot.node).values.length := hFits.length_eq ▸ hDepth
  have hv := List.getElem?_eq_getElem hFrame
  refine ⟨family slot.node, _, hInputs _ hLive, hv, fun t hMeets => ?_, fun w hBounds => ?_⟩
  · obtain ⟨v, hv', hBelow⟩ := h.below_of_meets hShape hMeets
    rw [Option.some.inj (hv.symm.trans hv')]
    exact hBelow
  · obtain ⟨_, hFrames', hLeast⟩ :=
      exists_stackFrames_le hShape (h.frameSolution_replace hShape hBounds)
    obtain rfl := Except.ok.inj (hFrames.symm.trans hFrames')
    obtain ⟨_, hInput, hLe⟩ := hLeast slot.node hLive
    obtain rfl := Option.some.inj ((hInputs _ hLive).symm.trans hInput)
    obtain ⟨u, hu, hBelow⟩ := (TypeStack.below_iff_getElem? (h.known hShape hLive)).mp
      (FrameLayout.le_iff_below.mp hLe).values _ _ hv
    have hLinked : flow.Linked locals slot slot := .refl slot
    have hSlot := FrameSolution.valueAt_replace_of_linked (w := w) hLinked hv
    rwa [Option.some.inj (hu.symm.trans hSlot)] at hBelow

end FlowGraph

end BytecodeFlow
