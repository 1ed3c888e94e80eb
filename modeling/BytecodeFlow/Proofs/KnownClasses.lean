import BytecodeFlow.Proofs.ValueFlow

/-!
# Classes that all paths agree on

If all paths to an instruction leave a reference to the same class in a slot, then the frame has
that class there, or else the class of all objects. Which of both it is does not depend on these
paths alone. The frames flow back along the edges as well, so a class that joins the value only
after the instruction takes part in its type before it. The class is kept exactly if no other class
meets the slot, or if it is the class of all objects anyway (`stackFrames_class_iff`).

Where two branches push references to different classes, both classes are lost right away, and not
only where the branches meet (`not_stackFrames_keep_class`).
-/

namespace BytecodeFlow

namespace StackType

variable {name other : String} {t v : StackType}

theorem ofClass_inj : ofClass name = ofClass other ↔ name = other :=
  ⟨fun h => by cases h; rfl, fun h => h ▸ rfl⟩

/-- Above a class is only the class of all objects. -/
theorem Below.of_class (h : (ofClass name).Below v) :
    v = ofClass name ∨ v = ofClass objectClass := by
  rcases h.eq_or with rfl | ⟨hAny, -⟩ | ⟨hNone, -⟩ | ⟨-, rfl⟩
  · exact Or.inl rfl
  · cases hAny
  · cases hNone
  · exact Or.inr rfl

/-- Below the class of all objects are the other classes, and types below all of them. -/
theorem Below.to_objectClass (h : t.Below (ofClass objectClass)) :
    (∃ other, t = ofClass other) ∨ ∀ name, t.Below (ofClass name) := by
  rcases h.eq_or with rfl | ⟨rfl, -⟩ | ⟨rfl, -⟩ | ⟨hClass, -⟩
  · exact Or.inl ⟨_, rfl⟩
  · exact Or.inr fun name => any_below rfl
  · exact Or.inr fun name => below_iff.mpr (Or.inr (Or.inr (Or.inl ⟨rfl, Or.inr ⟨_, rfl⟩⟩)))
  · exact Or.inl hClass

end StackType

namespace FlowGraph

variable {flow : FlowGraph} {locals : VariableTable} {method : MethodId}
  {instructions : List Instruction} {handlers : List HandlerRange} {settings : Settings}

/-- The last step of a path. -/
theorem Leaves.exists_pred {node : Nat} {stack : TypeStack} (h : flow.Leaves locals node stack)
    (hNode : node ≠ flow.entry) :
    ∃ pred before effect, flow.graph.Adj pred node ∧ flow.Leaves locals pred before ∧
      flow.effectBetween locals pred node = .ok effect ∧
      TypeStack.apply before effect = .ok stack := by
  obtain ⟨nodes, hPath, hStack⟩ := h
  induction hPath using Digraph.Path.snoc_induction with
  | single _ => exact absurd rfl hNode
  | @snoc middle _ nodes hPath hAdj _ =>
    rw [hPath.zip_tail_snoc] at hStack
    obtain ⟨before, effect, hBefore, hEffect, hApply⟩ := simulate_snoc.mp hStack
    exact ⟨middle, before, effect, hAdj, ⟨nodes, hPath, hBefore⟩, hEffect, hApply⟩

/-- **A class that all paths agree on is kept exactly if no other class meets it.** If all paths to
an instruction leave a reference to one class in a slot, then the frame has this class or the class
of all objects there. It has this class exactly if that is the class of all objects itself, or if
the values in all linked slots are produced and consumed as references to no other class. -/
theorem stackFrames_class_iff (hBuild : build method instructions handlers settings = .ok flow)
    {frames : StackFrames} (hFrames : flow.stackFrames locals = .ok frames) {node depth : Nat}
    (hLive : flow.IsLive node) {name : String}
    (hClass : ∀ stack, flow.Leaves locals node stack → stack[depth]? = some (.ofClass name)) :
    ∃ input value, frames.inputAt node = some input ∧ input.values[depth]? = some value ∧
      (value = .ofClass name ∨ value = .ofClass objectClass) ∧
      (value = .ofClass name ↔ name = objectClass ∨
        ∀ other, flow.Meets locals ⟨node, depth⟩ (.ofClass other) → other = name) := by
  have hShape := build_wellShaped hBuild
  obtain ⟨-, family, hSolution, -⟩ := exists_frameSolution hShape hFrames
  obtain ⟨stack, hStack⟩ := hSolution.exists_leaves hShape hLive
  have hType := hClass stack hStack
  have hMeets := hSolution.meets_of_leaves hShape hLive hStack hType
  obtain ⟨input, value, hInput, hValue, hAbove, hLeast⟩ := exists_isLeast_meets hShape hFrames
    ⟨node, depth⟩ hLive hStack (List.getElem?_eq_some_iff.mp hType).1
  have hUpper := (hAbove _ hMeets).of_class
  refine ⟨input, value, hInput, hValue, hUpper, ?_, ?_⟩
  · rintro rfl
    by_cases hObject : name = objectClass
    · exact Or.inl hObject
    · refine Or.inr fun other hOther => ?_
      rcases (hAbove _ hOther).of_class with hSame | hSame
      · exact (StackType.ofClass_inj.mp hSame).symm
      · exact absurd (StackType.ofClass_inj.mp hSame) hObject
  · rintro (rfl | hOnly)
    · exact hUpper.elim id id
    · rcases hUpper with hKept | rfl
      · exact hKept
      · -- the class itself is above all that meets the slot, so it is the least such type
        refine (hLeast (.ofClass name) fun t hMet => ?_).antisymm (hAbove _ hMeets)
        rcases (hAbove t hMet).to_objectClass with ⟨other, rfl⟩ | hBelow
        · rw [hOnly other hMet]
          exact .refl _
        · exact hBelow name

/-- Before the jump to where the branches meet, every path has just pushed a string. -/
theorem choice_before_jump :
    ∃ flow frames, build ⟨"Choice", "pick", "(Z)Ljava/lang/Object;"⟩ choice [] {} = .ok flow ∧
      flow.stackFrames [] = .ok frames ∧ flow.IsLive 4 ∧
      frames.inputAt 4 = some (.exactly [.ofClass objectClass]) ∧
      ∀ stack, flow.Leaves [] 4 stack → stack[0]? = some (.ofClass "java/lang/String") := by
  have hRun : ((build ⟨"Choice", "pick", "(Z)Ljava/lang/Object;"⟩ choice [] {}).bind fun flow =>
      (flow.stackFrames []).bind fun frames => (flow.effectBetween [] 3 4).map fun effect =>
        (flow.exit, (flow.graph.breadthFirst flow.entry).contains 4, frames.inputAt 4,
          flow.graph.predecessors 4, effect)).toOption =
      some (7, true, some (.exactly [.ofClass objectClass]), [3],
        .uniform [] (.ofClass "java/lang/String")) := by
    decide +kernel
  cases hBuild : build ⟨"Choice", "pick", "(Z)Ljava/lang/Object;"⟩ choice [] {} with
  | error _ => simp [hBuild, Except.bind, Except.toOption] at hRun
  | ok flow =>
    cases hFrames : flow.stackFrames [] with
    | error _ => simp [hBuild, hFrames, Except.bind, Except.toOption] at hRun
    | ok frames =>
      cases hEffect : flow.effectBetween [] 3 4 with
      | error _ => simp [hBuild, hFrames, hEffect, Except.bind, Except.map, Except.toOption] at hRun
      | ok effect =>
        simp only [hBuild, hFrames, hEffect, Except.bind, Except.map, Except.toOption,
          Option.some.injEq, Prod.mk.injEq, List.contains_iff_mem,
          Digraph.mem_breadthFirst_iff] at hRun
        obtain ⟨hExit, hReach, hInput, hPred, rfl⟩ := hRun
        refine ⟨flow, frames, rfl, hFrames, ⟨hReach, by omega⟩, hInput, fun stack hStack => ?_⟩
        obtain ⟨pred, before, effect, hAdj, -, hLast, hApply⟩ :=
          hStack.exists_pred (Nat.succ_ne_zero 3)
        rw [← Digraph.mem_predecessors, hPred, List.mem_singleton] at hAdj
        subst hAdj
        obtain rfl := Except.ok.inj (hEffect.symm.trans hLast)
        obtain rfl := TypeStack.apply_uniform_eq_ok hApply
        rfl

/-- The frame before the jump has the class of all objects, so another class meets the string. -/
theorem stackFrames_class_iff_choice :
    ∃ flow frames, build ⟨"Choice", "pick", "(Z)Ljava/lang/Object;"⟩ choice [] {} = .ok flow ∧
      flow.stackFrames [] = .ok frames ∧ flow.IsLive 4 ∧
      (∀ stack, flow.Leaves [] 4 stack → stack[0]? = some (.ofClass "java/lang/String")) ∧
      ∃ other, flow.Meets [] ⟨4, 0⟩ (.ofClass other) ∧ other ≠ "java/lang/String" := by
  obtain ⟨flow, frames, hBuild, hFrames, hLive, hInput, hClass⟩ := choice_before_jump
  refine ⟨flow, frames, hBuild, hFrames, hLive, hClass, ?_⟩
  obtain ⟨input, value, hInput', hValue, -, hKept⟩ :=
    stackFrames_class_iff hBuild hFrames hLive hClass
  obtain rfl := Option.some.inj (hInput.symm.trans hInput')
  obtain rfl := Option.some.inj hValue
  by_contra hNone
  have hSame := hKept.mpr (Or.inr fun other hMeets =>
    by_contra fun hOther => hNone ⟨other, hMeets, hOther⟩)
  revert hSame
  decide

/-- A class that all paths agree on need not be kept. -/
theorem not_stackFrames_keep_class :
    ¬ ∀ (method : MethodId) (instructions : List Instruction) (handlers : List HandlerRange)
      (settings : Settings) (flow : FlowGraph) (locals : VariableTable) (frames : StackFrames)
      (node depth : Nat) (name : String),
      build method instructions handlers settings = .ok flow →
      flow.stackFrames locals = .ok frames → flow.IsLive node →
      (∀ stack, flow.Leaves locals node stack → stack[depth]? = some (.ofClass name)) →
      ∃ input, frames.inputAt node = some input ∧ input.values[depth]? = some (.ofClass name) := by
  intro h
  obtain ⟨flow, frames, hBuild, hFrames, hLive, hInput, hClass⟩ := choice_before_jump
  obtain ⟨input, hInput', hValue⟩ := h _ _ _ _ flow [] frames 4 0 _ hBuild hFrames hLive hClass
  obtain rfl := Option.some.inj (hInput.symm.trans hInput')
  revert hValue
  decide

end FlowGraph

end BytecodeFlow
