import BytecodeFlow.Assembler
import BytecodeFlow.Proofs.InPlace

/-!
# The steps of an assembler

What a step does to an assembler, and what an assembler holds after many steps. A step is either
refused, which changes nothing (`atomic_step`), or performed (`step_eq_ok`). After a run an assembler
holds what the accepted steps say, and nothing of the refused ones (`Records.run`).

A place in a run is told by the steps before it: `before ++ [call] <+: done` says that `call` comes
right after the steps `before` in the run `done`. The number of instructions that the steps before
it add is its order.
-/

namespace BytecodeFlow

namespace AssemblyStep

/-- The operation that a step adds, with labels as it was given them. -/
def operation? : AssemblyStep → Option LabelledOperation
  | .emit operation => some (.resolved operation)
  | .branch condition label => some (.branch condition label)
  | .goto label => some (.goto label)
  | .jumpSubroutine label => some (.jumpSubroutine label)
  | .returnFromSubroutine slot => some (.returnFromSubroutine slot)
  | .switch kind fallback cases => some (.switch kind fallback cases)
  | .define _ | .protect _ | .declare _ | .line _ => none

/-- The label that a step defines. -/
def label? : AssemblyStep → Option String
  | .define label => some label
  | _ => none

/-- The range that a step protects. -/
def range? : AssemblyStep → Option LabelledRange
  | .protect range => some range
  | _ => none

/-- The variable that a step declares. -/
def lifetime? : AssemblyStep → Option LabelledLifetime
  | .declare lifetime => some lifetime
  | _ => none

/-- The line that a step sets. -/
def line? : AssemblyStep → Option Nat
  | .line number => some number
  | _ => none

theorem label?_eq_some_iff {call : AssemblyStep} {label : String} :
    call.label? = some label ↔ call = .define label := by
  cases call <;> simp [label?]

theorem range?_eq_some_iff {call : AssemblyStep} {range : LabelledRange} :
    call.range? = some range ↔ call = .protect range := by
  cases call <;> simp [range?]

theorem lifetime?_eq_some_iff {call : AssemblyStep} {lifetime : LabelledLifetime} :
    call.lifetime? = some lifetime ↔ call = .declare lifetime := by
  cases call <;> simp [lifetime?]

end AssemblyStep

namespace Assembler

open AssemblyStep InPlace

/-! ## What a run says -/

/-- The number of instructions that a run adds. -/
def emitted (done : List AssemblyStep) : Nat :=
  done.countP fun call => call.operation?.isSome

/-- The line of an instruction behind a run: the one that was set last. -/
def lineAfter (done : List AssemblyStep) : Option Nat :=
  (done.filterMap line?).getLast?

/-- A run adds an instruction at an index. -/
def Adds (done : List AssemblyStep) (index : Nat) (instruction : LabelledInstruction) : Prop :=
  ∃ before call, before ++ [call] <+: done ∧ call.operation? = some instruction.operation ∧
    index = emitted before ∧ instruction.line = lineAfter before

/-- A run defines a label as the name of the instruction at an index, which is the number of
instructions that were added before. -/
def Defines (done : List AssemblyStep) (label : String) (index : Nat) : Prop :=
  ∃ before, before ++ [.define label] <+: done ∧ index = emitted before

/-- The assembler after a step, whether it was refused or not. -/
def after (a : Assembler) (call : AssemblyStep) : Assembler :=
  match step call a with
  | .ok _ b => b
  | .error _ b => b

/-- The assembler after a run. -/
def afterAll (a : Assembler) (calls : List AssemblyStep) : Assembler :=
  calls.foldl after a

/-- The steps of a run that are not refused. -/
def accepted : Assembler → List AssemblyStep → List AssemblyStep
  | _, [] => []
  | a, call :: calls =>
    match step call a with
    | .ok _ b => call :: accepted b calls
    | .error _ b => accepted b calls

theorem afterAll_cons (a : Assembler) (call : AssemblyStep) (calls : List AssemblyStep) :
    afterAll a (call :: calls) = afterAll (after a call) calls :=
  rfl

@[simp] theorem emitted_append (first second : List AssemblyStep) :
    emitted (first ++ second) = emitted first + emitted second :=
  List.countP_append

theorem emitted_of_prefix {before done : List AssemblyStep} (h : before <+: done) :
    emitted before ≤ emitted done := by
  obtain ⟨rest, rfl⟩ := h
  rw [emitted_append]
  omega

theorem emitted_singleton (call : AssemblyStep) :
    emitted [call] = if call.operation?.isSome then 1 else 0 := by
  simp [emitted, List.countP_cons]

/-- The instruction that a step adds comes before the end. -/
theorem emitted_lt {before done : List AssemblyStep} {call : AssemblyStep}
    {operation : LabelledOperation} (hPlace : before ++ [call] <+: done)
    (h : call.operation? = some operation) : emitted before < emitted done := by
  have hLe := emitted_of_prefix hPlace
  rw [emitted_append, emitted_singleton, h, Option.isSome_some, if_pos rfl] at hLe
  omega

/-- The places of a longer run are its end and the places of the run. -/
theorem place_concat_iff {before done : List AssemblyStep} {call last : AssemblyStep} :
    before ++ [call] <+: done ++ [last] ↔
      (before = done ∧ call = last) ∨ before ++ [call] <+: done := by
  rw [List.prefix_concat_iff, List.append_singleton_inj]

theorem adds_concat_iff {done : List AssemblyStep} {last : AssemblyStep} {index : Nat}
    {instruction : LabelledInstruction} : Adds (done ++ [last]) index instruction ↔
      (last.operation? = some instruction.operation ∧ index = emitted done ∧
        instruction.line = lineAfter done) ∨ Adds done index instruction := by
  constructor
  · intro hAdds
    obtain ⟨before, call, hPlace, hAdded⟩ := hAdds
    rcases place_concat_iff.mp hPlace with ⟨rfl, rfl⟩ | hPlace
    · exact Or.inl hAdded
    · exact Or.inr ⟨before, call, hPlace, hAdded⟩
  · intro hAdds
    rcases hAdds with hAdded | ⟨before, call, hPlace, hAdded⟩
    · exact ⟨done, last, List.prefix_refl _, hAdded⟩
    · exact ⟨before, call, place_concat_iff.mpr (Or.inr hPlace), hAdded⟩

theorem defines_concat_iff {done : List AssemblyStep} {last : AssemblyStep} {label : String}
    {index : Nat} : Defines (done ++ [last]) label index ↔
      (last.label? = some label ∧ index = emitted done) ∨ Defines done label index := by
  rw [label?_eq_some_iff]
  constructor
  · intro hDefines
    obtain ⟨before, hPlace, hIndex⟩ := hDefines
    rcases place_concat_iff.mp hPlace with ⟨rfl, hLast⟩ | hPlace
    · exact Or.inl ⟨hLast.symm, hIndex⟩
    · exact Or.inr ⟨before, hPlace, hIndex⟩
  · intro hDefines
    rcases hDefines with ⟨rfl, hIndex⟩ | ⟨before, hPlace, hIndex⟩
    · exact ⟨done, List.prefix_refl _, hIndex⟩
    · exact ⟨before, place_concat_iff.mpr (Or.inr hPlace), hIndex⟩

theorem Defines.le_emitted {done : List AssemblyStep} {label : String} {index : Nat}
    (h : Defines done label index) : index ≤ emitted done := by
  obtain ⟨before, hPlace, rfl⟩ := h
  exact emitted_of_prefix ((List.prefix_append before _).trans hPlace)

theorem lineAfter_concat (done : List AssemblyStep) (last : AssemblyStep) :
    lineAfter (done ++ [last]) = last.line?.or (lineAfter done) := by
  cases hLine : last.line? with
  | none => simp [lineAfter, List.filterMap_append, hLine]
  | some number => simp [lineAfter, List.filterMap_append, hLine]

/-! ## One step -/

theorem total_push (operation : LabelledOperation) : Total (push operation) := by
  intro a error left h
  cases h

theorem looks_checkLabel (label : String) : Looks (checkLabel label) := by
  unfold checkLabel
  split
  · exact looks_throw _
  · exact looks_pure _

theorem looks_checkKeys (kind : SwitchKind) (keys : List Int32) : Looks (checkKeys kind keys) := by
  unfold checkKeys
  split
  · exact looks_pure _
  · split
    · exact looks_throw _
    · split
      · exact looks_pure _
      · exact looks_throw _

theorem atomic_emit (operation : Operation) : Atomic (emit operation) := by
  unfold emit
  split
  · exact (looks_throw _).1
  · exact (total_push _).atomic

theorem atomic_jump (operation : String → LabelledOperation) (label : String) :
    Atomic (jump operation label) :=
  .bind (looks_checkLabel label) fun _ => (total_push _).atomic

theorem atomic_define (label : String) : Atomic (define label) := by
  refine .bind (looks_checkLabel label) fun _ => .bind looks_get fun a => ?_
  split
  · exact (looks_throw _).1
  · exact (total_modify _).atomic

theorem atomic_protect (range : LabelledRange) : Atomic (protect range) :=
  .bind (looks_checkLabel _) fun _ => .bind (looks_checkLabel _) fun _ =>
    .bind (looks_checkLabel _) fun _ => (total_modify _).atomic

/-- A step that is refused leaves the assembler as it was. -/
theorem atomic_step (call : AssemblyStep) : Atomic (step call) := by
  cases call with
  | emit operation => exact (atomic_emit operation).map
  | branch | goto | jumpSubroutine => exact (atomic_jump _ _).map
  | returnFromSubroutine slot => exact (total_push _).atomic.map
  | «switch» kind fallback cases =>
    exact (Atomic.bind (looks_checkKeys kind _) fun _ => (total_push _).atomic).map
  | define label => exact (atomic_define label).map
  | protect range => exact (atomic_protect range).map
  | declare | line => exact (total_modify _).atomic.map

/-- What a step does that is not refused: each part of the assembler takes up what the step has for
it. -/
structure Performed (a : Assembler) (call : AssemblyStep) (b : Assembler) : Prop where
  method_eq : b.method = a.method
  instructions_eq : b.instructions = call.operation?.elim a.instructions fun operation =>
    a.instructions.push ⟨operation, a.line⟩
  labels_eq : b.labels = call.label?.elim a.labels fun label => (label, a.position) :: a.labels
  ranges_eq : b.ranges = call.range?.elim a.ranges a.ranges.push
  lifetimes_eq : b.lifetimes = call.lifetime?.elim a.lifetimes a.lifetimes.push
  line_eq : b.line = call.line?.or a.line
  fresh : ∀ label, call.label? = some label → a.labels.lookup label = none
  plain : ∀ operation, call = .emit operation → operation.isSentinel = false

theorem performed_push {call : AssemblyStep} {operation : LabelledOperation} (a : Assembler)
    (hOperation : call.operation? = some operation)
    (hPlain : ∀ plain, call = .emit plain → plain.isSentinel = false) :
    Performed a call { a with instructions := a.instructions.push ⟨operation, a.line⟩ } := by
  cases call with
  | define | protect | declare | line => cases hOperation
  | _ =>
    cases hOperation
    exact ⟨rfl, rfl, rfl, rfl, rfl, rfl, by simp [label?], hPlain⟩

theorem jump_eq_ok {operation : String → LabelledOperation} {label : String} {a b : Assembler}
    {order : Nat} (h : jump operation label a = .ok order b) :
    b = { a with instructions := a.instructions.push ⟨operation label, a.line⟩ } := by
  obtain ⟨_, -, hPush⟩ := (looks_checkLabel label).bind_eq_ok h
  cases hPush
  rfl

theorem step_eq_ok {call : AssemblyStep} {a b : Assembler} {answer : Option Nat}
    (h : step call a = .ok answer b) : Performed a call b := by
  cases call with
  | emit operation =>
    obtain ⟨order, h, -⟩ := map_apply_eq_ok.mp h
    unfold emit at h
    split at h
    · cases h
    · rename_i hPlain
      cases h
      refine performed_push a rfl fun plain hCall => ?_
      cases hCall
      simpa using hPlain
  | branch | goto | jumpSubroutine =>
    obtain ⟨order, h, -⟩ := map_apply_eq_ok.mp h
    obtain rfl := jump_eq_ok h
    exact performed_push a rfl (by simp)
  | returnFromSubroutine slot =>
    cases h
    exact performed_push a rfl (by simp)
  | «switch» kind fallback cases =>
    obtain ⟨order, h, -⟩ := map_apply_eq_ok.mp h
    obtain ⟨_, -, hPush⟩ := (looks_checkKeys kind _).bind_eq_ok h
    cases hPush
    exact performed_push a rfl (by simp)
  | define label =>
    obtain ⟨_, h, -⟩ := map_apply_eq_ok.mp h
    obtain ⟨_, -, hRest⟩ := (looks_checkLabel label).bind_eq_ok h
    obtain ⟨_, hGet, hRest⟩ := looks_get.bind_eq_ok hRest
    cases hGet
    cases hFresh : a.labels.lookup label with
    | some order =>
      rw [hFresh] at hRest
      cases hRest
    | none =>
      rw [hFresh] at hRest
      cases hRest
      exact ⟨rfl, rfl, rfl, rfl, rfl, rfl, by simpa [label?] using hFresh,
        by simp⟩
  | protect range =>
    obtain ⟨_, h, -⟩ := map_apply_eq_ok.mp h
    obtain ⟨_, -, hStop⟩ := (looks_checkLabel range.start).bind_eq_ok h
    obtain ⟨_, -, hHandler⟩ := (looks_checkLabel range.stop).bind_eq_ok hStop
    obtain ⟨_, -, hLast⟩ := (looks_checkLabel range.handler).bind_eq_ok hHandler
    cases hLast
    exact ⟨rfl, rfl, rfl, rfl, rfl, rfl, by simp [label?], by simp⟩
  | declare | line =>
    cases h
    exact ⟨rfl, rfl, rfl, rfl, rfl, rfl, by simp [label?], by simp⟩

/-! ## Refusals -/

/-- The steps that are accepted behind a run. Labels are looked at where they are not those of a
switch or a variable. -/
def Acceptable (done : List AssemblyStep) : AssemblyStep → Prop
  | .emit operation => operation.isSentinel = false
  | .branch _ label | .goto label | .jumpSubroutine label => label ≠ ""
  | .switch .table _ cases => cases ≠ [] ∧ consecutive (cases.map Prod.fst) = true
  | .define label => label ≠ "" ∧ ∀ index, ¬ Defines done label index
  | .protect range => range.start ≠ "" ∧ range.stop ≠ "" ∧ range.handler ≠ ""
  | _ => True

theorem ends_checkLabel {label : String} {a : Assembler} :
    Ends (checkLabel label) a ↔ label ≠ "" := by
  unfold checkLabel
  split
  · rename_i hEmpty
    exact iff_of_false (not_ends_throw _) (by simpa using hEmpty)
  · rename_i hLabel
    exact iff_of_true ((total_pure _).ends a) (by simpa using hLabel)

theorem ends_jump {operation : String → LabelledOperation} {label : String} {a : Assembler} :
    Ends (jump operation label) a ↔ label ≠ "" := by
  rw [jump, (looks_checkLabel label).ends_bind, ends_checkLabel]
  exact and_iff_left ((total_push _).ends a)

theorem ends_checkKeys {keys : List Int32} {a : Assembler} :
    Ends (checkKeys .table keys) a ↔ keys ≠ [] ∧ consecutive keys = true := by
  change Ends (if keys.isEmpty then throw _ else if consecutive keys then pure () else throw _) a ↔ _
  split
  · rename_i hEmpty
    exact iff_of_false (not_ends_throw _) fun h => h.1 (by simpa using hEmpty)
  · rename_i hKeys
    split
    · rename_i hConsecutive
      exact iff_of_true ((total_pure _).ends a) ⟨by simpa using hKeys, hConsecutive⟩
    · rename_i hScattered
      exact iff_of_false (not_ends_throw _) fun h => hScattered h.2

theorem ends_switch {kind : SwitchKind} {fallback : String} {cases : List (Int32 × String)}
    {a : Assembler} : Ends (switch kind fallback cases) a ↔
      Ends (checkKeys kind (cases.map Prod.fst)) a := by
  rw [switch, (looks_checkKeys kind _).ends_bind]
  exact and_iff_left ((total_push _).ends a)

theorem ends_define {label : String} {a : Assembler} :
    Ends (define label) a ↔ label ≠ "" ∧ a.labels.lookup label = none := by
  rw [define, (looks_checkLabel label).ends_bind, ends_checkLabel, ends_get_bind]
  refine and_congr Iff.rfl ?_
  cases a.labels.lookup label with
  | some order => exact iff_of_false (not_ends_throw _) (by simp)
  | none => exact iff_of_true ((total_modify _).ends a) rfl

theorem ends_protect {range : LabelledRange} {a : Assembler} :
    Ends (protect range) a ↔ range.start ≠ "" ∧ range.stop ≠ "" ∧ range.handler ≠ "" := by
  rw [protect, (looks_checkLabel _).ends_bind, (looks_checkLabel _).ends_bind,
    (looks_checkLabel _).ends_bind, ends_checkLabel, ends_checkLabel, ends_checkLabel]
  simp only [(total_modify _).ends a, and_true]

/-! ## A run -/

/-- The assembler holds what a run says. -/
structure Records (method : MethodId) (done : List AssemblyStep) (a : Assembler) : Prop where
  method_eq : a.method = method
  size_eq : a.instructions.size = emitted done
  instruction_iff : ∀ index instruction,
    a.instructions[index]? = some instruction ↔ Adds done index instruction
  label_iff : ∀ label order, a.labels.lookup label = some order ↔
    ∃ index, Defines done label index ∧ order = orderOf index
  ranges_eq : a.ranges.toList = done.filterMap range?
  lifetimes_eq : a.lifetimes.toList = done.filterMap lifetime?
  line_eq : a.line = lineAfter done
  plain : ∀ operation, .emit operation ∈ done → operation.isSentinel = false

theorem records_nil (method : MethodId) : Records method [] { method } where
  method_eq := rfl
  size_eq := rfl
  instruction_iff := by simp [Adds]
  label_iff := by simp [Defines]
  ranges_eq := rfl
  lifetimes_eq := rfl
  line_eq := rfl
  plain := by simp

namespace Records

variable {method : MethodId} {done : List AssemblyStep} {a b : Assembler} {call : AssemblyStep}

theorem perform_instruction_iff (h : Records method done a) (hCall : Performed a call b)
    (index : Nat) (instruction : LabelledInstruction) :
    b.instructions[index]? = some instruction ↔ Adds (done ++ [call]) index instruction := by
  rw [adds_concat_iff, ← h.instruction_iff, hCall.instructions_eq, ← h.size_eq, ← h.line_eq]
  cases call.operation? with
  | none => simp
  | some operation =>
    obtain ⟨other, line⟩ := instruction
    rw [Option.elim_some, Array.getElem?_push]
    split
    · rename_i hIndex
      subst hIndex
      simp [eq_comm]
    · rename_i hIndex
      simp [hIndex]

theorem perform_label_iff (h : Records method done a) (hCall : Performed a call b) (label : String)
    (order : Nat) : b.labels.lookup label = some order ↔
      ∃ index, Defines (done ++ [call]) label index ∧ order = orderOf index := by
  have hOld := h.label_iff label
  simp only [defines_concat_iff, hCall.labels_eq]
  cases hLabel : call.label? with
  | none => simp [hOld]
  | some defined =>
    have hFresh := hCall.fresh defined hLabel
    rw [Option.elim_some, List.lookup_cons]
    by_cases hSame : label = defined
    · subst hSame
      -- The label was not there before, so that no earlier step defines it.
      have hNone : ∀ index, ¬ Defines done label index := by
        intro index hIndex
        have hFound := (hOld _).mpr ⟨index, hIndex, rfl⟩
        rw [hFresh] at hFound
        cases hFound
      simp [hNone, position, h.size_eq, eq_comm]
    · have hOther : (label == defined) = false := by simpa using hSame
      simp [hOther, hOld, Ne.symm hSame]

/-- A step adds to what an assembler holds what it says itself. -/
theorem perform (h : Records method done a) (hCall : Performed a call b) :
    Records method (done ++ [call]) b where
  method_eq := by rw [hCall.method_eq, h.method_eq]
  size_eq := by
    rw [hCall.instructions_eq, emitted_append, emitted_singleton, ← h.size_eq]
    cases call.operation? <;> simp
  instruction_iff := h.perform_instruction_iff hCall
  label_iff := h.perform_label_iff hCall
  ranges_eq := by
    rw [hCall.ranges_eq, List.filterMap_append, ← h.ranges_eq]
    cases hRange : call.range? <;> simp [hRange]
  lifetimes_eq := by
    rw [hCall.lifetimes_eq, List.filterMap_append, ← h.lifetimes_eq]
    cases hLifetime : call.lifetime? <;> simp [hLifetime]
  line_eq := by rw [hCall.line_eq, lineAfter_concat, h.line_eq]
  plain := by
    intro operation hMem
    rcases List.mem_append.mp hMem with hMem | hMem
    · exact h.plain operation hMem
    · exact hCall.plain operation (List.mem_singleton.mp hMem).symm

/-- Whether a step is refused depends on the run before it alone. -/
theorem ends_step_iff (h : Records method done a) : Ends (step call) a ↔ Acceptable done call := by
  cases call with
  | emit operation =>
    rw [step, ends_map, emit, Acceptable]
    split
    · rename_i hSentinel
      exact iff_of_false (not_ends_throw _) (by simp [hSentinel])
    · rename_i hPlain
      exact iff_of_true ((total_push _).ends a) (by simpa using hPlain)
  | branch | goto | jumpSubroutine => rw [step, ends_map, ends_jump, Acceptable]
  | returnFromSubroutine slot => exact iff_of_true (ends_map.mpr ((total_push _).ends a)) trivial
  | «switch» kind fallback cases =>
    rw [step, ends_map, ends_switch]
    cases kind with
    | lookup => exact iff_of_true ((total_pure _).ends a) trivial
    | table =>
      rw [ends_checkKeys, Acceptable]
      simp
  | define label =>
    have hLookup : a.labels.lookup label = none ↔ ∀ index, ¬ Defines done label index := by
      simp only [Option.eq_none_iff_forall_ne_some, Ne, h.label_iff]
      constructor
      · intro hNone index hDefined
        exact hNone (orderOf index) ⟨index, hDefined, rfl⟩
      · intro hNone order hNamed
        obtain ⟨index, hDefined, -⟩ := hNamed
        exact hNone index hDefined
    rw [step, ends_map, ends_define, hLookup, Acceptable]
  | protect range => rw [step, ends_map, ends_protect, Acceptable]
  | declare | line => exact iff_of_true (ends_map.mpr ((total_modify _).ends a)) trivial

/-- After a run an assembler holds what the accepted steps say. -/
theorem run (h : Records method done a) (calls : List AssemblyStep) :
    Records method (done ++ accepted a calls) (afterAll a calls) := by
  induction calls generalizing done a with
  | nil =>
    rw [accepted, List.append_nil]
    exact h
  | cons call calls ih =>
    rw [afterAll_cons, after]
    cases hStep : step call a with
    | ok answer b =>
      have hNext := ih (h.perform (step_eq_ok hStep))
      rw [List.append_assoc] at hNext
      simpa [accepted, hStep] using hNext
    | error error b =>
      obtain rfl := atomic_step call a error b hStep
      simpa [accepted, hStep] using ih h

end Records

end Assembler

end BytecodeFlow
