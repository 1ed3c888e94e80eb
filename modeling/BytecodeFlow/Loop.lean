/-!
# Loops

A loop repeats a step as long as there is one. `Loops` relates the first state of a loop to its
last one and counts no steps. `runSteps` runs a loop for a bounded number of steps. If each step
brings a measure down and the bound is at least that measure, the bound is never met, and
`runSteps` comes to the last state of the loop (`loops_runSteps`).
-/

namespace BytecodeFlow

variable {σ : Type} {step : σ → Option σ}

/-- The loop that repeats a step as long as there is one leads from the first state to the last. -/
inductive Loops (step : σ → Option σ) : σ → σ → Prop where
  | stop {state : σ} : step state = none → Loops step state state
  | next {state after last : σ} :
      step state = some after → Loops step after last → Loops step state last

/-- The state of a loop after a number of steps, or at its end if it comes there before. -/
def runSteps (step : σ → Option σ) : Nat → σ → σ
  | 0, state => state
  | fuel + 1, state =>
    match step state with
    | none => state
    | some after => runSteps step fuel after

/-- A loop whose steps keep an invariant keeps it to the end, where no step is left. -/
theorem Loops.keeps {P : σ → Prop} {first last : σ} (h : Loops step first last)
    (hKeep : ∀ state after, P state → step state = some after → P after) (hFirst : P first) :
    P last ∧ step last = none := by
  induction h with
  | stop hStop => exact ⟨hFirst, hStop⟩
  | next hStep _ ih => exact ih (hKeep _ _ hFirst hStep)

/-- With a bound that a decreasing measure does not exceed, the loop runs to its end. -/
theorem loops_runSteps (P : σ → Prop) (measure : σ → Nat)
    (hKeep : ∀ state after, P state → step state = some after →
      P after ∧ measure after < measure state)
    {fuel : Nat} {first : σ} (hFirst : P first) (hFuel : measure first ≤ fuel) :
    Loops step first (runSteps step fuel first) := by
  induction fuel generalizing first with
  | zero =>
    cases hStep : step first with
    | none => exact .stop hStep
    | some after =>
      have hLess := (hKeep first after hFirst hStep).2
      omega
  | succ fuel ih =>
    rw [runSteps]
    cases hStep : step first with
    | none => exact .stop hStep
    | some after =>
      obtain ⟨hAfter, hLess⟩ := hKeep first after hFirst hStep
      exact .next hStep (ih hAfter (by omega))

end BytecodeFlow
