import BytecodeFlow.Digraph.SimplePath
import BytecodeFlow.Digraph.Traversal
import BytecodeFlow.Loop

/-!
# Searches as loops

The searches as loops: those that call themselves, for the finishing order and for simple paths,
over a stack, and the depth-first and the breadth-first search over an agenda. A step looks at the
top of the stack or at the front of the agenda, and the loop ends where there is no step left. No
loop counts its steps.

In the search for the finishing order a node lies on the stack once for every edge that led to it
while it was not entered. The search for simple paths keeps three stacks in step: the path, the
successors that each of its nodes still has to try, and the marks of the nodes on the path. The
depth-first and the breadth-first search mark a node when they put it on their agenda, so that it
lies there once. Searches from several starts share one table of marks.
-/

namespace BytecodeFlow

/-- What is left to do with a node: to enter it, or to finish it. -/
inductive SearchTask where
  | enter (node : Nat)
  | finish (node : Nat)
deriving DecidableEq, Repr

/-- A search for the finishing order, with what is left to do on its stack. -/
structure FinishSearch where
  stack : List SearchTask
  state : Traversal.Finished

namespace FinishSearch

/-- The search at the start. -/
def start (node : Nat) : FinishSearch :=
  ⟨[.enter node], ⟨[], []⟩⟩

/-- Enters the node on top of the stack, unless it was entered before, and puts its successors that
are not entered yet above it; or finishes the node on top of the stack. -/
def step (next : Nat → List Nat) : FinishSearch → Option FinishSearch
  | ⟨[], _⟩ => none
  | ⟨.enter node :: stack, state⟩ =>
    if state.entered.contains node then some ⟨stack, state⟩
    else
      let entered := node :: state.entered
      let fresh := (next node).filter (!entered.contains ·)
      some ⟨fresh.map .enter ++ .finish node :: stack, { state with entered }⟩
  | ⟨.finish node :: stack, state⟩ => some ⟨stack, { state with done := node :: state.done }⟩

end FinishSearch

/-- A search for simple paths. -/
structure PathSearch where
  /-- the nodes of the path, the last one first -/
  path : List Nat
  /-- for each node of the path the successors that are left to try -/
  frames : List (List Nat)
  /-- for each node of the graph whether it is on the path -/
  marks : Array Bool
  found : List (List Nat)
deriving DecidableEq, Repr

namespace PathSearch

variable {α : Type}

/-- The search at the start. -/
def start (g : Digraph α) (source : Nat) : PathSearch where
  path := [source]
  frames := [g.successors source]
  marks := (Array.replicate g.size false).setIfInBounds source true
  found := []

/-- Whether a node is marked. -/
def isMarked (search : PathSearch) (node : Nat) : Bool :=
  search.marks[node]?.getD false

/-- The search without the last node of its path. -/
def retreat (search : PathSearch) (frames : List (List Nat)) : PathSearch :=
  match search.path with
  | [] => { search with frames }
  | node :: path => { search with path, frames, marks := search.marks.setIfInBounds node false }

/-- Tries the next successor of the last node of the path, or leaves that node if there is none. A
path that comes to the target is found, and does not go on behind it. -/
def step (g : Digraph α) (target : Nat) (search : PathSearch) : Option PathSearch :=
  match search.frames with
  | [] => none
  | [] :: frames => some (search.retreat frames)
  | (node :: rest) :: frames =>
    if node = target then
      some { search with
        frames := rest :: frames
        found := search.found ++ [(target :: search.path).reverse] }
    else if search.isMarked node then some { search with frames := rest :: frames }
    else
      some { search with
        path := node :: search.path
        frames := g.successors node :: rest :: frames
        marks := search.marks.setIfInBounds node true }

end PathSearch

/-- The ways to keep an agenda, whose first node is taken next: new nodes come to its front, or to
its end. -/
inductive AgendaOrder where
  | stack
  | queue
deriving DecidableEq, Repr

namespace AgendaOrder

/-- Puts a node on an agenda. -/
def put : AgendaOrder → List Nat → Nat → List Nat
  | .stack, agenda, node => node :: agenda
  | .queue, agenda, node => agenda ++ [node]

/-- The successors of a node in the order in which they are put on the agenda. On a stack the first
of them comes last, so that it is taken first. -/
def arrange : AgendaOrder → List Nat → List Nat
  | .stack, successors => successors.reverse
  | .queue, successors => successors

end AgendaOrder

/-- A search with an agenda. -/
structure AgendaSearch where
  agenda : List Nat
  /-- for each node of the graph whether it was put on the agenda -/
  marks : Array Bool
  /-- the nodes taken from the agenda, in that order -/
  listed : List Nat
deriving DecidableEq, Repr

namespace AgendaSearch

variable {α : Type}

/-- The search at the start. From outside the graph there is nothing to search. -/
def start (g : Digraph α) (node : Nat) : AgendaSearch :=
  if node < g.size then
    ⟨[node], (Array.replicate g.size false).setIfInBounds node true, []⟩
  else ⟨[], #[], []⟩

/-- Puts a node on the agenda, unless it was put there before. -/
def meet (order : AgendaOrder) (search : AgendaSearch) (node : Nat) : AgendaSearch :=
  if search.marks[node]?.getD false then search
  else
    { search with
      agenda := order.put search.agenda node
      marks := search.marks.setIfInBounds node true }

/-- Takes the first node from the agenda and puts its successors on it. -/
def step (order : AgendaOrder) (g : Digraph α) (search : AgendaSearch) : Option AgendaSearch :=
  match search.agenda with
  | [] => none
  | node :: agenda =>
    some ((order.arrange (g.successors node)).foldl (meet order)
      { search with agenda, listed := search.listed ++ [node] })

end AgendaSearch

/-- For each node whether one of the starts reaches it. A start that is marked already, or that lies
outside the graph, is passed over. -/
def Digraph.markReachable {α : Type} (g : Digraph α) (starts : List Nat) : Array Bool :=
  starts.foldl
    (fun marks start =>
      if g.size ≤ start || marks[start]?.getD false then marks
      else (g.breadthFirst start).foldl (fun marks node => marks.setIfInBounds node true) marks)
    (Array.replicate g.size false)

end BytecodeFlow
