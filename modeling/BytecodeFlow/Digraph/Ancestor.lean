import BytecodeFlow.Error

/-!
# Ancestors

The chain of ancestors of a node under a partial parent function, and the first node that two
chains share. Parents are followed for a bounded number of steps; in a forest of that many nodes
the bound is never reached before the root.

The walk along two chains is also given as a loop (`PairedWalk`), which follows the parents as it
goes and has no bound.
-/

namespace BytecodeFlow

/-- A node, its parent, the parent of that, and so on. -/
def ancestors (parent : Nat → Option Nat) : Nat → Nat → List Nat
  | 0, _ => []
  | fuel + 1, node =>
    node :: match parent node with
      | some next => ancestors parent fuel next
      | none => []

/-- Walks two chains in step, each staying at its end once it is there, until one of them comes to
a node that the other has passed. -/
def meetInStep : List Nat → List Nat → List Nat → List Nat → Option Nat
  | [], _, _, _ => none
  | _, [], _, _ => none
  | x :: left, y :: right, passedLeft, passedRight =>
    if (x :: passedLeft).contains y then some y
    else if (y :: passedRight).contains x then some x
    else match left, right with
      | [], [] => none
      | [], y' :: right' => meetInStep [x] (y' :: right') (x :: passedLeft) (y :: passedRight)
      | x' :: left', [] => meetInStep (x' :: left') [y] (x :: passedLeft) (y :: passedRight)
      | x' :: left', y' :: right' =>
        meetInStep (x' :: left') (y' :: right') (x :: passedLeft) (y :: passedRight)
termination_by left right => left.length + right.length

/-- The first node that the ancestor chains of two nodes share, found by walking them in step. -/
def commonAncestor? (chain : Nat → List Nat) (left right : Nat) : Option Nat :=
  meetInStep (chain left) (chain right) [] []

/-- Two walks up along the parents, with the nodes that each of them has left. -/
structure PairedWalk where
  left : Nat
  right : Nat
  passedLeft : List Nat
  passedRight : List Nat
deriving DecidableEq, Repr

namespace PairedWalk

/-- The walks at the start. -/
def start (left right : Nat) : PairedWalk :=
  ⟨left, right, [], []⟩

/-- The node at which one of the walks has come to where the other is or was. -/
def met? (walk : PairedWalk) : Option Nat :=
  if (walk.left :: walk.passedLeft).contains walk.right then some walk.right
  else if (walk.right :: walk.passedRight).contains walk.left then some walk.left
  else none

/-- Takes both walks to the next parent, unless they have met or are both at an end. A walk that is
at its end stays there. -/
def step (parent : Nat → Option Nat) (walk : PairedWalk) : Option PairedWalk :=
  if walk.met?.isSome || (parent walk.left).isNone && (parent walk.right).isNone then none
  else
    some
      { left := (parent walk.left).getD walk.left
        right := (parent walk.right).getD walk.right
        passedLeft := walk.left :: walk.passedLeft
        passedRight := walk.right :: walk.passedRight }

/-- What the walks from two nodes have found at the end. -/
def answer (left right : Nat) (walk : PairedWalk) : Except Error Nat :=
  match walk.met? with
  | some meeting => .ok meeting
  | none => .error (.invariant (.noCommonAncestor left right))

end PairedWalk

end BytecodeFlow
