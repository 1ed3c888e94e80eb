import BytecodeFlow.Error
import BytecodeFlow.StackEffect

/-!
# Type stacks

A simulated operand stack holds types, the head of the list being the top of the stack. Effects
are applied to it forwards, as an instruction executes, and reverted, as it is undone. Both may
fail; a fault keeps the stack as the failed step left it, with the values already popped gone.

`merge?` joins two stacks that meet at one program point, aligned at their tops. A wide value lines
up with two unknown words, and where one stack ends the values of the other are kept.
-/

namespace BytecodeFlow

/-- The types on an operand stack, from the top down. -/
abbrev TypeStack := List StackType

/-- A step that failed: why, and the stack it left. -/
structure StackFault where
  error : Error
  left : TypeStack
deriving DecidableEq, Repr

namespace TypeStack

/-- The number of words occupied. -/
def words (stack : TypeStack) : Nat :=
  stack.foldr (fun value rest => value.words + rest) 0

/-- The types in messages, from the bottom up. -/
def describe (stack : TypeStack) : String :=
  String.intercalate ", " (stack.reverse.map StackType.text)

/-- The text of a whole stack. -/
def text (stack : TypeStack) : String :=
  "[" ++ describe stack ++ "]"

/-- Pushes a value; there is nothing to push for `void`. -/
def push (value : StackType) (stack : TypeStack) : TypeStack :=
  if value = .void then stack else value :: stack

/-- Joins two stacks aligned at their tops, or nothing if two aligned values do not merge. -/
def merge? : TypeStack → TypeStack → Option TypeStack
  | [], right => some right
  | left, [] => some left
  | a :: left, b :: right =>
    if a.words = b.words then
      match a.merge b, merge? left right with
      | some value, some rest => some (value :: rest)
      | _, _ => none
    else if a.isWide ∧ b = .any then
      match right with
      | .any :: right => (merge? left right).map (a :: ·)
      | _ => none
    else if a = .any ∧ b.isWide then
      match left with
      | .any :: left => (merge? left right).map (b :: ·)
      | _ => none
    else none

/-- Joins two stacks aligned at their tops. -/
def merge (left right : TypeStack) : Except Error TypeStack :=
  match merge? left right with
  | some merged => .ok merged
  | none => .error (.stackMismatch (describe left) (describe right))

/-- Splits off the topmost values, as few as cover the given number of words. -/
def splitWords : Nat → TypeStack → TypeStack × TypeStack
  | 0, stack => ([], stack)
  | _ + 1, [] => ([], [])
  | needed + 1, value :: stack =>
    let (taken, rest) := splitWords (needed + 1 - value.words) stack
    (value :: taken, rest)

/-- Takes the topmost values if they cover exactly the given number of words. -/
def takeWords (needed : Nat) (stack : TypeStack) : Except StackFault (TypeStack × TypeStack) :=
  if words stack < needed then
    .error ⟨.stackUnderflow needed (words stack), stack⟩
  else
    let (taken, rest) := splitWords needed stack
    if words taken = needed then .ok (taken, rest)
    else .error ⟨.stackMismatch s!"{needed} words" (describe taken), rest⟩

/-- Pops one value that has to satisfy `expected`. -/
def popValue (expected : StackType) : TypeStack → Except StackFault TypeStack
  | [] => .error ⟨.stackUnderflow 1 0, []⟩
  | found :: rest =>
    if found.satisfies expected then .ok rest
    else .error ⟨.stackMismatch expected.text found.text, rest⟩

/-- Pops values against a list of constraints, the first of which meets the top. -/
def popValues : List StackType → TypeStack → Except StackFault TypeStack
  | [], stack => .ok stack
  | expected :: constraints, stack => do
    let rest ← popValue expected stack
    popValues constraints rest

/-- Executes a shuffle. -/
def applyShuffle (shuffle : Shuffle) (stack : TypeStack) : Except StackFault TypeStack := do
  let (top, rest) ← takeWords shuffle.topWords stack
  if shuffle.isPop then
    return rest
  let (skipped, rest) ← takeWords shuffle.skippedWords rest
  if shuffle = .swap then
    return skipped ++ top ++ rest
  return top ++ skipped ++ top ++ rest

/-- Executes an effect. Too few words are an underflow, which is noticed before any value is
popped. -/
def apply (stack : TypeStack) : StackEffect → Except StackFault TypeStack
  | .uniform pops value =>
    if words stack < words pops then
      .error ⟨.stackUnderflow (words pops) (words stack), stack⟩
    else do
      let rest ← popValues pops stack
      return push value rest
  | .shuffle shuffle => applyShuffle shuffle stack
  | .clear none => .ok []
  | .clear (some value) => .ok (push value [])

/-- Undoes a shuffle. Removed words come back unknown, and a copied group is restored from the
merge of both copies. -/
def revertShuffle (shuffle : Shuffle) (stack : TypeStack) : Except StackFault TypeStack := do
  if shuffle.isPop then
    return List.replicate shuffle.topWords StackType.any ++ stack
  let (top, rest) ← takeWords shuffle.topWords stack
  let (skipped, rest) ← takeWords shuffle.skippedWords rest
  if shuffle = .swap then
    return skipped ++ top ++ rest
  let (copy, rest) ← takeWords shuffle.topWords rest
  match merge copy top with
  | .ok group => return group ++ skipped ++ rest
  | .error error => .error ⟨error, rest⟩

/-- Undoes an effect. Consumed values come back as their constraints; what a clearing effect
discarded cannot be known. -/
def revert (stack : TypeStack) : StackEffect → Except StackFault TypeStack
  | .uniform pops .void => .ok (pops ++ stack)
  | .uniform pops value => do
    let rest ← popValue value stack
    return pops ++ rest
  | .shuffle shuffle => revertShuffle shuffle stack
  | .clear _ => .ok []

end TypeStack

end BytecodeFlow
