import BytecodeFlow.StackType

/-!
# Stack effects

What one operation does to the operand stack. Most operations pop a fixed list of values and push
at most one. The shuffles rearrange a number of words, whatever the types of the values in them.
Throwing and leaving the method discard the whole stack.
-/

namespace BytecodeFlow

/-- The rearrangements of the topmost words. -/
inductive Shuffle where
  | pop
  | pop2
  | dup
  | dupX1
  | dupX2
  | dup2
  | dup2X1
  | dup2X2
  | swap
deriving DecidableEq, Repr

namespace Shuffle

/-- The number of words in the group that is removed, copied or exchanged. -/
def topWords : Shuffle → Nat
  | .pop | .dup | .dupX1 | .dupX2 | .swap => 1
  | .pop2 | .dup2 | .dup2X1 | .dup2X2 => 2

/-- The number of words that the group is moved or copied below. -/
def skippedWords : Shuffle → Nat
  | .dupX1 | .dup2X1 | .swap => 1
  | .dupX2 | .dup2X2 => 2
  | .pop | .pop2 | .dup | .dup2 => 0

/-- Whether the group is removed. -/
def isPop : Shuffle → Bool
  | .pop | .pop2 => true
  | _ => false

/-- The number of words known to lie on the stack afterwards. -/
def wordsAfter : Shuffle → Nat
  | .pop | .pop2 => 0
  | .swap => 2
  | shuffle => 2 * shuffle.topWords + shuffle.skippedWords

end Shuffle

/-- The effect of one operation on the operand stack. -/
inductive StackEffect where
  /-- pop values that satisfy the constraints `pops`, the first of which is met by the topmost
  value, then push `push` unless it is `void` -/
  | uniform (pops : List StackType) (push : StackType)
  | shuffle (kind : Shuffle)
  /-- discard everything, then push a value if there is one -/
  | clear (push : Option StackType)
deriving DecidableEq, Repr

/-- Whether an effect discards the whole stack. -/
def StackEffect.isClear : StackEffect → Bool
  | .clear _ => true
  | _ => false

end BytecodeFlow
