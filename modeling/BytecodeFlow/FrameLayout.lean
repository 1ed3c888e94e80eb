import BytecodeFlow.TypeStack

/-!
# Frame layouts

What is known of the operand stack at a program point. An exact layout describes the whole stack.
Otherwise only the topmost values are known, and anything may lie below them.
-/

namespace BytecodeFlow

/-- The known values of an operand stack, from the top down. -/
structure FrameLayout where
  values : TypeStack
  /-- whether nothing lies below the values -/
  isExact : Bool
deriving DecidableEq, Repr

namespace FrameLayout

/-- The layout of a stack that holds the given values and nothing else. -/
def exactly (values : TypeStack) : FrameLayout :=
  ⟨values, true⟩

/-- The layout of a stack that holds the given values on its top. -/
def atLeast (values : TypeStack) : FrameLayout :=
  ⟨values, false⟩

/-- The topmost value. -/
def top? (layout : FrameLayout) : Option StackType :=
  layout.values.head?

/-- The number of words that the known values occupy. -/
def words (layout : FrameLayout) : Nat :=
  TypeStack.words layout.values

/-- The text of a layout, from the bottom up, with two dots for an unknown rest. -/
def text (layout : FrameLayout) : String :=
  let values := layout.values.reverse.map StackType.text
  "[" ++ String.intercalate ", " (if layout.isExact then values else ".." :: values) ++ "]"

/-- The smallest layout that an effect can be applied to. -/
def minimalBefore : StackEffect → FrameLayout
  | .uniform pops _ => atLeast pops
  | .shuffle shuffle => atLeast (List.replicate (shuffle.topWords + shuffle.skippedWords) .any)
  | .clear _ => atLeast []

/-- The smallest layout that an effect leaves. -/
def minimalAfter : StackEffect → FrameLayout
  | .uniform _ value => atLeast (TypeStack.push value [])
  | .shuffle shuffle => atLeast (List.replicate shuffle.wordsAfter .any)
  | .clear value => atLeast value.toList

/-- Whether `layout` fixes a stack height that `other` cannot have. -/
def excludesHeight (layout other : FrameLayout) : Bool :=
  layout.isExact &&
    if other.isExact then layout.words != other.words else layout.words < other.words

/-- Joins two layouts of one program point. The result is exact if either side is. -/
def merge (left right : FrameLayout) : Except Error FrameLayout :=
  if left.excludesHeight right || right.excludesHeight left then
    .error (.stackMismatch left.text right.text)
  else do
    let values ← TypeStack.merge left.values right.values
    return ⟨values, left.isExact || right.isExact⟩

/-- A layout extended by what has to lie on the stack; an exact layout already holds everything. -/
def extend (layout minimal : FrameLayout) : Except Error FrameLayout :=
  if layout.isExact then .ok layout else layout.merge minimal

/-- The layout after an effect. -/
def apply (layout : FrameLayout) (effect : StackEffect) : Except Error FrameLayout := do
  let base ← layout.extend (minimalBefore effect)
  let values ← (TypeStack.apply base.values effect).mapError StackFault.error
  return ⟨values, base.isExact || effect.isClear⟩

/-- The layout before an effect, given the layout after it. Nothing is known of what a clearing
effect discarded. -/
def revert (layout : FrameLayout) (effect : StackEffect) : Except Error FrameLayout := do
  let base ← layout.extend (minimalAfter effect)
  let values ← (TypeStack.revert base.values effect).mapError StackFault.error
  return ⟨values, base.isExact && !effect.isClear⟩

end FrameLayout

end BytecodeFlow
