import BytecodeFlow.Error

/-!
# Handler ranges

An exception handler protects the instructions whose order lies in a half-open range.
-/

namespace BytecodeFlow

/-- An exception handler: the orders `[start, stop)` it protects, the order it starts at, and the
class it catches, if it does not catch everything. -/
structure HandlerRange where
  start : Int
  stop : Int
  handler : Int
  catchType : Option String
deriving DecidableEq, Repr

namespace HandlerRange

/-- The range with the given bounds, which have to be in order and not negative. -/
def of (start stop handler : Int) (catchType : Option String) : Except Error HandlerRange :=
  if start < 0 ∨ stop < 0 ∨ handler < 0 then
    .error (.precondition (.negativeHandlerOrder start stop handler))
  else if stop < start then
    .error (.precondition (.invertedHandlerRange start stop))
  else
    .ok ⟨start, stop, handler, catchType⟩

/-- Whether the instruction at `order` is protected. -/
def contains (range : HandlerRange) (order : Int) : Bool :=
  range.start ≤ order && order < range.stop

/-- How a message names the class that is caught. -/
def catchText (range : HandlerRange) : String :=
  range.catchType.getD "any"

/-- The text of a range. -/
def text (range : HandlerRange) : String :=
  s!"[{range.start}, {range.stop}) -> {range.handler} catch {range.catchText}"

end HandlerRange

end BytecodeFlow
