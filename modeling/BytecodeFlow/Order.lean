/-!
# Instruction orders

The order of an instruction is its position in the stream of its method, counted from zero. Two
negative orders are reserved for the sentinels that every method graph adds to the stream. There is
a last order, and what counts on from it either stays there or fails.
-/

namespace BytecodeFlow

/-- The order of the method-entry sentinel. -/
def methodEntryOrder : Int := -1

/-- The order of the method-exit sentinel. -/
def methodExitOrder : Int := -2

/-- The greatest order that an instruction can have. -/
def lastOrder : Nat := 2147483647

/-- The order behind an order, if there is one. -/
def nextOrder? (order : Int) : Option Int :=
  if order < lastOrder then some (order + 1) else none

/-- The order behind an order; behind the last one comes itself. -/
def nextOrder (order : Int) : Int :=
  min (order + 1) lastOrder

/-- Adds an order to an ascending list that holds no order twice. -/
def insertOrder (order : Int) : List Int → List Int
  | [] => [order]
  | first :: orders =>
    if order < first then order :: first :: orders
    else if order = first then first :: orders
    else first :: insertOrder order orders

/-- The orders of a list, ascending and each of them once. -/
def ascending (orders : List Int) : List Int :=
  orders.foldr insertOrder []

end BytecodeFlow
