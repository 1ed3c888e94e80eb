import BytecodeFlow.MethodBody

/-!
# Sources of method bodies

A source lists the methods that it knows and gives their bodies.
-/

namespace BytecodeFlow

/-- A supply of method bodies. -/
structure MethodSource where
  /-- the known methods, in the order in which they are to be worked through -/
  methods : List MethodId
  body? : MethodId → Option MethodBody

namespace MethodSource

/-- The bodies of a list, in its order. Of two bodies of one method the first counts. -/
def ofList (bodies : List MethodBody) : MethodSource where
  methods := bodies.map MethodBody.method
  body? method := bodies.find? (·.method == method)

/-- Bodies indexed by their methods, in the order of the methods. Of two bodies of one method the
last counts. -/
def indexed (bodies : List MethodBody) : MethodSource where
  methods := MethodId.sorted (bodies.map MethodBody.method).eraseDups
  body? method := bodies.reverse.find? (·.method == method)

end MethodSource

end BytecodeFlow
