/-!
# Settings of the analyses
-/

namespace BytecodeFlow

/-- What becomes of instructions that the method entry does not reach. -/
inductive UnreachablePolicy where
  | reject
  /-- tolerated if a handler reaches them -/
  | allowHandlerCode
  | allow
deriving DecidableEq, Repr

/-- The settings of an analysis. -/
structure Settings where
  unreachable : UnreachablePolicy := .allowHandlerCode
  /-- whether the sides of conditional branches are labelled -/
  labelBranches : Bool := true
  /-- whether the methods of a batch may be analysed side by side, which their results do not show -/
  parallel : Bool := true
deriving DecidableEq, Repr

/-- Settings that reject every unreachable instruction. -/
def Settings.strict : Settings := { unreachable := .reject }

/-- Settings that tolerate every unreachable instruction. -/
def Settings.permissive : Settings := { unreachable := .allow }

end BytecodeFlow
