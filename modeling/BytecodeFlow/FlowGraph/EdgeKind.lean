import BytecodeFlow.Instruction

/-!
# Kinds of control flow

The kind of an edge of a flow graph follows from the instruction that it leaves and the order that
it leads to, so graphs hold plain edges.
-/

namespace BytecodeFlow

/-- The kind of control flow along an edge. -/
inductive EdgeKind where
  | unconditional
  /-- the taken side of a conditional branch -/
  | taken
  /-- the side on which a conditional branch falls through -/
  | notTaken
  /-- a case of a switch, with its first key, or the default -/
  | switch (key : Option Int32)
  /-- into a subroutine or back -/
  | subroutine
  /-- a thrown exception that a handler catches, with the class that it catches -/
  | handler (catchType : Option String)
  /-- out of the method -/
  | exit
deriving DecidableEq, Repr

namespace EdgeKind

/-- The kind of the edge from an instruction to the order `target`. -/
def classify (source : Instruction) (target : Int) (handlers : List HandlerRange) : EdgeKind :=
  if target = methodExitOrder then .exit
  else match source.operation with
    | .branch _ _ => if target = source.order + 1 then .notTaken else .taken
    | .switch _ _ cases => .switch ((cases.find? (·.2 == target)).map Prod.fst)
    | .jumpSubroutine _ | .returnFromSubroutine _ _ => .subroutine
    | .throw =>
      .handler ((handlers.find? fun range =>
        range.contains source.order && range.handler == target).bind HandlerRange.catchType)
    | _ => .unconditional

/-- Whether an edge is a side of a conditional branch. -/
def isConditional : EdgeKind → Bool
  | .taken | .notTaken => true
  | _ => false

/-- Whether an edge leads into a handler. -/
def isExceptional : EdgeKind → Bool
  | .handler _ => true
  | _ => false

/-- Whether an edge is a case of a switch. -/
def isSwitch : EdgeKind → Bool
  | .switch _ => true
  | _ => false

/-- The label of an edge: the sides of a conditional branch are told apart. -/
def label? : EdgeKind → Option String
  | .taken => some "T"
  | .notTaken => some "F"
  | _ => none

/-- The text of a kind in drawings. -/
def text : EdgeKind → String
  | .unconditional => ""
  | .taken => "T"
  | .notTaken => "F"
  | .switch (some key) => s!"case {key.toInt}"
  | .switch none => "default"
  | .subroutine => "jsr"
  | .handler catchType => "catch " ++ catchType.getD "any"
  | .exit => "exit"

end EdgeKind

end BytecodeFlow
