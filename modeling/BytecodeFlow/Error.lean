/-!
# Errors

Every way in which building or analysing a method can fail, as a cause with the data that the
message shows, and the wording of each cause. `Error` groups the causes by what went wrong: a rule
that the caller has to keep, a value that does not belong to a graph, a question that an operation
has no answer to, a structure that an analysis relies on, or one of the self-contained failures of
graphs, descriptors, simulated stacks and labels.
-/

namespace BytecodeFlow

/-- The three parts of a method identifier. -/
inductive MethodPart where
  | className
  | methodName
  | descriptor
deriving DecidableEq, Repr

/-- The name of a part in messages. -/
def MethodPart.text : MethodPart → String
  | .className => "class name"
  | .methodName => "method name"
  | .descriptor => "descriptor"

/-- The two ends of an edge. -/
inductive EdgeEnd where
  | source
  | target
deriving DecidableEq, Repr

/-- The name of an edge's end in messages. -/
def EdgeEnd.text : EdgeEnd → String
  | .source => "source"
  | .target => "target"

/-- The rules that a caller has to keep, with what broke them. -/
inductive Precondition where
  | emptyMethodPart (part : MethodPart)
  | unlabelledInstruction (order : Int) (method : String)
  | reservedOrder (order : Int)
  | sentinelOperation
  | negativeHandlerOrder (start stop handler : Int)
  | invertedHandlerRange (start stop : Int)
  | unnamedVariable (slot : Nat)
  | invertedLifetime (name : String) (start stop : Int)
  | emittedSentinel (mnemonic : String)
  | emptyLabel
  | emptyTableSwitch
  | scatteredTableSwitch
  | jumpToEnd (label : String)
  | emptyStream
  | foreignInstruction (instruction owner method : String)
  | misplacedInstruction (position : Nat) (method : String) (order : Int)
  | handlerOutside (range method : String) (count : Nat)
deriving DecidableEq, Repr

/-- What a broken rule says. -/
def Precondition.text : Precondition → String
  | .emptyMethodPart part => s!"method {part.text} must not be empty"
  | .unlabelledInstruction order method => s!"instruction {order} of {method} has an empty label"
  | .reservedOrder order => s!"instruction order {order} is reserved for sentinels"
  | .sentinelOperation =>
    "sentinel operations are created by Instruction::method_entry/method_exit"
  | .negativeHandlerOrder start stop handler =>
    s!"handler range [{start}, {stop}) -> {handler} uses a negative order"
  | .invertedHandlerRange start stop =>
    s!"handler range start {start} lies after its end {stop}"
  | .unnamedVariable slot => s!"variable in slot {slot} has no name"
  | .invertedLifetime name start stop =>
    s!"variable '{name}' starts at {start} after its end {stop}"
  | .emittedSentinel mnemonic => s!"{mnemonic} cannot be emitted into a method body"
  | .emptyLabel => "labels must not be empty"
  | .emptyTableSwitch => "tableswitch needs at least one case"
  | .scatteredTableSwitch => "tableswitch keys must be consecutive"
  | .jumpToEnd label => s!"label '{label}' marks the end of the method and cannot be jumped to"
  | .emptyStream => "cannot determine the method of an empty instruction stream"
  | .foreignInstruction instruction owner method =>
    s!"{instruction} belongs to {owner} instead of {method}"
  | .misplacedInstruction position method order =>
    s!"instruction at position {position} of {method} has order {order}"
  | .handlerOutside range method count =>
    s!"handler range {range} lies outside {method} with {count} instructions"

/-- What does not belong to the graph that was asked for it. -/
inductive UnknownNode where
  | unlocated (instruction method : String)
  | edgeContent (role : EdgeEnd) (content : String)
  | edgeNode (role : EdgeEnd) (node count : Nat)
  | absent (content : String)
deriving DecidableEq, Repr

/-- What a message says of something unknown to a graph. -/
def UnknownNode.text : UnknownNode → String
  | .unlocated instruction method => s!"{instruction} of {method} is not part of this graph"
  | .edgeContent role content => s!"edge {role.text} {content} is not a node of the graph"
  | .edgeNode role node count =>
    s!"{role.text} node n{node} does not exist in graph with {count} nodes"
  | .absent content => s!"{content} is not a node of this graph"

/-- The questions that some operations have no answer to. -/
inductive Unsupported where
  | uniformEffect (mnemonic : String)
  | throwSuccessors
deriving DecidableEq, Repr

/-- What a message says of a question without an answer. -/
def Unsupported.text : Unsupported → String
  | .uniformEffect mnemonic => s!"{mnemonic} has no uniform consume/push signature"
  | .throwSuccessors => "athrow successors depend on the enclosing handler ranges"

/-- The structural facts that an analysis relies on, when they fail. -/
inductive Invariant where
  | leavesMethod (instruction method : String) (order : Int)
  | unreachable (instruction method : String)
  | unreachableFromHandlers (instruction method : String)
  | notExit (node : Nat)
  | noCommonAncestor (left right : Nat)
deriving DecidableEq, Repr

/-- What a message says of a failed structural fact. -/
def Invariant.text : Invariant → String
  | .leavesMethod instruction method order =>
    s!"{instruction} of {method} continues at order {order} outside the method"
  | .unreachable instruction method =>
    s!"{instruction} of {method} is not reachable from method-entry"
  | .unreachableFromHandlers instruction method =>
    s!"{instruction} of {method} is reachable neither from method-entry nor from a handler"
  | .notExit node => s!"node n{node} is not a method-exit node of the graph"
  | .noCommonAncestor left right =>
    s!"nodes n{left} and n{right} have no common ancestor in the post-dominator tree"

/-- Where a descriptor leaves its grammar. -/
inductive DescriptorFault where
  | trailingField
  | noOpeningParenthesis
  | unterminatedParameters
  | trailingMethod
  | missingType
  | unterminatedClassName
  | emptyClassName
  | unexpected (found : Char)
deriving DecidableEq, Repr

/-- What a message says of a malformed descriptor. -/
def DescriptorFault.text (descriptor : String) : DescriptorFault → String
  | .trailingField => s!"trailing characters in field descriptor '{descriptor}'"
  | .noOpeningParenthesis => s!"method descriptor '{descriptor}' does not start with '('"
  | .unterminatedParameters => s!"unterminated parameter list in '{descriptor}'"
  | .trailingMethod => s!"trailing characters in method descriptor '{descriptor}'"
  | .missingType => s!"missing type in '{descriptor}'"
  | .unterminatedClassName => s!"unterminated class name in '{descriptor}'"
  | .emptyClassName => s!"empty class name in '{descriptor}'"
  | .unexpected found => s!"unexpected '{found}' in '{descriptor}'"

/-- Every failure of the library. -/
inductive Error where
  | precondition (cause : Precondition)
  | invalidArgument (cause : UnknownNode)
  | duplicateEdge (source target : String)
  | unsupported (cause : Unsupported)
  | invariant (cause : Invariant)
  | orderCollision (order : Int)
  | malformedDescriptor (descriptor : String) (cause : DescriptorFault)
  | stackUnderflow (needed available : Nat)
  | stackMismatch (expected found : String)
  | duplicateLabel (label : String)
  | undefinedLabel (label : String)
deriving DecidableEq, Repr

/-- The wording of a failure. -/
def Error.message : Error → String
  | .precondition cause => s!"Precondition violated - {cause.text}"
  | .invalidArgument cause => s!"Invalid argument - {cause.text}"
  | .duplicateEdge source target => s!"Edge {source} -> {target} already exists"
  | .unsupported cause => s!"Unsupported operation - {cause.text}"
  | .invariant cause => cause.text
  | .orderCollision order => s!"Multiple nodes share the order {order}"
  | .malformedDescriptor descriptor cause => s!"Malformed descriptor - {cause.text descriptor}"
  | .stackUnderflow needed available =>
    s!"Type stack underflow - needed {needed} words, {available} available"
  | .stackMismatch expected found =>
    s!"Type stack mismatch - expected {expected}, found {found}"
  | .duplicateLabel label => s!"Label '{label}' is already defined"
  | .undefinedLabel label => s!"Label '{label}' is not defined"

end BytecodeFlow
