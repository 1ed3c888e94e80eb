/-!
# Drawings

The text of a directed graph in the DOT language. Labels are escaped, so that they can hold any
text. A carriage return leaves no trace in the drawing.
-/

namespace BytecodeFlow

namespace Dot

/-- A text with every occurrence of a character replaced. -/
def replaceAll (found : Char) (replacement : List Char) (text : List Char) : List Char :=
  text.flatMap fun c => if c = found then replacement else [c]

/-- The characters that a label cannot hold as they are, with what stands for them, in the order in
which they are replaced. The backslash is the first, so that those that the other replacements add
stay single. -/
def replacements : List (Char × List Char) :=
  [('\\', ['\\', '\\']), ('"', ['\\', '"']), ('\n', ['\\', 'n']), ('\r', []), ('<', ['\\', '<']),
    ('>', ['\\', '>'])]

/-- The text of a label. -/
def escape (text : String) : String :=
  String.ofList (replacements.foldl (fun text (c, r) => replaceAll c r text) text.toList)

/-- The part that a node plays in a drawing. -/
inductive Role where
  | plain
  | entry
  | exit
deriving DecidableEq, Repr

/-- The attributes that colour a node. -/
def Role.fill : Role → String
  | .plain => ""
  | .entry => ", style=filled, fillcolor=lightgreen"
  | .exit => ", style=filled, fillcolor=lightcoral"

/-- A numbered node of a drawing. -/
structure Node where
  number : Nat
  label : String
  role : Role
deriving DecidableEq, Repr

/-- The line of a node. -/
def Node.text (node : Node) : String :=
  s!"    n{node.number} [label=\"" ++ escape node.label ++ "\"" ++ node.role.fill ++ "];\n"

/-- An edge of a drawing. -/
structure Arrow where
  source : Nat
  target : Nat
  label : Option String
deriving DecidableEq, Repr

/-- The line of an edge. -/
def Arrow.text (arrow : Arrow) : String :=
  s!"    n{arrow.source} -> n{arrow.target}" ++
    match arrow.label with
    | some label => " [label=\"" ++ escape label ++ "\"];\n"
    | none => ";\n"

end Dot

/-- A drawing of a graph of some kind, with an optional title. -/
structure Drawing where
  kind : String
  title : Option String
  nodes : List Dot.Node
  arrows : List Dot.Arrow
deriving DecidableEq, Repr

namespace Drawing

/-- The line of the title. -/
def titleText (drawing : Drawing) : String :=
  match drawing.title with
  | some title => "    label=\"" ++ drawing.kind ++ ": " ++ Dot.escape title ++ "\";\n"
  | none => ""

/-- The text of a drawing. -/
def text (drawing : Drawing) : String :=
  "digraph " ++ drawing.kind ++ " \x7b\n" ++ drawing.titleText ++
    "    labelloc=t;\n" ++
    "    node [shape=box, fontname=\"Courier\", fontsize=10];\n" ++
    "    edge [fontname=\"Courier\", fontsize=9];\n\n" ++
    String.join (drawing.nodes.map Dot.Node.text) ++
    String.join (drawing.arrows.map Dot.Arrow.text) ++ "\x7d\n"

end Drawing

end BytecodeFlow
