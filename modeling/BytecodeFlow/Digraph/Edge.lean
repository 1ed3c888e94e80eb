/-!
# Edges

The nodes of a graph are numbered from zero, and an edge joins two numbers with a weight. Labels
are kept apart from the edges, by the pair of nodes that they join, so that a label never takes
part in the identity of an edge.
-/

namespace BytecodeFlow

/-- A directed edge between two nodes. -/
structure Edge where
  source : Nat
  target : Nat
  weight : Nat
deriving DecidableEq, Repr

namespace Edge

/-- The weight of an edge that is given none. -/
def plainWeight : Nat := 1

/-- The edge in the opposite direction. -/
def reversed (edge : Edge) : Edge :=
  ⟨edge.target, edge.source, edge.weight⟩

/-- Whether an edge runs from `source` to `target`. -/
def joins (edge : Edge) (source target : Nat) : Bool :=
  edge.source == source && edge.target == target

/-- Whether an edge ends where it starts. -/
def isSelfLoop (edge : Edge) : Bool :=
  edge.source == edge.target

/-- The text of an edge, with its weight unless that is the plain one. -/
def text (edge : Edge) : String :=
  if edge.weight = plainWeight then s!"n{edge.source} -> n{edge.target}"
  else s!"n{edge.source} -[{edge.weight}]-> n{edge.target}"

/-- Whether `left` comes before `right` or equals it, by source, target and weight. -/
def le (left right : Edge) : Bool :=
  if left.source ≠ right.source then left.source < right.source
  else if left.target ≠ right.target then left.target < right.target
  else left.weight ≤ right.weight

end Edge

/-- The labels of node pairs; no pair occurs twice. -/
abbrev EdgeLabels := List ((Nat × Nat) × String)

namespace EdgeLabels

/-- The label of a pair. -/
def find? (labels : EdgeLabels) (source target : Nat) : Option String :=
  labels.lookup (source, target)

/-- Without the label of a pair. -/
def erase (labels : EdgeLabels) (source target : Nat) : EdgeLabels :=
  labels.filter (·.1 != (source, target))

/-- With a new label for a pair. -/
def insert (labels : EdgeLabels) (source target : Nat) (label : String) : EdgeLabels :=
  erase labels source target ++ [((source, target), label)]

/-- The labels of the opposite pairs. -/
def reversed (labels : EdgeLabels) : EdgeLabels :=
  labels.map fun ((source, target), label) => ((target, source), label)

/-- The labels in the order of their pairs. -/
def sorted (labels : EdgeLabels) : EdgeLabels :=
  labels.mergeSort fun left right =>
    if left.1.1 ≠ right.1.1 then left.1.1 < right.1.1 else left.1.2 ≤ right.1.2

end EdgeLabels

end BytecodeFlow
