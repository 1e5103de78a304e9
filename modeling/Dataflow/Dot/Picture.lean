/-!
# Pictures in DOT

A `Picture` is a directed graph of labelled shapes, numbered from zero. `Picture.text` writes it in
DOT: a line for each node and each edge, with escapes for quotes, backslashes and line ends.
-/

namespace Dataflow

/-- The outline of a node. -/
inductive Shape where
  | box | ellipse | triangle | invtriangle | octagon | circle
deriving DecidableEq, Repr

/-- The name of an outline in DOT. -/
def Shape.name : Shape → String
  | box => "box"
  | ellipse => "ellipse"
  | triangle => "triangle"
  | invtriangle => "invtriangle"
  | octagon => "octagon"
  | circle => "circle"

/-- A node of a picture. -/
structure Figure where
  /-- The text inside. -/
  label : String
  /-- The outline. -/
  shape : Shape
deriving DecidableEq, Repr

/-- A directed graph of figures. -/
structure Picture where
  /-- The nodes; a node is numbered by its place. -/
  figures : List Figure
  /-- The edges, each from the first node to the second. -/
  edges : List (Nat × Nat)
deriving DecidableEq, Repr

namespace Picture

/-- A character inside a label. A line end ends a line that is set flush left. -/
def escapeChar : Char → String
  | '"' => "\\\""
  | '\\' => "\\\\"
  | '\n' => "\\l"
  | c => c.toString

/-- A label as it stands between quotes. -/
def escape (label : String) : String := String.join (label.toList.map escapeChar)

/-- The line of a node. -/
def figureLine (numbered : Figure × Nat) : String :=
  s!"    {numbered.2} [ label = \"" ++ escape numbered.1.label ++ "\" shape = " ++
    numbered.1.shape.name ++ "]\n"

/-- The line of an edge. -/
def edgeLine (edge : Nat × Nat) : String := s!"    {edge.1} -> {edge.2} [ ]\n"

/-- The picture in DOT. -/
def text (p : Picture) : String :=
  "digraph \x7b\n" ++ String.join (p.figures.zipIdx.map figureLine) ++
    String.join (p.edges.map edgeLine) ++ "\x7d\n"

end Picture

end Dataflow
