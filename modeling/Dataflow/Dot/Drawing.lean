import Dataflow.Dot.Picture
import Dataflow.Graph.Basic
import Dataflow.Text.Printer

/-!
# Drawing graphs

The picture of a dataflow graph, and the picture of how control flows through a function. Nodes of
a dataflow graph without edges are left out, except those that frame the function or join values.
-/

namespace Dataflow

/-- The outline of an operator. -/
def Operator.shape : Operator → Shape
  | functionInput | functionOutput | load | store => .ellipse
  | trueSteer => .triangle
  | falseSteer => .invtriangle
  | merge => .octagon
  | stream => .circle
  | unknown | constant | binaryOp | carry | invariant | order => .box

/-- Whether an operator is drawn even without edges. -/
def Operator.isFrame : Operator → Bool
  | functionInput | functionOutput | merge | carry => true
  | _ => false

namespace Graph

variable (g : Graph)

/-- The nodes that are drawn, in the order of their numbers. -/
def visible : List (NodeId × Node) :=
  g.entries.filter fun (i, n) => g.degree i > 0 || n.kind.isFrame

/-- The edge between the places of its ends among the nodes that are drawn, if both are. -/
def drawnEdge? (drawn : List NodeId) (edge : NodeId × NodeId) : Option (Nat × Nat) := do
  let a ← drawn.idxOf? edge.1
  let b ← drawn.idxOf? edge.2
  return (a, b)

/-- The picture of a dataflow graph. -/
def picture : Picture :=
  let visible := g.visible
  { figures := visible.map fun (_, n) => { label := n.shown, shape := n.kind.shape }
    edges := g.edges.filterMap (drawnEdge? (visible.map (·.1))) }

/-- A dataflow graph in DOT. -/
def dot : String := g.picture.text

end Graph

namespace Function

variable (f : Function)

/-- The text in the box of a block: its label and its instructions, a line each. -/
def boxText (k : Block) : String :=
  k.name ++ ":\n" ++ String.join (k.insts.map fun id => "  " ++ f.instructionText id ++ "\n")

/-- The picture of how control flows through a function. -/
def picture : Picture where
  figures := f.blocks.map fun k => { label := f.boxText k, shape := .box }
  edges := f.ways

/-- The flow of control through a function in DOT. -/
def dot : String := f.picture.text

end Function

end Dataflow
