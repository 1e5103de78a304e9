import Dataflow.Lowering.Draft

/-!
# Feeding a node

`Draft.wire` adds the edges from whatever produces a value to a node. A leaf has a node of its own,
a select is produced by its steers, and an instruction with an operator by its node. An instruction
without one lets its operands through, so the search goes on there. An instruction is looked at once
in a search, which makes it end on circular functions too.
-/

namespace Dataflow

/-- The state of one search for the producers of a value. -/
structure Feed where
  /-- The draft so far. -/
  draft : Draft
  /-- The instructions the search has come to. -/
  visited : List InstId := []
  /-- Whether a producer was found. -/
  fed : Bool := false

namespace Feed

variable (s : Feed)

/-- Adds the edge from the node of a leaf, which is made if there is none yet. -/
def fromLeaf (f : Function) (v : Operand) (target : NodeId) : Feed :=
  let (draft, i) := s.draft.nodeFor f v
  let (draft, found) := draft.connect i (some target)
  { s with draft, fed := s.fed || found }

/-- Adds the edge from a node. -/
def fromNode (i : NodeId) (target : NodeId) : Feed :=
  let (draft, found) := s.draft.connect (some i) (some target)
  { s with draft, fed := s.fed || found }

/-- Adds the edges from both steers of a pair. -/
def fromSteers (pair : SteerPair) (target : NodeId) : Feed :=
  let (draft, first) := s.draft.connect (some pair.onTrue) (some target)
  let (draft, second) := draft.connect (some pair.onFalse) (some target)
  { s with draft, fed := s.fed || (first && second) }

end Feed

/-- Wires a value into a node by a search, and reports a value that nothing produces. -/
def Draft.wireBy (f : Function) (search : Operand → NodeId → Feed → Feed) (v : Operand)
    (target : NodeId) (d : Draft) : Draft :=
  let s := search v target { draft := d }
  if s.fed then s.draft else s.draft.report (.noProducer f.name (f.operandText v) target)

/-- Searches for the producers of a value and adds their edges to a node. Along a branch of the
search each step comes to another instruction or makes the steers of another select, so `depth` is
bounded by the number of instructions. -/
def feed (f : Function) (depth : Nat) (v : Operand) (target : NodeId) (s : Feed) : Feed :=
  match v with
  | .function _ => s
  | .param _ | .const _ | .global _ => s.fromLeaf f v target
  | .result id =>
    match depth with
    | 0 => s
    | depth + 1 =>
      if id ∈ s.visited then s
      else
        let s := { s with visited := id :: s.visited }
        match f.instruction? id with
        | none => s
        | some (.select _ _ _ _) =>
          match s.draft.selectSteers f (Draft.wireBy f (feed f depth)) id with
          | (draft, none) => { s with draft }
          | (draft, some pair) => { s with draft }.fromSteers pair target
        | some i =>
          match s.draft.operator? id with
          | some node => s.fromNode node target
          | none => i.operands.foldl (fun s v => feed f depth v target s) s

/-- How deep a search can go: past every instruction for each select that it can come to. -/
def Function.feedDepth (f : Function) : Nat := (f.slots.length + 1) * (f.slots.length + 1)

/-- Adds the edges from whatever produces a value to a node. -/
def Draft.wire (f : Function) (v : Operand) (target : NodeId) (d : Draft) : Draft :=
  d.wireBy f (feed f f.feedDepth) v target

end Dataflow
