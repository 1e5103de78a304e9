import Dataflow.Graph.Producer

/-!
# Drafts

The state of lowering: the graph so far, the pair of steers of each branch and select, and the node
that starts every branch. The first half of this file changes the graph and keeps a journal; the
second half makes pairs of steers, given a way to wire a value into a node.
-/

namespace Dataflow

/-- Choices in lowering. -/
structure LowerOptions where
  /-- Whether a stream node feeds the steers of every branch. -/
  entryStream : Bool := true
  /-- Whether the last store feeds every later load. -/
  memoryDependencies : Bool := false
  /-- Whether a value that comes to a join by a plain branch goes through the steer of the branch
  that decides on it. -/
  traceBranches : Bool := true
deriving DecidableEq, Repr

/-- The two nodes that pass a value on by a condition. -/
structure SteerPair where
  /-- Passes a value on if the condition holds. -/
  onTrue : NodeId
  /-- Passes a value on if the condition does not hold. -/
  onFalse : NodeId
deriving DecidableEq, Repr

/-- The steer of one side of a condition. -/
def SteerPair.side (p : SteerPair) (taken : Bool) : NodeId := if taken then p.onTrue else p.onFalse

/-- The state of lowering. -/
structure Draft where
  /-- The graph so far. -/
  graph : Graph := {}
  /-- The steers of the branches and selects that were come to, the last in front. -/
  steers : List (InstId × SteerPair) := []
  /-- The stream node, once a branch has asked for it. -/
  stream : Option NodeId := none
  /-- The events so far. -/
  journal : Journal := []

namespace Draft

variable (d : Draft)

/-! ### Changes to the graph -/

/-- Adds an event to the journal. -/
def report (e : Event) : Draft := { d with journal := d.journal ++ [e] }

/-- Adds a node. -/
def addNode (node : Node) : Draft × NodeId :=
  let (graph, i) := d.graph.addNode node
  ({ d with graph }, i)

/-- The node of a value, which is made if there is none yet. -/
def nodeFor (f : Function) (v : Operand) : Draft × Option NodeId :=
  let (graph, i) := d.graph.nodeFor f v
  ({ d with graph }, i)

/-- Adds an edge, and says whether both its ends are there. -/
def connect (a b : Option NodeId) : Draft × Bool :=
  let (graph, event) := d.graph.connect a b
  ({ d with graph, journal := d.journal ++ event.toList }, event.isNone)

/-- Adds an edge between two nodes. -/
def link (a b : NodeId) : Draft := (d.connect (some a) (some b)).1

/-- Adds the edges from both steers of a pair to a node. -/
def linkPair (pair : SteerPair) (target : NodeId) : Draft :=
  (d.link pair.onTrue target).link pair.onFalse target

/-- The node of an instruction that has an operator. -/
def operator? (id : InstId) : Option NodeId :=
  (d.graph.find? (.result id)).filter fun i =>
    (d.graph.kind? i).any (· ≠ .unknown)

/-! ### Pairs of steers -/

/-- Gives the node of a condition an operator if it has none. -/
def promote (f : Function) (cond : Operand) : Draft :=
  match d.nodeFor f cond with
  | (d, none) => d
  | (d, some i) =>
    { d with graph := d.graph.modifyNode i fun n =>
        if n.kind = .unknown then { n with kind := .binaryOp } else n }

/-- Makes the pair of steers of a branch or select, records it, and wires the condition into both
and each value into its side. -/
def openSteers (f : Function) (wire : Operand → NodeId → Draft → Draft) (id : InstId)
    (cond : Operand) (onTrue onFalse : Option Operand) : Draft × SteerPair :=
  let d := d.promote f cond
  let (d, t) := d.addNode { kind := .trueSteer, label := "T" }
  let (d, e) := d.addNode { kind := .falseSteer, label := "F" }
  let pair : SteerPair := { onTrue := t, onFalse := e }
  let d := { d with steers := (id, pair) :: d.steers }
  let d := wire cond e (wire cond t d)
  let d := onTrue.elim d (wire · t d)
  let d := onFalse.elim d (wire · e d)
  (d, pair)

/-- Feeds a user of a select from both its steers, unless the user is a phi or has no operator. -/
def feedUser (f : Function) (pair : SteerPair) (d : Draft) (user : InstId) : Draft :=
  if (f.instruction? user).any (·.isPhi) then d
  else (d.operator? user).elim d (d.linkPair pair)

/-- The pair of steers of a select. It is made when it is first asked for, and then feeds every user
of the select that has an operator. -/
def selectSteers (f : Function) (wire : Operand → NodeId → Draft → Draft) (id : InstId) :
    Draft × Option SteerPair :=
  match d.steers.lookup id with
  | some pair => (d, some pair)
  | none =>
    match f.instruction? id with
    | some (.select cond _ onTrue onFalse) =>
      let (d, pair) := d.openSteers f wire id cond (some onTrue) (some onFalse)
      ((f.users (.result id)).foldl (feedUser f pair) d, some pair)
    | _ => (d, none)

end Draft

end Dataflow
