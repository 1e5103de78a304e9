import Dataflow.Graph.Operator
import Dataflow.Journal

/-!
# Dataflow graphs

A directed graph with at most one edge from one node to another, and a map from values to nodes.
Nodes and edges keep their numbers until they are removed, and a number that was freed last is
given out first. `links` holds the edges, newest first, so two edges differ by their ends alone and
the numbers matter only for the order in which edges are listed.
-/

namespace Dataflow

/-- An edge of a dataflow graph and its number. -/
structure Link where
  /-- The number of the edge. -/
  slot : Nat
  /-- The node the edge leaves. -/
  source : NodeId
  /-- The node the edge enters. -/
  target : NodeId
deriving DecidableEq, Repr

/-- A dataflow graph. -/
structure Graph where
  /-- The nodes by number; a number whose node was removed holds none. -/
  nodes : List (Option Node) := []
  /-- The numbers of removed nodes, the one freed last in front. -/
  freeNodes : List NodeId := []
  /-- The edges, newest first. -/
  links : List Link := []
  /-- How many edge numbers were ever given out. -/
  linkSlots : Nat := 0
  /-- The numbers of removed edges, the one freed last in front. -/
  freeLinks : List Nat := []
  /-- The node of each value that has one. -/
  owners : List (Operand × NodeId) := []
deriving DecidableEq, Repr

namespace Graph

variable (g : Graph)

/-! ### Questions -/

/-- The node of the given number. -/
def node? (i : NodeId) : Option Node := (g.nodes[i]?).join

/-- The operator of the node of the given number. -/
def kind? (i : NodeId) : Option Operator := (g.node? i).map (·.kind)

/-- The node that stands for a value. -/
def find? (v : Operand) : Option NodeId := g.owners.lookup v

/-- Whether there is an edge from `a` to `b`. -/
def hasEdge (a b : NodeId) : Bool := g.links.any fun l => l.source = a ∧ l.target = b

/-- The nodes with their numbers, in the order of the numbers. -/
def entries : List (NodeId × Node) :=
  g.nodes.zipIdx.filterMap fun (node, i) => node.map (i, ·)

/-- The nodes with an edge to `i`, in the order of their numbers. -/
def inputs (i : NodeId) : List NodeId := (List.range g.nodes.length).filter (g.hasEdge · i)

/-- The nodes with an edge from `i`, in the order of their numbers. -/
def outputs (i : NodeId) : List NodeId := (List.range g.nodes.length).filter (g.hasEdge i ·)

/-- How many edge ends are at `i`. An edge from a node to itself has two. -/
def degree (i : NodeId) : Nat :=
  g.links.countP (·.target = i) + g.links.countP (·.source = i)

/-- The nodes with the given operator, in the order of their numbers. -/
def ofKind (kind : Operator) : List NodeId :=
  (g.entries.filter fun (_, n) => n.kind = kind).map (·.1)

/-- Puts an edge into a list that is sorted by edge number. -/
def insertLink (l : Link) : List Link → List Link
  | [] => [l]
  | m :: rest => if l.slot ≤ m.slot then l :: m :: rest else m :: insertLink l rest

/-- The ends of the edges, in the order of the edge numbers. -/
def edges : List (NodeId × NodeId) :=
  (g.links.foldl (fun sorted l => insertLink l sorted) []).map fun l => (l.source, l.target)

/-! ### Changes -/

/-- Adds a node under the number freed last, or else under a new one, and gives the number. A node
that stands for a value takes that value over from another node. -/
def addNode (node : Node) : Graph × NodeId :=
  let (nodes, i, free) := match g.freeNodes with
    | [] => (g.nodes ++ [some node], g.nodes.length, [])
    | i :: free => (g.nodes.set i (some node), i, free)
  let owners := match node.origin with
    | none => g.owners
    | some v => (v, i) :: g.owners.filter (·.1 ≠ v)
  ({ g with nodes, owners, freeNodes := free }, i)

/-- Changes the node of the given number, if there is one. -/
def modifyNode (i : NodeId) (change : Node → Node) : Graph :=
  { g with nodes := g.nodes.modify i (·.map change) }

/-- Adds an edge under the number freed last, or else under a new one. -/
def addLink (a b : NodeId) : Graph :=
  match g.freeLinks with
  | [] => { g with links := ⟨g.linkSlots, a, b⟩ :: g.links, linkSlots := g.linkSlots + 1 }
  | slot :: free => { g with links := ⟨slot, a, b⟩ :: g.links, freeLinks := free }

/-- Adds an edge from `a` to `b` unless there is one. If one of the ends is missing, the graph stays
and the event says so. -/
def connect (a b : Option NodeId) : Graph × Option Event :=
  match a, b with
  | some a, some b =>
    if (g.node? a).isNone ∨ (g.node? b).isNone then (g, some (.removedEndpoint a b))
    else if g.hasEdge a b then (g, none)
    else (g.addLink a b, none)
  | _, _ => (g, some .missingEndpoint)

/-- Removes a node, the edges at it, and the mapping of its value if that leads to it. The numbers
of outgoing edges are freed before those of other incoming ones, newest first. -/
def removeNode (i : NodeId) : Graph :=
  match g.node? i with
  | none => g
  | some node =>
    let leaving := g.links.filter (·.source = i)
    let entering := g.links.filter fun l => l.target = i ∧ l.source ≠ i
    { g with
      nodes := g.nodes.set i none
      freeNodes := i :: g.freeNodes
      links := g.links.filter fun l => l.source ≠ i ∧ l.target ≠ i
      freeLinks := ((leaving ++ entering).map (·.slot)).reverse ++ g.freeLinks
      owners := g.owners.filter fun (v, j) => ¬ (node.origin = some v ∧ j = i) }

/-- What a removal did. -/
structure Removal where
  /-- The graph afterwards. -/
  graph : Graph
  /-- The node that was removed. -/
  removed : Option Node
  /-- What is to be reported. -/
  event : Option Event

/-- Removes a node that may not be given or not be there. -/
def remove : Option NodeId → Removal
  | none => { graph := g, removed := none, event := some .missingNode }
  | some i => { graph := g.removeNode i, removed := g.node? i, event := none }

end Graph

end Dataflow
