import Dataflow.Lowering.Join
import Dataflow.Lowering.Role

/-!
# Lowering

Turns a function into a dataflow graph by a fixed sequence of stages. First instructions get nodes,
then branches and selects get steers, then operands, joins and memory are wired, and in the end
nodes without a role go.
-/

namespace Dataflow

/-- A stage of lowering. -/
inductive Stage where
  /-- Gives each instruction with a role a node. -/
  | nodes
  /-- Gives branches and selects their steers. -/
  | steers
  /-- Wires parameters, literals and globals. -/
  | leaves
  /-- Wires results. -/
  | results
  /-- Wires phis. -/
  | joins
  /-- Wires stores to loads, if that is asked for. -/
  | memory
  /-- Removes nodes without a role. -/
  | cleanup
deriving DecidableEq, Repr

namespace Stage

/-- The stages in order. -/
def all : List Stage := [nodes, steers, leaves, results, joins, memory, cleanup]

/-- The name of a stage in the journal. -/
def name : Stage → String
  | nodes => "CLASSIFY_NODES"
  | steers => "LOWER_BRANCHES_AND_SELECTS"
  | leaves => "WIRE_ARGUMENTS_AND_CONSTANTS"
  | results => "WIRE_DATA_DEPENDENCIES_AND_SPECIAL_OPS"
  | joins => "WIRE_JOIN_POINTS"
  | memory => "WIRE_MEMORY_HEURISTIC"
  | cleanup => "DONE"

end Stage

namespace Draft

variable (f : Function)

/-- Gives an instruction with a role a node that shows it. -/
def addRole (d : Draft) (step : InstId × Instruction) : Draft :=
  match step.2.role? with
  | none => d
  | some role =>
    match d.nodeFor f (.result step.1) with
    | (d, none) => d
    | (d, some i) =>
      { d with graph := d.graph.modifyNode i fun n =>
          { n with
            kind := if role.kind = .unknown then n.kind else role.kind
            label := role.label
            symbol := role.symbol } }

/-- The instructions other than phis that have an operator, each with its operands and node. -/
def sinks (d : Draft) : List (List Operand × NodeId) :=
  f.steps.filterMap fun (id, i) =>
    if i.isPhi then none else (d.operator? id).map (i.operands, ·)

/-- The node of a value is made if there is none yet. -/
def ensure (d : Draft) (v : Operand) : Draft := (d.nodeFor f v).1

/-- Adds the edges from the leaves among the operands of a node. -/
def wireLeaves (d : Draft) (sink : List Operand × NodeId) : Draft :=
  (sink.1.filter (·.isLeaf)).foldl
    (fun d v => (d.connect (d.graph.find? v) (some sink.2)).1) d

/-- Makes a node for each parameter and each leaf that is read, and wires leaves. -/
def wireAllLeaves (d : Draft) : Draft :=
  let params := (List.range f.params.length).map Operand.param
  let leaves := (f.steps.flatMap (·.2.operands)).filter (·.isLeaf)
  let d := (params ++ leaves).foldl (ensure f) d
  (d.sinks f).foldl wireLeaves d

/-- Wires the results among the operands of a node. -/
def wireResults (d : Draft) (sink : List Operand × NodeId) : Draft :=
  (sink.1.filter (·.result?.isSome)).foldl (fun d v => d.wire f v sink.2) d

/-- Adds an edge to a load from the last store before it. The second component is the last store. -/
def wireMemory (state : Draft × Option NodeId) (id : InstId) : Draft × Option NodeId :=
  let (d, last) := state
  match d.operator? id with
  | none => state
  | some i =>
    match d.graph.kind? i with
    | some .store => (d, some i)
    | some .load => (last.elim d (d.link · i), last)
    | _ => state

/-- Removes the nodes without a role. -/
def cleanUp (d : Draft) : Draft :=
  let idle := d.graph.ofKind .unknown
  let d := { d with graph := idle.foldl Graph.removeNode d.graph }
  if idle = [] then d else d.report (.pruned idle.length f.name)

/-- Runs one stage. -/
def run (forest : LoopForest) (options : LowerOptions) (d : Draft) : Stage → Draft
  | .nodes => f.steps.foldl (addRole f) d
  | .steers => d.lowerBranches f options
  | .leaves => d.wireAllLeaves f
  | .results => (d.sinks f).foldl (wireResults f) d
  | .joins => f.live.foldl (lowerJoin f forest options) d
  | .memory =>
    if options.memoryDependencies then (f.live.foldl wireMemory (d, none)).1 else d
  | .cleanup => d.cleanUp f

/-- Reports a stage and runs it. -/
def enter (forest : LoopForest) (options : LowerOptions) (d : Draft) (stage : Stage) : Draft :=
  (d.report (.stage f.name stage.name)).run f forest options stage

end Draft

/-- The outcome of lowering. -/
structure Lowered where
  /-- The dataflow graph. -/
  graph : Graph
  /-- The events on the way. -/
  journal : Journal
deriving DecidableEq, Repr

namespace Function

variable (f : Function)

/-- Lowers a function, with the given loops. -/
def lowerWith (forest : LoopForest) (options : LowerOptions) : Lowered :=
  let d := Stage.all.foldl (Draft.enter f forest options) {}
  let g := d.graph
  { graph := g
    journal := d.journal ++ [.finished f.name g.entries.length g.links.length] }

/-- Lowers a function with its own loops. -/
def lower (options : LowerOptions) : Lowered := f.lowerWith f.loopForest options

end Function

end Dataflow
