import Dataflow.Ssa.Instruction

/-!
# The journal

What the library reports while it works, as values. Each event has a level and a text; who wants to
see it decides by the level.
-/

namespace Dataflow

/-- The position of a node in a dataflow graph. -/
abbrev NodeId := Nat

/-- How much attention an event wants. -/
inductive Level where
  /-- Something was asked for and not done. -/
  | error
  /-- Something is probably wrong. -/
  | warn
  /-- Something was changed. -/
  | info
  /-- A step was taken. -/
  | debug
deriving DecidableEq, Repr

/-- Something that happened. Functions, blocks and values are given by name. -/
inductive Event where
  /-- A block is appended to the block before it. -/
  | merging (block into function : String)
  /-- Some block of the function was merged. -/
  | modified (function : String)
  /-- Loads and stores were tied to memory tokens. -/
  | threaded (count : Nat) (function : String)
  /-- An edge was asked for without one of its ends. -/
  | missingEndpoint
  /-- An edge was asked for with an end that is not in the graph. -/
  | removedEndpoint (source target : NodeId)
  /-- A removal was asked for without a node. -/
  | missingNode
  /-- A stage of lowering begins. -/
  | stage (function name : String)
  /-- An operand of a node has no node that produces it. -/
  | noProducer (function value : String) (node : NodeId)
  /-- Nothing decides whether the loop of a carry goes round again. -/
  | noLoopCondition (function value : String)
  /-- Nodes that never got a role were removed. -/
  | pruned (count : Nat) (function : String)
  /-- The graph is finished. -/
  | finished (function : String) (nodes edges : Nat)
deriving DecidableEq, Repr

/-- What happened, in order. -/
abbrev Journal := List Event

namespace Event

/-- The level of an event. -/
def level : Event → Level
  | missingEndpoint | removedEndpoint _ _ | missingNode | noLoopCondition _ _ => .warn
  | merging _ _ _ | modified _ | threaded _ _ => .info
  | stage _ _ | noProducer _ _ _ | pruned _ _ | finished _ _ _ => .debug

/-- The text of an event. -/
def text : Event → String
  | merging block into function => s!"merging block '{block}' into '{into}' in @{function}"
  | modified function => s!"@{function} was modified"
  | threaded count function =>
    s!"threaded memory tokens through {count} loads/stores in @{function}"
  | missingEndpoint => "add_edge called with a missing endpoint"
  | removedEndpoint source target =>
    s!"add_edge called with a removed node (NodeIndex({source}) -> NodeIndex({target}))"
  | missingNode => "remove_node called without a node"
  | stage function name => s!"@{function}: {name}"
  | noProducer function value node =>
    s!"@{function}: no producer for {value} feeding NodeIndex({node})"
  | noLoopCondition function value => s!"@{function}: no loop condition found for carry {value}"
  | pruned count function => s!"@{function}: pruned {count} unclassified nodes"
  | finished function nodes edges => s!"@{function}: {nodes} nodes, {edges} edges"

end Event

/-- The name of a level. -/
def Level.name : Level → String
  | error => "ERROR"
  | warn => "WARN"
  | info => "INFO"
  | debug => "DEBUG"

/-- An event as one line of a log. -/
def Event.line (e : Event) : String := s!"{e.level.name}: {e.text}"

end Dataflow
