import Dataflow.Ssa.Instruction

/-!
# Operators

The kinds of nodes in a dataflow graph, and the nodes themselves.
-/

namespace Dataflow

/-- What a node of a dataflow graph does. -/
inductive Operator where
  /-- Stands for an instruction whose part is not known. -/
  | unknown
  /-- Gives the value of a parameter. -/
  | functionInput
  /-- Takes the returned value. -/
  | functionOutput
  /-- Gives a constant. -/
  | constant
  /-- Computes a result from its inputs. -/
  | binaryOp
  /-- Reads memory. -/
  | load
  /-- Writes memory. -/
  | store
  /-- Passes its input on if the condition holds. -/
  | trueSteer
  /-- Passes its input on if the condition does not hold. -/
  | falseSteer
  /-- Joins values that arrive by different ways. -/
  | merge
  /-- Joins the first value of a loop and the values that come round. -/
  | carry
  /-- Gives one value on every round of a loop. -/
  | invariant
  /-- Orders two effects. -/
  | order
  /-- Gives one token each time the function is entered. -/
  | stream
deriving DecidableEq, Repr

namespace Operator

/-- Every operator, in a fixed order. -/
def all : List Operator :=
  [unknown, functionInput, functionOutput, constant, binaryOp, load, store, trueSteer, falseSteer,
    merge, carry, invariant, order, stream]

/-- The name of an operator. -/
def name : Operator → String
  | unknown => "Unknown"
  | functionInput => "FunctionInput"
  | functionOutput => "FunctionOutput"
  | constant => "Constant"
  | binaryOp => "BinOp"
  | load => "Load"
  | store => "Store"
  | trueSteer => "TrueSteer"
  | falseSteer => "FalseSteer"
  | merge => "Merge"
  | carry => "Carry"
  | invariant => "Invariant"
  | order => "Order"
  | stream => "Stream"

/-- The operator with the given name. -/
def ofName? (text : String) : Option Operator := all.find? (·.name == text)

/-- Whether the operator passes its input on only one way of a condition. -/
def isSteer : Operator → Bool
  | trueSteer | falseSteer => true
  | _ => false

end Operator

/-- A node of a dataflow graph. -/
structure Node where
  /-- What the node does. -/
  kind : Operator
  /-- The value the node stands for, if it stands for one. -/
  origin : Option Operand := none
  /-- What the node is called. -/
  label : String
  /-- A sign such as `+` or `<=` that is shown in place of the label. -/
  symbol : String := ""
deriving DecidableEq, Repr

/-- The text shown for a node: the sign if there is one, else the label, else the operator. -/
def Node.shown (n : Node) : String :=
  if n.symbol ≠ "" then n.symbol else if n.label ≠ "" then n.label else n.kind.name

end Dataflow
