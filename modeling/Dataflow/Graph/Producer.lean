import Dataflow.Graph.Basic
import Dataflow.Text.Printer

/-!
# Nodes for values

Which node a value of a function gets. Parameters become inputs, literals and globals constants,
and instructions placeholders. Callees, and instructions that only choose, convert, address or go
on, have no node.
-/

namespace Dataflow

/-- Whether an instruction can have a node. -/
def Instruction.hasNode : Instruction → Bool
  | .elementPtr _ _ _ | .cast _ _ _ | .select _ _ _ _ | .jump _ | .branch _ _ _ | .ret none
  | .unreachable => false
  | _ => true

/-- The node that a value gets when it is first asked for. -/
def Function.newNode? (f : Function) (v : Operand) : Option Node :=
  match v with
  | .function _ => none
  | .param index =>
    let label := (f.params[index]?).elim "" fun p => p.ty.text ++ " " ++ f.operandText v
    some { kind := .functionInput, origin := some v, label }
  | .const value =>
    some { kind := .constant, origin := some v, label := value.ty.text ++ " " ++ value.literal }
  | .global _ => some { kind := .constant, origin := some v, label := f.operandText v }
  | .result id =>
    if (f.instruction? id).any (·.hasNode) then
      some { kind := .unknown, origin := some v, label := "" }
    else none

/-- The node of a value, which is made if there is none yet. -/
def Graph.nodeFor (g : Graph) (f : Function) (v : Operand) : Graph × Option NodeId :=
  match g.find? v with
  | some i => (g, some i)
  | none =>
    match f.newNode? v with
    | none => (g, none)
    | some node =>
      let (g, i) := g.addNode node
      (g, some i)

end Dataflow
