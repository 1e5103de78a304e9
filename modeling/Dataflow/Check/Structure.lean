import Dataflow.Check.Violation
import Dataflow.Text.Printer

/-!
# The structure of blocks

The rules on the order of instructions in a block and on the arms of phis. A block ends where
control leaves it and nowhere before, its phis come first, and each arm of a phi names a block that
control can come from. Every violation is listed, in program order.
-/

namespace Dataflow.Function

variable (f : Function)

/-- The violations by the instructions `ids` of a block with label `label`, where `afterOther` says
that another instruction than a phi has come before. -/
def orderViolations (label : String) : Bool → List InstId → List Violation
  | _, [] => []
  | afterOther, id :: rest =>
    let isTerminator := (f.instruction? id).any (·.isTerminator)
    let isPhi := (f.instruction? id).any (·.isPhi)
    let early := if isTerminator && !rest.isEmpty then
        [Violation.mk .misplacedTerminator
          s!"@{f.name}: terminator '{f.instructionText id}' in the middle of block '{label}'"]
      else []
    let late := if isPhi && afterOther then
        [Violation.mk .misplacedPhi
          (s!"@{f.name}: phi '{f.instructionText id}' follows a non-phi instruction " ++
            s!"in block '{label}'")]
      else []
    early ++ late ++ orderViolations label (afterOther || !isPhi) rest

/-- The violations inside the block of the given number. -/
def blockViolations (b : BlockId) : List Violation :=
  let missing := if (f.terminator? b).isNone then
      [Violation.mk .missingTerminator
        s!"@{f.name}: block '{f.blockName b}' does not end in a terminator"]
    else []
  missing ++ f.orderViolations (f.blockName b) false (f.body b)

/-- The arms of a phi that name no predecessor of its block. -/
def strayArms (id : InstId) : List Violation :=
  match f.slots[id]? with
  | some { instruction := .phi _ arms, block, .. } =>
    let before := f.predecessors block
    (arms.filter (·.source ∉ before)).map fun a =>
      Violation.mk .invalidIncoming
        (s!"@{f.name}: '{f.instructionText id}' lists '{f.blockName a.source}' " ++
          s!"which is not a predecessor of '{f.blockName block}'")
  | _ => []

/-- The violations of the rules on blocks and phi arms. -/
def structureViolations : List Violation :=
  f.blockIds.flatMap f.blockViolations ++ f.live.flatMap f.strayArms

end Dataflow.Function
