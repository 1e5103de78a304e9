import Dataflow.Graph.Operator
import Dataflow.Transform.MemoryToken

/-!
# Roles

Which operator an instruction becomes, and how its node is labelled. A phi becomes a merge here;
whether it carries a value round a loop is decided when joins are wired.
-/

namespace Dataflow

/-- The operator an instruction becomes, with the texts of its node. -/
structure Role where
  /-- The operator, `unknown` for an instruction that takes no part in the graph. -/
  kind : Operator
  /-- The label of the node. -/
  label : String
  /-- The sign shown in place of the label, empty for none. -/
  symbol : String := ""
deriving DecidableEq, Repr

/-- The sign of an operation. -/
def BinaryOp.symbol : BinaryOp → String
  | add | fadd => "+"
  | sub | fsub => "-"
  | mul | fmul => "*"
  | udiv | sdiv | fdiv => "/"
  | urem | srem | frem => "%"
  | shl => "<<"
  | lshr | ashr => ">>"
  | and => "&"
  | or => "|"
  | xor => "^"

/-- The sign of a test on integers. -/
def IntPredicate.symbol : IntPredicate → String
  | eq => "=="
  | ne => "!="
  | ult | slt => "<"
  | ule | sle => "<="
  | ugt | sgt => ">"
  | uge | sge => ">="

/-- The sign of a test on floats, or its name where there is no sign for it. -/
def FloatPredicate.symbol : FloatPredicate → String
  | oeq | ueq => "=="
  | one | une => "!="
  | olt | ult => "<"
  | ole | ule => "<="
  | ogt | ugt => ">"
  | oge | uge => ">="
  | ord => "ord"
  | uno => "uno"
  | false => "false"
  | true => "true"

/-- Whether a call is a load or a store that is tied to a memory token. -/
def callRole (callee : Operand) : Role :=
  match callee with
  | .function name =>
    if MemoryToken.loadCallee.toList.isPrefixOf name.toList then { kind := .load, label := "ld" }
    else if MemoryToken.storeCallee.toList.isPrefixOf name.toList then
      { kind := .store, label := "st" }
    else { kind := .unknown, label := "call" }
  | _ => { kind := .unknown, label := "call" }

/-- The role of an instruction; `none` for one that can have no node. -/
def Instruction.role? : Instruction → Option Role
  | .binary op _ _ _ => some { kind := .binaryOp, label := op.name, symbol := op.symbol }
  | .compare (.int p) _ _ _ => some { kind := .binaryOp, label := "icmp", symbol := p.symbol }
  | .compare (.float p) _ _ _ => some { kind := .binaryOp, label := "fcmp", symbol := p.symbol }
  | .load _ _ => some { kind := .load, label := "ld" }
  | .store _ _ => some { kind := .store, label := "st" }
  | .phi _ _ => some { kind := .merge, label := "M" }
  | .call _ callee _ => some (callRole callee)
  | .ret (some _) => some { kind := .functionOutput, label := "ret" }
  | .alloca _ _ => some { kind := .unknown, label := "alloca" }
  | .elementPtr _ _ _ | .cast _ _ _ | .select _ _ _ _ | .jump _ | .branch _ _ _ | .ret none
  | .unreachable => none

end Dataflow
