import Dataflow.ControlFlow.Loop
import Dataflow.Lowering.Branch

/-!
# Joins

A phi becomes a carry if it stands in the header of a loop and a value comes round the loop to it,
and a merge otherwise. A carry takes the condition that decides on another round and all values. A
merge takes each value through the steer that controls the way it comes by, or directly if no branch
controls that way.
-/

namespace Dataflow

namespace Function

variable (f : Function)

/-- The condition of the branch that a block ends in. -/
def branchCond? (b : BlockId) : Option Operand :=
  match (f.terminator? b).bind f.instruction? with
  | some (.branch cond _ _) => some cond
  | _ => none

/-- The branch that decides whether control comes from `source` to `target`, and the side it then
takes. A plain branch is followed up through blocks with one predecessor if `trace` asks for it; at
most `bound` of them, and none twice. -/
def controlling? (ways : Ways) (trace : Bool) :
    Nat → List BlockId → BlockId → BlockId → Option (InstId × Bool)
  | 0, _, _, _ => none
  | bound + 1, seen, source, target => do
    let id ← f.terminator? source
    match ← f.instruction? id with
    | .branch _ onTrue _ => return (id, onTrue = target)
    | .jump _ =>
      if trace then
        match ways.into source with
        | [before] =>
          if source ∈ seen then none
          else controlling? ways trace bound (source :: seen) before source
        | _ => none
      else none
    | _ => none

/-- The branch and the side that control the way from `source` to `target`. -/
def controlling (trace : Bool) (source target : BlockId) : Option (InstId × Bool) :=
  f.controlling? f.ways trace (f.blocks.length + 1) [] source target

/-- The condition that decides whether a loop goes round again: that of the branch before the
preheader, or else of the first branch that leaves the loop. -/
def loopDecider (l : NaturalLoop) : Option Operand :=
  let guard := l.preheader.bind fun p =>
    match f.predecessors p with
    | [before] => f.branchCond? before
    | _ => none
  guard.or (l.exiting.findSome? f.branchCond?)

end Function

/-- The loop that a phi in block `b` carries values round, if `b` is its header and an arm comes
from inside it. -/
def LoopForest.carrying? (forest : LoopForest) (b : BlockId) (arms : List Arm) :
    Option NaturalLoop :=
  (forest.innermost? b).filter fun l => l.header = b ∧ arms.any (·.source ∈ l.body)

namespace Draft

variable (f : Function)

/-- Turns the node of a phi into a carry and wires the condition of the loop and all values in. -/
def lowerCarry (id : InstId) (join : NodeId) (l : NaturalLoop) (arms : List Arm) (d : Draft) :
    Draft :=
  let d := { d with graph := d.graph.modifyNode join fun n =>
      { n with kind := .carry, label := "C", symbol := "" } }
  let d := match f.loopDecider l with
    | some cond => d.wire f cond join
    | none => d.report (.noLoopCondition f.name (f.operandText (.result id)))
  arms.foldl (fun d a => d.wire f a.value join) d

/-- Wires one arm of a phi in block `b` in, through the steer that controls its way if there is
one. -/
def lowerArm (options : LowerOptions) (b : BlockId) (join : NodeId) (d : Draft) (a : Arm) : Draft :=
  match f.controlling options.traceBranches a.source b with
  | none => d.wire f a.value join
  | some (branch, taken) =>
    match d.branchSteers f options branch with
    | (d, none) => d.wire f a.value join
    | (d, some pair) => (d.wire f a.value (pair.side taken)).link (pair.side taken) join

/-- Feeds a user of a phi, unless it is a phi itself or has no operator. -/
def feedJoinUser (join : NodeId) (d : Draft) (user : InstId) : Draft :=
  if (f.instruction? user).any (·.isPhi) then d
  else (d.operator? user).elim d (d.link join)

/-- Wires a phi and its users. Other instructions change nothing. -/
def lowerJoin (forest : LoopForest) (options : LowerOptions) (d : Draft) (id : InstId) : Draft :=
  match f.slots[id]?, d.operator? id with
  | some { instruction := .phi _ arms, block, .. }, some join =>
    let d := match forest.carrying? block arms with
      | some l => d.lowerCarry f id join l arms
      | none => arms.foldl (lowerArm f options block join) d
    (f.users (.result id)).foldl (feedJoinUser f join) d
  | _, _ => d

end Draft

end Dataflow
