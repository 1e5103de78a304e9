import Dataflow.Lowering.Feed

/-!
# Branches and selects

Every branch and every select gets its pair of steers. The steers of a branch also feed the first
operator of the block on their side.
-/

namespace Dataflow

namespace Draft

variable (f : Function) (d : Draft)

/-- The stream node, which is made when it is first asked for. -/
def streamNode : Draft × NodeId :=
  match d.stream with
  | some i => (d, i)
  | none =>
    let (d, i) := d.addNode { kind := .stream, label := "STR" }
    ({ d with stream := some i }, i)

/-- Adds the edges from the stream node to both steers of a pair. -/
def linkStream (pair : SteerPair) : Draft :=
  let (d, stream) := d.streamNode
  (d.link stream pair.onTrue).link stream pair.onFalse

/-- The pair of steers of a branch, which is made when it is first asked for. -/
def branchSteers (options : LowerOptions) (id : InstId) : Draft × Option SteerPair :=
  match d.steers.lookup id with
  | some pair => (d, some pair)
  | none =>
    match f.instruction? id with
    | some (.branch cond _ _) =>
      let (d, pair) := d.openSteers f (wire f) id cond none none
      (if options.entryStream then d.linkStream pair else d, some pair)
    | _ => (d, none)

/-- The first instruction of a block, past its phis, that has an operator. -/
def firstOperator (b : BlockId) : Option NodeId :=
  ((f.body b).filter fun id => ¬ (f.instruction? id).any (·.isPhi)).findSome? d.operator?

/-- Makes the steers of a branch and feeds the first operator on each side. Other instructions
change nothing. -/
def lowerBranch (options : LowerOptions) (d : Draft) (step : InstId × Instruction) : Draft :=
  match step.2 with
  | .branch _ onTrue onFalse =>
    match d.branchSteers f options step.1 with
    | (d, none) => d
    | (d, some pair) =>
      let intoTrue := d.firstOperator f onTrue
      let intoFalse := d.firstOperator f onFalse
      let d := intoTrue.elim d (d.link pair.onTrue)
      intoFalse.elim d (d.link pair.onFalse)
  | _ => d

/-- Makes the steers of a select. Other instructions change nothing. -/
def lowerSelect (d : Draft) (step : InstId × Instruction) : Draft :=
  match step.2 with
  | .select _ _ _ _ => (d.selectSteers f (wire f) step.1).1
  | _ => d

/-- Makes the steers of every branch, then those of every select. -/
def lowerBranches (options : LowerOptions) : Draft :=
  f.steps.foldl (lowerSelect f) (f.steps.foldl (lowerBranch f options) d)

end Draft

end Dataflow
