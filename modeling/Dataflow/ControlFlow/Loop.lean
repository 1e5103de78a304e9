import Dataflow.ControlFlow.Reach

/-!
# Natural loops

A back edge goes from a block to a block that dominates it. All back edges into one block, the
header, make one loop: the header and every reachable block from which control can get to the
source of a back edge without passing the header.
-/

namespace Dataflow

/-- A natural loop. -/
structure NaturalLoop where
  /-- The block through which control enters the loop. -/
  header : BlockId
  /-- The sources of the back edges, in block order. -/
  latches : List BlockId
  /-- The blocks of the loop, in block order. -/
  body : List BlockId
  /-- The only block outside from which control enters, if it does nothing but enter. -/
  preheader : Option BlockId
  /-- The blocks of the loop from which control can leave it, in block order. -/
  exiting : List BlockId
deriving DecidableEq, Repr

/-- The loops of a function, in the order of their headers. -/
structure LoopForest where
  /-- The loops. -/
  loops : List NaturalLoop := []
deriving DecidableEq, Repr

/-- The loop with the fewest blocks, the first of several. -/
def NaturalLoop.smallest? : List NaturalLoop → Option NaturalLoop
  | [] => none
  | l :: rest =>
    match smallest? rest with
    | none => some l
    | some m => if m.body.length < l.body.length then some m else some l

/-- The innermost loop that a block is in. -/
def LoopForest.innermost? (forest : LoopForest) (b : BlockId) : Option NaturalLoop :=
  NaturalLoop.smallest? (forest.loops.filter (b ∈ ·.body))

namespace Function

variable (f : Function)

/-- The sources of back edges into `h`. -/
def latches (h : BlockId) : List BlockId :=
  let dominated := f.dominated h
  (f.predecessors h).filter (· ∈ dominated)

/-- The blocks of the loop with header `h` and the given latches. -/
def loopBody (h : BlockId) (latches : List BlockId) : List BlockId :=
  let reachable := f.reachable
  let ways : Ways := f.ways.filter (·.1 ∈ reachable)
  let found := explore ways.into f.blocks.length latches [h]
  f.blockIds.filter (· ∈ found)

/-- The only predecessor of `h` outside `body`, if control can go nowhere else from there. -/
def preheader? (h : BlockId) (body : List BlockId) : Option BlockId :=
  match (f.predecessors h).filter (· ∉ body) with
  | [p] => if f.successors p = [h] then some p else none
  | _ => none

/-- The loop with header `h`, if there is a back edge into it. -/
def loopAt? (h : BlockId) : Option NaturalLoop :=
  match f.latches h with
  | [] => none
  | latches =>
    let body := f.loopBody h latches
    some {
      header := h
      latches
      body
      preheader := f.preheader? h body
      exiting := body.filter fun b => (f.successors b).any (· ∉ body) }

/-- The loops of a function. -/
def loopForest : LoopForest := { loops := f.blockIds.filterMap f.loopAt? }

end Function

end Dataflow
