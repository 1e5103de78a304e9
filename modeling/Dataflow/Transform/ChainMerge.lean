import Dataflow.Journal
import Dataflow.Ssa.Edit

/-!
# Merging chains of blocks

A block that is entered only by the plain branch at the end of another block is appended to that
block: the branch goes, the phis of the appended block are replaced by the one value they can take,
and every reference to the appended block now means the block it was appended to. This is repeated,
lowest block first, until no such pair is left.
-/

namespace Dataflow

namespace Function

variable (f : Function)

/-- The target of a block that ends in a plain branch, if no other of the ways leads there and it is
neither the block itself nor the first block. -/
def chainTarget? (ways : Ways) (b : BlockId) : Option BlockId :=
  match (f.terminator? b).bind f.instruction? with
  | some (.jump target) =>
    if target ≠ b ∧ some target ≠ f.entry? ∧ ways.into target = [b] then some target else none
  | _ => none

/-- The first block that another one can be appended to, with that other one. -/
def chainPair? : Option (BlockId × BlockId) :=
  let ways := f.ways
  f.blockIds.findSome? fun b => (f.chainTarget? ways b).map (b, ·)

/-- Replaces a phi by the value of its first arm and detaches it. A phi without arms stays. -/
def foldPhi (id : InstId) : Function :=
  match f.instruction? id with
  | some (.phi _ (arm :: _)) => (f.replaceUses (.result id) arm.value).detach id
  | _ => f

/-- Replaces each phi of a block by the value of its first arm. -/
def foldPhis (b : BlockId) : Function :=
  ((f.body b).filter fun id => (f.instruction? id).any (·.isPhi)).foldl foldPhi f

/-- Detaches the branch at the end of a block. -/
def dropBranch (b : BlockId) : Function := (f.terminator? b).elim f f.detach

/-- Appends block `target` to block `b`, whose branch goes there. -/
def mergePair (b target : BlockId) : Function :=
  ((((f.dropBranch b).foldPhis target).splice target b).redirect target b).removeBlock target

/-- Merges pairs until none is left, at most `bound` times, and reports each merge. -/
def mergePairs : Nat → Function → Function × Journal
  | 0, f => (f, [])
  | bound + 1, f =>
    match f.chainPair? with
    | none => (f, [])
    | some (b, target) =>
      let (merged, events) := mergePairs bound (f.mergePair b target)
      (merged, .merging (f.blockName target) (f.blockName b) f.name :: events)

end Function

/-- What a transformation of a function did. -/
structure Change where
  /-- The function afterwards. -/
  function : Function
  /-- Whether the transformation did something. -/
  changed : Bool
  /-- The events on the way. -/
  journal : Journal
deriving DecidableEq, Repr

/-- Appends every block that is entered only by a plain branch to the block before it. Each merge
takes a block away, so there are fewer merges than blocks. -/
def Function.mergeChains (f : Function) : Change :=
  match Function.mergePairs f.blocks.length f with
  | (merged, []) => { function := merged, changed := false, journal := [] }
  | (merged, events) =>
    { function := merged, changed := true, journal := events ++ [.modified f.name] }

end Dataflow
