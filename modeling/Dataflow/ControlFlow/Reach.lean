import Dataflow.Ssa.Function

/-!
# Reachability and dominance

`explore` collects what a step relation leads to. A block is reachable if control can get to it
from the first block, and `h` dominates a reachable block `b` if control cannot get to `b` without
passing `h`.
-/

namespace Dataflow

/-- The members of `work` and all that repeated `next` leads to from there, past the members of
`seen`. Each round adds a new member, so `bound` need not exceed their number. -/
def explore (next : Nat → List Nat) : Nat → List Nat → List Nat → List Nat
  | 0, _, seen => seen
  | bound + 1, work, seen =>
    match work.dropWhile (· ∈ seen) with
    | [] => seen
    | a :: rest => explore next bound (next a ++ rest) (a :: seen)

namespace Function

variable (f : Function)

/-- The blocks that control can get to from the first block by way of blocks that are `allowed`.
Ways that lead to no block are left out. -/
def reachableThrough (allowed : BlockId → Bool) : List BlockId :=
  let count := f.blocks.length
  explore (fun b => (f.successors b).filter fun c => c < count && allowed c) count
    (f.entry?.toList.filter allowed) []

/-- The blocks that control can get to from the first block. -/
def reachable : List BlockId := f.reachableThrough fun _ => true

/-- The blocks that control can get to from the first block without passing `h`. -/
def reachableAvoiding (h : BlockId) : List BlockId := f.reachableThrough (· ≠ h)

/-- The reachable blocks to which every way passes `h`. A reachable block dominates itself. -/
def dominated (h : BlockId) : List BlockId :=
  let around := f.reachableAvoiding h
  f.reachable.filter (· ∉ around)

end Function

end Dataflow
