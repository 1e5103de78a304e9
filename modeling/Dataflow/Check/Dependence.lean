import Dataflow.Check.Structure

/-!
# Circular dependencies

An instruction other than a phi depends on the results it reads, except those of phis. A
depth-first search from each live instruction in program order looks for a way back to an
instruction that is still being searched. Marks are kept from one start to the next, and a search
that found a cycle leaves its instructions marked as being searched.
-/

namespace Dataflow

/-- The marks of the search. -/
structure Search where
  /-- The instructions the search has come to. -/
  visited : List InstId := []
  /-- The instructions whose dependencies are still being searched. -/
  active : List InstId := []
deriving DecidableEq, Repr

namespace Search

/-- Marks an instruction as come to and as being searched. -/
def enter (s : Search) (id : InstId) : Search :=
  { visited := id :: s.visited, active := id :: s.active }

/-- Marks an instruction as no longer being searched. -/
def leave (s : Search) (id : InstId) : Search := { s with active := s.active.filter (· ≠ id) }

/-- Goes through the dependencies of the last instruction of `path`, up to the first that closes a
cycle. An active dependency that is not on the path gives the whole path. -/
def follow (visit : InstId → Search → Option (List InstId) × Search) (path : List InstId) :
    List InstId → Search → Option (List InstId) × Search
  | [], s => (none, s)
  | d :: rest, s =>
    if d ∉ s.visited then
      match visit d s with
      | (some cycle, s) => (some cycle, s)
      | (none, s) => follow visit path rest s
    else if d ∈ s.active then (some (path.drop ((path.idxOf? d).getD 0) ++ [d]), s)
    else follow visit path rest s

end Search

namespace Function

variable (f : Function)

/-- Whether an instruction takes part in the dependency check. -/
def isOrdered (id : InstId) : Bool := (f.instruction? id).any (!·.isPhi)

/-- The instructions whose results a live instruction other than a phi reads, except phis. -/
def dependencies (id : InstId) : List InstId :=
  if id ∈ f.live ∧ f.isOrdered id then
    (((f.instruction? id).elim [] (·.operands)).filterMap (·.result?)).filter f.isOrdered
  else []

/-- Searches the dependencies of an instruction that the search has come to along `path`. Each
level comes to an instruction for the first time, so `depth` need not exceed their number. -/
def searchFrom : Nat → List InstId → InstId → Search → Option (List InstId) × Search
  | 0, _, _, s => (none, s)
  | depth + 1, path, id, s =>
    let path := path ++ [id]
    match Search.follow (searchFrom depth path) path (f.dependencies id) (s.enter id) with
    | (some cycle, s) => (some cycle, s)
    | (none, s) => (none, s.leave id)

/-- The cycles found from a list of starts, each as the instructions along it with the first one
again at the end. -/
def cyclesFrom : List InstId → Search → List (List InstId)
  | [], _ => []
  | id :: rest, s =>
    if f.isOrdered id ∧ id ∉ s.visited then
      match f.searchFrom (f.slots.length + 1) [] id s with
      | (some cycle, s) => cycle :: cyclesFrom rest s
      | (none, s) => cyclesFrom rest s
    else cyclesFrom rest s

/-- The cycles among the dependencies of live instructions. -/
def cycles : List (List InstId) := f.cyclesFrom f.live {}

/-- The violation that a cycle is. -/
def cycleViolation (cycle : List InstId) : Violation :=
  let path := " -> ".intercalate (cycle.map fun id => f.operandText (.result id))
  { kind := .circularDependency, message := s!"@{f.name}: circular dependency: {path}" }

/-- Every violation of a function: first those of its blocks, then those of phi arms, then
circular dependencies. -/
def violations : List Violation := f.structureViolations ++ f.cycles.map f.cycleViolation

end Function

/-- Every violation of the functions of a module. -/
def Module.violations (m : Module) : List Violation := m.functions.flatMap (·.violations)

end Dataflow
