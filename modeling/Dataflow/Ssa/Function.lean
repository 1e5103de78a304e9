import Dataflow.Ssa.Instruction

/-!
# Functions

A `Function` holds every instruction it ever had in `slots`, in the order they were made, and the
program itself as `blocks` that list instruction numbers. An instruction that no block lists any
more is detached: its number stays valid, and nothing runs it. This file holds the type and the
questions about it; `Dataflow.Ssa.Edit` changes it.
-/

namespace Dataflow

/-- A parameter of a function. -/
structure Param where
  /-- The name, without a sigil. -/
  name : String
  /-- The type. -/
  ty : Ty
deriving DecidableEq, Repr

/-- An instruction together with its name and its place. -/
structure Slot where
  /-- The name of the result, if it has one. -/
  name : Option String
  /-- What it does. -/
  instruction : Instruction
  /-- The block it was put in. -/
  block : BlockId
deriving DecidableEq, Repr

/-- A straight piece of program. -/
structure Block where
  /-- The label. -/
  name : String
  /-- The instructions in the order they run. -/
  insts : List InstId
deriving DecidableEq, Repr

/-- Ways that control can go from one block to another. -/
abbrev Ways := List (BlockId × BlockId)

/-- The blocks that ways into `b` come from, in the order of the ways. -/
def Ways.into (ways : Ways) (b : BlockId) : List BlockId := (ways.filter (·.2 = b)).map (·.1)

/-- A function in single assignment form. -/
structure Function where
  /-- The name, without a sigil. -/
  name : String
  /-- The type of the returned value. -/
  ret : Ty
  /-- The parameters. -/
  params : List Param
  /-- The blocks; control enters at the first. -/
  blocks : List Block := []
  /-- Every instruction, detached ones included. -/
  slots : List Slot := []
deriving DecidableEq, Repr

namespace Function

variable (f : Function)

/-- The number of the first block, if there is a block. -/
def entry? : Option BlockId := if f.blocks.isEmpty then none else some 0

/-- The numbers of all blocks. -/
def blockIds : List BlockId := List.range f.blocks.length

/-- The label of a block, empty for a number that names none. -/
def blockName (b : BlockId) : String := (f.blocks[b]?).elim "" (·.name)

/-- The instructions of a block in the order they run, none for a number that names no block. -/
def body (b : BlockId) : List InstId := (f.blocks[b]?).elim [] (·.insts)

/-- The instruction with the given number. -/
def instruction? (id : InstId) : Option Instruction := (f.slots[id]?).map (·.instruction)

/-- The numbers of the instructions that some block lists, in program order. -/
def live : List InstId := f.blocks.flatMap (·.insts)

/-- The instructions that some block lists, in program order, each with its number. -/
def steps : List (InstId × Instruction) :=
  f.live.filterMap fun id => (f.instruction? id).map (id, ·)

/-- The last instruction of a block, if control leaves the block there. -/
def terminator? (b : BlockId) : Option InstId :=
  (f.body b).getLast?.filter fun id => (f.instruction? id).any (·.isTerminator)

/-- The blocks control may go to from the end of a block, one entry for each way out. -/
def successors (b : BlockId) : List BlockId :=
  ((f.terminator? b).bind f.instruction?).elim [] (·.successors)

/-- The blocks control may come from, each once and in block order. -/
def predecessors (b : BlockId) : List BlockId :=
  f.blockIds.filter fun p => b ∈ f.successors p

/-- The ways control can go, each once and in block order. -/
def ways : Ways := f.blockIds.flatMap fun b => (f.successors b).eraseDups.map (b, ·)

/-- The live instructions that read a value as data. -/
def users (v : Operand) : List InstId :=
  f.live.filter fun id => (f.instruction? id).any fun i => v ∈ i.operands

/-- The first block with the given label. -/
def findBlock? (name : String) : Option BlockId := f.blocks.findIdx? (·.name == name)

/-- The parameter or live result with the given name, a parameter before a result. -/
def named? (name : String) : Option Operand :=
  match f.params.findIdx? (·.name == name) with
  | some index => some (.param index)
  | none => (f.live.find? fun id => (f.slots[id]?).any (·.name == some name)).map .result

/-- The names that parameters and instructions bear, detached instructions included. -/
def takenNames : List String := f.params.map (·.name) ++ f.slots.filterMap (·.name)

/-- A name that nothing in the function bears: `base` itself, or `base` with the least positive
number that makes it free. One more candidate than there are taken names is enough. -/
def freshName (base : String) : String :=
  let candidates := (List.range (f.takenNames.length + 1)).map fun n => s!"{base}{n + 1}"
  ((base :: candidates).find? (· ∉ f.takenNames)).getD base

end Function

/-! ### Ways and predecessors -/

/-- Removing repetitions leaves one of each member. -/
theorem filter_eraseDups (b : Nat) (l : List Nat) :
    l.eraseDups.filter (· = b) = if b ∈ l then [b] else [] := by
  match l with
  | [] => rfl
  | a :: rest =>
    have ih := filter_eraseDups b (rest.filter fun c => !c == a)
    rw [List.eraseDups_cons, List.filter_cons, ih]
    by_cases h : a = b
    · subst h
      simp
    · have h' : ¬ b = a := fun e => h e.symm
      simp [h, h']
termination_by l.length
decreasing_by exact Nat.lt_succ_of_le (List.length_filter_le _ _)

/-- The ways into a block come from its predecessors. -/
theorem Function.into_ways (f : Function) (b : BlockId) : f.ways.into b = f.predecessors b := by
  unfold ways Ways.into predecessors
  induction f.blockIds with
  | nil => rfl
  | cons p rest ih =>
    have one : (((f.successors p).eraseDups.map (p, ·)).filter (·.2 = b)).map (·.1)
        = if b ∈ f.successors p then [p] else [] := by
      rw [List.filter_map, List.map_map]
      have target := filter_eraseDups b (f.successors p)
      simp only [Function.comp_def] at target ⊢
      rw [target]
      split <;> rfl
    rw [List.flatMap_cons, List.filter_append, List.map_append, one, ih, List.filter_cons]
    by_cases h : b ∈ f.successors p <;> simp [h]

end Dataflow
