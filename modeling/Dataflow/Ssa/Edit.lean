import Dataflow.Ssa.Function

/-!
# Changing a function

Adding, moving and removing blocks and instructions. No change takes an instruction out of
`slots`, so numbers stay valid; removing a block moves the later blocks down by one and adjusts
every reference to them.
-/

namespace Dataflow.Function

variable (f : Function)

/-- Appends an empty block. Its number is the number of blocks before. -/
def addBlock (name : String) : Function :=
  { f with blocks := f.blocks ++ [{ name, insts := [] }] }

/-- The number the next new instruction gets. -/
def nextId : InstId := f.slots.length

/-- Puts a new instruction at `position` among those of block `b`. -/
def insert (b : BlockId) (position : Nat) (name : Option String) (i : Instruction) : Function :=
  { f with
    blocks := f.blocks.modify b fun k => { k with insts := k.insts.insertIdx position f.nextId }
    slots := f.slots ++ [{ name, instruction := i, block := b }] }

/-- Puts a new instruction at the end of block `b`. -/
def push (b : BlockId) (name : Option String) (i : Instruction) : Function :=
  f.insert b (f.body b).length name i

/-- Gives an instruction another meaning. -/
def setInstruction (id : InstId) (i : Instruction) : Function :=
  { f with slots := f.slots.modify id fun s => { s with instruction := i } }

/-- Gives the result of an instruction another name, or none. -/
def setName (id : InstId) (name : Option String) : Function :=
  { f with slots := f.slots.modify id fun s => { s with name } }

/-- Takes an instruction out of its block. -/
def detach (id : InstId) : Function :=
  match f.slots[id]? with
  | none => f
  | some slot =>
    { f with
      blocks := f.blocks.modify slot.block fun k => { k with insts := k.insts.filter (· ≠ id) } }

/-- Changes every live instruction. -/
def mapLive (g : Instruction → Instruction) : Function :=
  { f with
    slots := f.slots.mapIdx fun id s =>
      if id ∈ f.live then { s with instruction := g s.instruction } else s }

/-- Makes every live instruction that reads `old` as data read `new`. -/
def replaceUses (old new : Operand) : Function :=
  f.mapLive (·.mapOperands fun v => if v = old then new else v)

/-- Makes every branch and phi arm of a live instruction that names block `old` name `new`. -/
def redirect (old new : BlockId) : Function :=
  f.mapLive (·.mapBlocks fun b => if b = old then new else b)

/-- Moves every instruction of block `source` to the end of block `target`. -/
def splice (source target : BlockId) : Function :=
  let moved := f.body source
  { f with
    blocks := (f.blocks.modify source fun k => { k with insts := [] }).modify target
      fun k => { k with insts := k.insts ++ moved }
    slots := f.slots.mapIdx fun id s => if id ∈ moved then { s with block := target } else s }

/-- The number a block has once block `removed` is gone. -/
def shiftPast (removed b : BlockId) : BlockId := if removed < b then b - 1 else b

/-- Removes an empty block that nothing refers to. -/
def removeBlock (b : BlockId) : Function :=
  { f with
    blocks := f.blocks.eraseIdx b
    slots := f.slots.map fun s =>
      { s with
        block := shiftPast b s.block
        instruction := s.instruction.mapBlocks (shiftPast b) } }

end Dataflow.Function
