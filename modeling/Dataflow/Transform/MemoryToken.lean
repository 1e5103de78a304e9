import Dataflow.Transform.ChainMerge

/-!
# Memory tokens

Ties loads and stores to an order by tokens. A store becomes a call that gives a token, a load a
call that takes the token of the last store before it. A block starts with the token that the way
into it brings: the constant `true` in the first block and in blocks that nothing enters, and
elsewhere a phi over the last tokens of its predecessors.
-/

namespace Dataflow

namespace MemoryToken

/-- How the callee of a load with a token begins. -/
def loadCallee : String := "lso.load"

/-- How the callee of a store that gives a token begins. -/
def storeCallee : String := "lso.store"

/-- The token that stands for memory before any store. -/
def initial : Operand := .const { ty := .bool, literal := "true" }

/-- The state while the blocks are gone through. -/
structure State where
  /-- The function so far. -/
  function : Function
  /-- The token of the last store. -/
  token : Operand
  /-- How many loads and stores were tied to tokens. -/
  count : Nat

/-- Ties one instruction to the current token; other instructions than loads and stores stay. -/
def State.step (s : State) (id : InstId) : State :=
  match s.function.instruction? id with
  | some (.load ty address) =>
    let i := .call ty (.function s!"{loadCallee}.{ty.text}") [address, ⟨.bool, s.token⟩]
    { s with function := s.function.setInstruction id i, count := s.count + 1 }
  | some (.store value address) =>
    let name := s.function.freshName "lso.tok"
    let i := .call .bool (.function s!"{storeCallee}.{value.ty.text}") [address, value]
    { function := (s.function.setName id (some name)).setInstruction id i
      token := .result id
      count := s.count + 1 }
  | _ => s

end MemoryToken

namespace Function

variable (f : Function)

/-- The blocks that start with a phi over tokens: all that something enters, except the first. -/
def tokenBlocks : List BlockId :=
  f.blockIds.filter fun b => some b ≠ f.entry? ∧ f.predecessors b ≠ []

/-- Puts a phi for the token, still without arms, at the start of a block. -/
def addTokenPhi (b : BlockId) : Function :=
  f.insert b 0 (some (f.freshName "lso.token.phi")) (.phi .bool [])

/-- Puts a phi for the token at the start of each of the given blocks, and pairs each block with the
number of its phi. -/
def addTokenPhis : List BlockId → Function → Function × List (BlockId × InstId)
  | [], f => (f, [])
  | b :: rest, f =>
    let (g, phis) := addTokenPhis rest (f.addTokenPhi b)
    (g, (b, f.nextId) :: phis)

/-- The token a block starts with. -/
def firstToken (phis : List (BlockId × InstId)) (b : BlockId) : Operand :=
  (phis.lookup b).elim MemoryToken.initial .result

/-- Ties the loads and stores of the given blocks to tokens. Gives the function, the last token of
each block, and how many loads and stores there were. -/
def threadBlocks (phis : List (BlockId × InstId)) :
    List BlockId → Function → Function × List (BlockId × Operand) × Nat
  | [], f => (f, [], 0)
  | b :: rest, f =>
    let start : MemoryToken.State := { function := f, token := firstToken phis b, count := 0 }
    let done := (f.body b).foldl MemoryToken.State.step start
    let (g, tokens, count) := threadBlocks phis rest done.function
    (g, (b, done.token) :: tokens, done.count + count)

/-- The arms of the phi for the token of a block: the last token of each predecessor. -/
def tokenArms (tokens : List (BlockId × Operand)) (b : BlockId) : List Arm :=
  (f.predecessors b).map fun p =>
    { value := (tokens.lookup p).getD MemoryToken.initial, source := p }

/-- Gives the phi for the token of a block its arms. -/
def fillTokenPhi (tokens : List (BlockId × Operand)) (f : Function) (phi : BlockId × InstId) :
    Function :=
  f.setInstruction phi.2 (.phi .bool (f.tokenArms tokens phi.1))

/-- Ties every load and store to a memory token. A function without blocks stays, and one without
loads and stores gets the phis for the token but counts as unchanged. -/
def threadMemory : Change :=
  match f.entry? with
  | none => { function := f, changed := false, journal := [] }
  | some _ =>
    let (withPhis, phis) := addTokenPhis f.tokenBlocks f
    let (threaded, tokens, count) := threadBlocks phis withPhis.blockIds withPhis
    let final := phis.foldl (fillTokenPhi tokens) threaded
    { function := final
      changed := count ≠ 0
      journal := if count = 0 then [] else [.threaded count f.name] }

end Function

end Dataflow
