import Dataflow.Ssa.Opcode
import Dataflow.Ssa.Ty

/-!
# Operands and instructions

An `Operand` says where a value comes from. An `Instruction` is one step of a function with the
types and operands it was written with; it does not hold its own name or place. `operands` lists
what it consumes as data, `mapOperands` and `mapBlocks` change the references it holds.
-/

namespace Dataflow

/-- The position of a block in its function. -/
abbrev BlockId := Nat

/-- The number of an instruction in its function, which it keeps for the life of the function. -/
abbrev InstId := Nat

/-- A literal with its type. Two literals of one type and one spelling are the same value. -/
structure Constant where
  /-- The type written before the literal. -/
  ty : Ty
  /-- The literal as written. -/
  literal : String
deriving DecidableEq, Repr

/-- Where an instruction takes a value from. -/
inductive Operand where
  /-- The parameter at the given position. -/
  | param (index : Nat)
  /-- The result of an instruction. -/
  | result (id : InstId)
  /-- A literal. -/
  | const (value : Constant)
  /-- The address of a global. -/
  | global (name : String)
  /-- A function that is called. Only callees have this form. -/
  | function (name : String)
deriving DecidableEq, Repr

namespace Operand

/-- Whether the operand has a value before any instruction has run. -/
def isLeaf : Operand → Bool
  | param _ | const _ | global _ => true
  | result _ | function _ => false

/-- The instruction whose result the operand is. -/
def result? : Operand → Option InstId
  | result id => some id
  | _ => none

end Operand

/-- An operand with the type written before it. -/
structure TypedOperand where
  /-- The type. -/
  ty : Ty
  /-- The operand. -/
  value : Operand
deriving DecidableEq, Repr

/-- One arm of a phi: the value it takes when control arrives from `source`. -/
structure Arm where
  /-- The value. -/
  value : Operand
  /-- The block that control arrives from. -/
  source : BlockId
deriving DecidableEq, Repr

/-- The test of a comparison. -/
inductive Comparison where
  /-- A test on integers or pointers. -/
  | int (predicate : IntPredicate)
  /-- A test on floats. -/
  | float (predicate : FloatPredicate)
deriving DecidableEq, Repr

/-- One step of a function. -/
inductive Instruction where
  /-- Combines two operands of one type. -/
  | binary (op : BinaryOp) (ty : Ty) (lhs rhs : Operand)
  /-- Compares two operands of one type. -/
  | compare (test : Comparison) (ty : Ty) (lhs rhs : Operand)
  /-- Reads memory. -/
  | load (ty : Ty) (address : TypedOperand)
  /-- Writes memory. -/
  | store (value address : TypedOperand)
  /-- Computes an address from a base and indices. -/
  | elementPtr (source : Ty) (base : TypedOperand) (indices : List TypedOperand)
  /-- Converts a value to another type. -/
  | cast (op : CastOp) (value : TypedOperand) (target : Ty)
  /-- Takes the value of the arm that control arrived by. -/
  | phi (ty : Ty) (arms : List Arm)
  /-- Takes one of two values by a condition. -/
  | select (cond : Operand) (ty : Ty) (onTrue onFalse : Operand)
  /-- Calls a function. -/
  | call (retTy : Ty) (callee : Operand) (args : List TypedOperand)
  /-- Reserves memory, for `count` values if a count is given. -/
  | alloca (ty : Ty) (count : Option TypedOperand)
  /-- Goes to a block. -/
  | jump (target : BlockId)
  /-- Goes to one of two blocks by a condition. -/
  | branch (cond : Operand) (onTrue onFalse : BlockId)
  /-- Leaves the function, with a value if one is given. -/
  | ret (value : Option TypedOperand)
  /-- Is never reached. -/
  | unreachable
deriving DecidableEq, Repr

namespace TypedOperand

/-- Changes the operand and keeps the type. -/
def map (g : Operand → Operand) (t : TypedOperand) : TypedOperand := { t with value := g t.value }

end TypedOperand

namespace Instruction

/-- The operands read as data, in the order they are written. The callee of a call is none. -/
def operands : Instruction → List Operand
  | binary _ _ lhs rhs => [lhs, rhs]
  | compare _ _ lhs rhs => [lhs, rhs]
  | load _ address => [address.value]
  | store value address => [value.value, address.value]
  | elementPtr _ base indices => base.value :: indices.map (·.value)
  | cast _ value _ => [value.value]
  | phi _ arms => arms.map (·.value)
  | select cond _ onTrue onFalse => [cond, onTrue, onFalse]
  | call _ _ args => args.map (·.value)
  | alloca _ count => count.toList.map (·.value)
  | branch cond _ _ => [cond]
  | ret value => value.toList.map (·.value)
  | jump _ | unreachable => []

/-- Changes every operand that is read as data. -/
def mapOperands (g : Operand → Operand) : Instruction → Instruction
  | binary op ty lhs rhs => binary op ty (g lhs) (g rhs)
  | compare test ty lhs rhs => compare test ty (g lhs) (g rhs)
  | load ty address => load ty (address.map g)
  | store value address => store (value.map g) (address.map g)
  | elementPtr source base indices => elementPtr source (base.map g) (indices.map (·.map g))
  | cast op value target => cast op (value.map g) target
  | phi ty arms => phi ty (arms.map fun a => { a with value := g a.value })
  | select cond ty onTrue onFalse => select (g cond) ty (g onTrue) (g onFalse)
  | call retTy callee args => call retTy callee (args.map (·.map g))
  | alloca ty count => alloca ty (count.map (·.map g))
  | branch cond onTrue onFalse => branch (g cond) onTrue onFalse
  | ret value => ret (value.map (·.map g))
  | jump target => jump target
  | unreachable => unreachable

/-- The blocks an instruction refers to: branch targets, and the sources of phi arms. -/
def blockRefs : Instruction → List BlockId
  | jump target => [target]
  | branch _ onTrue onFalse => [onTrue, onFalse]
  | phi _ arms => arms.map (·.source)
  | _ => []

/-- Changes every block an instruction refers to. -/
def mapBlocks (g : BlockId → BlockId) : Instruction → Instruction
  | jump target => jump (g target)
  | branch cond onTrue onFalse => branch cond (g onTrue) (g onFalse)
  | phi ty arms => phi ty (arms.map fun a => { a with source := g a.source })
  | other => other

/-- Whether control leaves the block here. -/
def isTerminator : Instruction → Bool
  | jump _ | branch _ _ _ | ret _ | unreachable => true
  | _ => false

/-- The blocks control may go to next, one entry for each way out. -/
def successors : Instruction → List BlockId
  | jump target => [target]
  | branch _ onTrue onFalse => [onTrue, onFalse]
  | _ => []

/-- Whether the instruction joins values by the way control arrived. -/
def isPhi : Instruction → Bool
  | phi _ _ => true
  | _ => false

/-- Whether the instruction only passes its operands on: an address computation or a conversion. -/
def isTransparent : Instruction → Bool
  | elementPtr _ _ _ | cast _ _ _ => true
  | _ => false

/-- The type of the result, `void` for none. -/
def resultTy : Instruction → Ty
  | binary _ ty _ _ => ty
  | compare _ _ _ _ => .bool
  | load ty _ => ty
  | store _ _ => .void
  | elementPtr _ base _ => base.ty
  | cast _ _ target => target
  | phi ty _ => ty
  | select _ ty _ _ => ty
  | call retTy _ _ => retTy
  | alloca _ _ => .ptr
  | jump _ | branch _ _ _ | ret _ | unreachable => .void

end Instruction

end Dataflow
