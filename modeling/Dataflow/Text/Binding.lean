import Dataflow.Ssa.Edit
import Dataflow.Ssa.Module
import Dataflow.Text.Surface

/-!
# Binding names

Turns a tree as written into functions: numbers the parameters and blocks that have no name,
collects the names a function defines, and looks up each name it uses. There are six ways to fail.
Labels and results of a whole function are collected before any operand is looked up, so a use may
stand before its definition, and a name defined twice is reported before a name that is unknown.
-/

namespace Dataflow

/-- Why a tree is no module. -/
inductive BindingError where
  /-- The function uses a value that it does not define. -/
  | unknownValue (name function : String)
  /-- The function uses a label that it does not define. -/
  | unknownLabel (name function : String)
  /-- A result has the name of a parameter or of an earlier result. -/
  | duplicateDefinition (name function : String)
  /-- Two blocks have one label. -/
  | duplicateLabel (name function : String)
  /-- The width of an integer type does not fit in 32 bits. -/
  | badIntegerType (digits : String)
  /-- The length of an array or vector is negative or does not fit in 64 bits. -/
  | badAggregateLength (text : String)
deriving DecidableEq, Repr

/-- What a reader of the text is told. -/
def BindingError.message : BindingError → String
  | .unknownValue name function => s!"unknown value %{name} in @{function}"
  | .unknownLabel name function => s!"unknown label %{name} in @{function}"
  | .duplicateDefinition name function => s!"duplicate definition of %{name} in @{function}"
  | .duplicateLabel name function => s!"duplicate label %{name} in @{function}"
  | .badIntegerType digits => s!"bad integer type i{digits}"
  | .badAggregateLength text => s!"bad aggregate length {text}"

namespace Surface

/-- The value of a run of decimal digits; `none` for an empty run or another character. -/
def decimal? (digits : List Char) : Option Nat :=
  if digits.isEmpty || !digits.all Char.isDigit then none
  else some (digits.foldl (fun n c => 10 * n + (c.toNat - '0'.toNat)) 0)

/-- The value of a run of decimal digits that is less than `limit`. -/
def decimalBelow? (limit : Nat) (digits : List Char) : Option Nat :=
  (decimal? digits).filter (· < limit)

/-- The type that is written. -/
def TypeText.bind : TypeText → Except BindingError Ty
  | named ty => return ty
  | int digits =>
    match decimalBelow? UInt32.size digits.toList with
    | some bits => return .int (.ofNat bits)
    | none => throw (.badIntegerType digits)
  | array length element =>
    match decimalBelow? UInt64.size length.toList with
    | some n => return .array (.ofNat n) (← element.bind)
    | none => throw (.badAggregateLength length)
  | vector length element =>
    match decimalBelow? UInt64.size length.toList with
    | some n => return .vector (.ofNat n) (← element.bind)
    | none => throw (.badAggregateLength length)
  | pointer target => return .pointer (← target.bind)

/-! ### Numbers in place of names -/

/-- The number that a name spells out, with an optional plus sign before the digits. -/
def numberOf? (name : String) : Option Nat :=
  match name.toList with
  | '+' :: digits => decimalBelow? UInt64.size digits
  | digits => decimalBelow? UInt64.size digits

/-- The number after `n`. Numbers have 64 bits and start again at zero. -/
def nextNumber (n : Nat) : Nat := (n + 1) % UInt64.size

/-- The name of a parameter, and the number that the next thing without a name gets. A parameter
whose name is a number sets the count, even backwards. -/
def paramName (next : Nat) : Option String → String × Nat
  | some name => (name, ((numberOf? name).map nextNumber).getD next)
  | none => (toString next, nextNumber next)

/-- The label of a block, and the number that the next block without a label gets. A label that is
a number does not change the count. -/
def blockLabel (next : Nat) : Option String → String × Nat
  | some label => (label, next)
  | none => (toString next, nextNumber next)

/-- The parameters of a function, and the number that a block without a label gets. -/
def bindParams : Nat → List ParamText → Except BindingError (List Param × Nat)
  | next, [] => return ([], next)
  | next, p :: rest => do
    let ty ← p.ty.bind
    let (name, next) := paramName next p.name
    let (params, next) ← bindParams next rest
    return ({ name, ty } :: params, next)

/-! ### Names a function defines -/

/-- The names visible in a function. -/
structure Scope where
  /-- The name of the function, for error texts. -/
  function : String
  /-- The names of the parameters. -/
  params : List String
  /-- The names of results, each with the number its instruction will get. -/
  results : List (String × InstId) := []
  /-- The labels of the blocks so far. -/
  labels : List String := []
  /-- The number the next instruction gets. -/
  nextInst : InstId := 0
  /-- The number that a block without a label gets. -/
  nextNumber : Nat := 0
deriving DecidableEq, Repr

namespace Scope

/-- The parameter or result of a name. Of two parameters with one name the later is meant. -/
def value? (s : Scope) (name : String) : Option Operand :=
  match (s.params.zipIdx.reverse).find? (·.1 == name) with
  | some (_, index) => some (.param index)
  | none => (s.results.find? (·.1 == name)).map (.result ·.2)

/-- The block of a label. -/
def block? (s : Scope) (name : String) : Option BlockId := s.labels.idxOf? name

/-- Adds the result of a line. -/
def addLine (s : Scope) (line : Line) : Except BindingError Scope :=
  match line.name with
  | none => return { s with nextInst := s.nextInst + 1 }
  | some name =>
    if name ∈ s.params ∨ name ∈ s.results.map (·.1) then
      throw (.duplicateDefinition name s.function)
    else
      return { s with results := s.results ++ [(name, s.nextInst)], nextInst := s.nextInst + 1 }

/-- Adds the label of a block and the results of its lines. -/
def addBlock (s : Scope) (block : BlockText) : Except BindingError Scope :=
  let (label, next) := blockLabel s.nextNumber block.label
  if label ∈ s.labels then throw (.duplicateLabel label s.function)
  else block.lines.foldlM addLine { s with labels := s.labels ++ [label], nextNumber := next }

end Scope

/-! ### Names a function uses -/

variable (scope : Scope)

/-- The value that a local name stands for. -/
def bindLocal (name : String) : Except BindingError Operand :=
  match scope.value? name with
  | some v => return v
  | none => throw (.unknownValue name scope.function)

/-- The block that a label stands for. -/
def bindLabel (name : String) : Except BindingError BlockId :=
  match scope.block? name with
  | some b => return b
  | none => throw (.unknownLabel name scope.function)

/-- The operand that is written; a literal takes the type given. -/
def OperandText.bind (ty : Ty) : OperandText → Except BindingError Operand
  | .local name => bindLocal scope name
  | .global name => return .global name
  | .literal text => return .const { ty, literal := text }

/-- The callee that is written. -/
def CalleeText.bind : CalleeText → Except BindingError Operand
  | .global name => return .function name
  | .local name => bindLocal scope name

/-- The operand that is written after its type. -/
def TypedText.bind (t : TypedText) : Except BindingError TypedOperand := do
  let ty ← t.ty.bind
  let value ← t.value.bind scope ty
  return { ty, value }

/-- The operand that is written after its type, if one is written. -/
def bindOptional : Option TypedText → Except BindingError (Option TypedOperand)
  | none => return none
  | some t => return some (← t.bind scope)

/-- The arm of a phi of the given type. -/
def ArmText.bind (ty : Ty) (a : ArmText) : Except BindingError Arm := do
  let value ← a.value.bind scope ty
  let source ← bindLabel scope a.source
  return { value, source }

/-- The instruction that is written. Types and names are looked up from left to right. -/
def Statement.bind : Statement → Except BindingError Instruction
  | .binary op lhs rhs => do
    let lhs ← lhs.bind scope
    let rhs ← rhs.bind scope lhs.ty
    return .binary op lhs.ty lhs.value rhs
  | .compare test lhs rhs => do
    let lhs ← lhs.bind scope
    let rhs ← rhs.bind scope lhs.ty
    return .compare test lhs.ty lhs.value rhs
  | .load ty address => do
    let ty ← ty.bind
    let address ← address.bind scope
    return .load ty address
  | .store value address => do
    let value ← value.bind scope
    let address ← address.bind scope
    return .store value address
  | .elementPtr source base indices => do
    let source ← source.bind
    let base ← base.bind scope
    let indices ← indices.mapM (·.bind scope)
    return .elementPtr source base indices
  | .cast op value target => do
    let value ← value.bind scope
    let target ← target.bind
    return .cast op value target
  | .phi ty arms => do
    let ty ← ty.bind
    let arms ← arms.mapM (·.bind scope ty)
    return .phi ty arms
  | .select cond onTrue onFalse => do
    let cond ← cond.bind scope
    let onTrue ← onTrue.bind scope
    let onFalse ← onFalse.bind scope
    return .select cond.value onTrue.ty onTrue.value onFalse.value
  | .call retTy callee args => do
    let retTy ← retTy.bind
    let callee ← callee.bind scope
    let args ← args.mapM (·.bind scope)
    return .call retTy callee args
  | .alloca ty count => do
    let ty ← ty.bind
    let count ← bindOptional scope count
    return .alloca ty count
  | .jump target => do
    let target ← bindLabel scope target
    return .jump target
  | .branch cond onTrue onFalse => do
    let cond ← cond.bind scope
    let onTrue ← bindLabel scope onTrue
    let onFalse ← bindLabel scope onFalse
    return .branch cond.value onTrue onFalse
  | .ret value => do
    let value ← bindOptional scope value
    return .ret value
  | .unreachable => return .unreachable

/-- Appends the instruction of a line to block `b`. -/
def pushLine (b : BlockId) (f : Function) (line : Line) : Except BindingError Function := do
  let i ← line.statement.bind scope
  return f.push b line.name i

/-- Appends the instructions of a block to the block of the same number. -/
def pushBlock (f : Function) (numbered : BlockText × BlockId) : Except BindingError Function :=
  numbered.1.lines.foldlM (pushLine scope numbered.2) f

/-- The function that is written. -/
def FunctionText.bind (t : FunctionText) : Except BindingError Function := do
  let ret ← t.ret.bind
  let (params, next) ← bindParams 0 t.params
  let scope : Scope := { function := t.name, params := params.map (·.name), nextNumber := next }
  let scope ← t.blocks.foldlM Scope.addBlock scope
  let empty : Function := { name := t.name, ret, params }
  let labelled := scope.labels.foldl Function.addBlock empty
  t.blocks.zipIdx.foldlM (pushBlock scope) labelled

end Surface

end Dataflow
