import Dataflow.Text.Binding
import Dataflow.Text.Pair

/-!
# Building modules

From the tree of a text to a module, part by part. A `Cursor` goes over the pairs inside a pair that
mean something for data flow and expects parts in an order; a pair that is not of the part expected,
one that is missing, or a word that is in no table is an error of its own. Results and labels of a
function are collected first, and operands are looked up in a second pass.
-/

namespace Dataflow

/-- Whether a part means nothing for data flow once the part around it was found. -/
def Part.isNoise : Part → Bool
  | kwDefine | kwLoad | kwStore | kwElementPtr | kwIntCompare | kwFloatCompare | kwPhi | kwSelect
  | kwCall | kwAlloca | kwBranch | kwLabel | kwRet | kwUnreachable | kwTo
  | linkage | functionAttribute | paramAttribute | flag | alignment | metadata => true
  | _ => false

/-- Why no module is built from a tree. -/
inductive BuildError where
  /-- A name or a number is wrong. -/
  | binding (error : BindingError)
  /-- Another part stands where a part is expected, or none. -/
  | expected (p : Part) (found : Option Part)
  /-- A type holds nothing. -/
  | emptyType
  /-- An operand holds nothing. -/
  | emptyOperand
  /-- An instruction holds nothing. -/
  | emptyInstruction
  /-- An instruction holds nothing but the name of its result. -/
  | missingBody
  /-- No operation has the name. -/
  | unknownOpcode (word : String)
  /-- No predicate has the name. -/
  | unknownPredicate (word : String)
  /-- No conversion has the name. -/
  | unknownCast (word : String)
  /-- A type starts with a part that is no type. -/
  | unexpectedInType (p : Part)
  /-- An instruction is of no known form. -/
  | unsupported (text : String)
deriving DecidableEq, Repr

/-- What a reader of the text is told. -/
def BuildError.message : BuildError → String
  | binding error => error.message
  | expected p found =>
    "expected " ++ p.title ++ ", found " ++ (found.map (·.title)).getD "end of input"
  | emptyType => "empty type"
  | emptyOperand => "empty operand"
  | emptyInstruction => "empty instruction"
  | missingBody => "missing instruction body"
  | unknownOpcode word => "unknown opcode '" ++ word ++ "'"
  | unknownPredicate word => "unknown predicate '" ++ word ++ "'"
  | unknownCast word => "unknown cast '" ++ word ++ "'"
  | unexpectedInType p => "unexpected " ++ p.title ++ " in type"
  | unsupported text => "unsupported instruction '" ++ text ++ "'"

/-- What binding comes to, as a step of a build. -/
def BuildError.lift {α : Type} (x : Except BindingError α) : Except BuildError α :=
  x.mapError .binding

/-! ### Cursors -/

/-- Takes pairs off the front of a list, or fails. -/
abbrev Cursor := StateT (List Pair) (Except BuildError)

namespace Cursor

/-- Does what does not depend on the pairs. -/
def of {α : Type} (x : Except BuildError α) : Cursor α := fun ts => x.map (·, ts)

/-- Whether the next pair is of part `p`. -/
def nextIs (p : Part) : Cursor Bool := fun ts => .ok (ts.head?.any (·.part = p), ts)

/-- Takes the next pair if it is of part `p`. -/
def next? (p : Part) : Cursor (Option Pair)
  | [] => .ok (none, [])
  | t :: ts => if t.part = p then .ok (some t, ts) else .ok (none, t :: ts)

/-- Takes the next pair, which has to be of part `p`. -/
def expect (p : Part) : Cursor Pair
  | [] => .error (.expected p none)
  | t :: ts => if t.part = p then .ok (t, ts) else .error (.expected p (some t.part))

/-- Takes pairs as long as they are of part `p`. -/
def rest (p : Part) : Cursor (List Pair) := fun ts =>
  .ok (ts.takeWhile (·.part = p), ts.dropWhile (·.part = p))

/-- Repeats `c` as long as the next pair is of part `p`, at most `bound` times. -/
def repeatUpTo {α : Type} (p : Part) (c : Cursor α) : Nat → Cursor (List α)
  | 0 => return []
  | bound + 1 => do
    if ← nextIs p then
      let a ← c
      let as ← repeatUpTo p c bound
      return a :: as
    else
      return []

/-- Repeats `c`, which takes a pair each time, as long as the next pair is of part `p`. -/
def whileNext {α : Type} (p : Part) (c : Cursor α) : Cursor (List α) := fun ts =>
  repeatUpTo p c ts.length ts

theorem bind_eq_ok {α β : Type} {c : Cursor α} {k : α → Cursor β} {ts : List Pair}
    {r : β × List Pair} :
    (c >>= k) ts = .ok r ↔ ∃ a us, c ts = .ok (a, us) ∧ k a us = .ok r := by
  simp only [bind, StateT.bind, Except.bind]
  cases c ts with
  | error e => simp
  | ok r =>
      constructor
      · exact fun h => ⟨r.1, r.2, rfl, h⟩
      · rintro ⟨a, us, heq, h⟩
        cases heq
        exact h

theorem expect_eq_ok {p : Part} {ts us : List Pair} {t : Pair} :
    expect p ts = .ok (t, us) ↔ ts = t :: us ∧ t.part = p := by
  cases ts with
  | nil => simp [expect]
  | cons u ts =>
      rw [expect]
      split
      · simp only [Except.ok.injEq, Prod.mk.injEq, List.cons.injEq]
        constructor
        · rintro ⟨rfl, rfl⟩
          exact ⟨⟨rfl, rfl⟩, ‹_›⟩
        · rintro ⟨⟨rfl, rfl⟩, _⟩
          exact ⟨rfl, rfl⟩
      · rename_i hp
        simp only [reduceCtorEq, List.cons.injEq, false_iff]
        rintro ⟨⟨rfl, _⟩, h⟩
        exact hp h

/-- What a cursor comes to that goes over `ts`. What it leaves over is passed over. -/
def result {α : Type} (c : Cursor α) (ts : List Pair) : Except BuildError α := (c ts).map (·.1)

end Cursor

namespace Pair

open Cursor

/-! ### Names and types -/

/-- The pairs among `ts` that mean something for data flow. -/
def meaningful (ts : List Pair) : List Pair := ts.filter fun t => !t.part.isNoise

/-- The pairs inside that mean something for data flow. -/
def fields (t : Pair) : List Pair := meaningful t.children

/-- A text without double quotes at its ends. -/
def trimQuotes (text : String) : String :=
  String.ofList ((text.toList.dropWhile (· = '"')).reverse.dropWhile (· = '"')).reverse

/-- The name that a local, a global or a label holds, without sigil and quotes. -/
def ident (t : Pair) : String := (t.children.head?.map fun name => trimQuotes name.text).getD ""

/-- The number that a text spells out, with an optional plus sign before the digits. -/
def unsigned? (limit : Nat) : List Char → Option Nat
  | '+' :: digits => Surface.decimalBelow? limit digits
  | digits => Surface.decimalBelow? limit digits

/-- The type that a word names, where it is neither an integer type nor `ptr` nor `void`. -/
def floatTy (word : String) : Ty :=
  match word with
  | "half" => .half
  | "bfloat" => .bfloat
  | "float" => .float
  | "double" => .double
  | "fp128" => .fp128
  | _ => .x86fp80

/-- Takes the length of an array or a vector and the type of its elements, which is not yet
looked at. -/
def sized : Cursor (UInt64 × Pair) := do
  let length ← expect .intLiteral
  match unsigned? UInt64.size length.text.toList with
  | none => of (.error (.binding (.badAggregateLength length.text)))
  | some n => do
    let element ← expect .type
    return (.ofNat n, element)

/-- The type of the elements is one of the pairs that are gone over. -/
theorem sized_mem {ts rest : List Pair} {n : UInt64} {element : Pair}
    (h : sized ts = .ok ((n, element), rest)) : element ∈ ts := by
  rw [sized, Cursor.bind_eq_ok] at h
  obtain ⟨length, us, hlength, h⟩ := h
  obtain ⟨rfl, _⟩ := expect_eq_ok.mp hlength
  cases hn : unsigned? UInt64.size length.text.toList with
  | none =>
      simp only [hn] at h
      cases h
  | some k =>
      simp only [hn, Cursor.bind_eq_ok] at h
      obtain ⟨found, vs, hfound, h⟩ := h
      obtain ⟨rfl, _⟩ := expect_eq_ok.mp hfound
      cases h
      exact List.mem_cons_of_mem _ List.mem_cons_self

/-- The type that is written. -/
def type : Pair → Except BuildError Ty
  | mk _ _ [] => throw .emptyType
  | mk _ _ (mk p text inside :: suffixes) => do
    let ty ← match p with
      | .intType =>
        match unsigned? UInt32.size (text.toList.drop 1) with
        | some bits => pure (.int (.ofNat bits))
        | none => throw (.binding (.badIntegerType (String.ofList (text.toList.drop 1))))
      | .floatType => pure (floatTy text)
      | .ptrType => pure .ptr
      | .voidType => pure .void
      | .arrayType | .vectorType =>
        match _hs : sized (meaningful inside) with
        | .error e => throw e
        | .ok ((n, element), _) => do
          let inner ← element.type
          pure (if p = .arrayType then .array n inner else .vector n inner)
      | p => throw (.unexpectedInType p)
    return (suffixes.filter (·.part = .pointerSuffix)).foldl (fun ty _ => .pointer ty) ty
termination_by t => sizeOf t
decreasing_by
  all_goals
    have hmem : element ∈ inside := (List.mem_filter.mp (sized_mem ‹_›)).1
    have hlt := List.sizeOf_lt_of_mem hmem
    simp only [Pair.mk.sizeOf_spec, List.cons.sizeOf_spec]
    omega

/-- The type that comes next. -/
def typeField : Cursor Ty := do
  let t ← expect .type
  of t.type

/-! ### Operands -/

section

variable (scope : Surface.Scope)

/-- The value that a local stands for. -/
def localValue (t : Pair) : Except BuildError Operand :=
  BuildError.lift (Surface.bindLocal scope t.ident)

/-- The operand that is written; a literal takes the type given. -/
def value (ty : Ty) (t : Pair) : Except BuildError Operand :=
  match t.children with
  | [] => throw .emptyOperand
  | inner :: _ =>
    match inner.part with
    | .local => localValue scope inner
    | .global => return .global inner.ident
    | _ => return .const { ty, literal := inner.text }

/-- The operand that comes next. -/
def valueField (ty : Ty) : Cursor Operand := do
  let t ← expect .value
  of (t.value scope ty)

/-- The operand that comes next after its type. -/
def typedField : Cursor TypedOperand := do
  let ty ← typeField
  let value ← valueField scope ty
  return { ty, value }

/-- The block whose label comes next. -/
def labelField : Cursor BlockId := do
  let t ← expect .local
  of (BuildError.lift (Surface.bindLabel scope t.ident))

/-- What a table has for the word of part `p` that comes next; `unknown` if it has nothing. -/
def wordField {α : Type} (p : Part) (table : String → Option α) (unknown : String → BuildError) :
    Cursor α := do
  let t ← expect p
  match table t.text with
  | some a => return a
  | none => of (.error (unknown t.text))

/-! ### Instructions -/

/-- An operator and two operands of one type, of which only the first has its type before it. -/
def operandPair {α : Type} (operator : Cursor α)
    (build : α → Ty → Operand → Operand → Instruction) : Cursor Instruction := do
  let op ← operator
  let lhs ← typedField scope
  let rhs ← valueField scope lhs.ty
  return build op lhs.ty lhs.value rhs

/-- The arm of a phi of the given type. -/
def arm (ty : Ty) (t : Pair) : Except BuildError Arm :=
  Cursor.result (do
    let value ← valueField scope ty
    let source ← labelField scope
    return { value, source }) t.fields

/-- The arms of a phi of the given type. -/
def armsField (ty : Ty) : Cursor (List Arm) := do
  let arms ← rest .incoming
  of (arms.mapM (arm scope ty))

/-- The argument of a call. -/
def argument (t : Pair) : Except BuildError TypedOperand := (typedField scope).result t.fields

/-- What a call names: a function, or a value that holds one. -/
def calleeField : Cursor Operand := do
  match ← next? .global with
  | some t => return .function t.ident
  | none => do
    let t ← expect .local
    of (localValue scope t)

/-- The arguments of a call, if a list of them comes next. -/
def argumentsField : Cursor (List TypedOperand) := do
  match ← next? .arguments with
  | some list => of (list.children.mapM (argument scope))
  | none => return []

/-- The operand that comes next after its type, if a type comes next. -/
def countField : Cursor (Option TypedOperand) := do
  if ← nextIs .type then
    let count ← typedField scope
    return some count
  else
    return none

/-- What the pairs inside an instruction of the form `p` stand for. -/
def instructionFields (text : String) : Part → Cursor Instruction
  | .binary => operandPair scope (wordField .binaryOp BinaryOp.ofName? .unknownOpcode) .binary
  | .intCompare =>
    operandPair scope (wordField .intPredicate IntPredicate.ofName? .unknownPredicate)
      fun predicate => .compare (.int predicate)
  | .floatCompare =>
    operandPair scope (wordField .floatPredicate FloatPredicate.ofName? .unknownPredicate)
      fun predicate => .compare (.float predicate)
  | .load => do
    let ty ← typeField
    let address ← typedField scope
    return .load ty address
  | .store => do
    let value ← typedField scope
    let address ← typedField scope
    return .store value address
  | .elementPtr => do
    let source ← typeField
    let base ← typedField scope
    let indices ← whileNext .type (typedField scope)
    return .elementPtr source base indices
  | .cast => do
    let op ← wordField .castOp CastOp.ofName? .unknownCast
    let value ← typedField scope
    let target ← typeField
    return .cast op value target
  | .phi => do
    let ty ← typeField
    let arms ← armsField scope ty
    return .phi ty arms
  | .select => do
    let cond ← typedField scope
    let onTrue ← typedField scope
    let onFalse ← typedField scope
    return .select cond.value onTrue.ty onTrue.value onFalse.value
  | .call => do
    let retTy ← typeField
    let callee ← calleeField scope
    let args ← argumentsField scope
    return .call retTy callee args
  | .alloca => do
    let ty ← typeField
    let count ← countField scope
    return .alloca ty count
  | .jump => do
    let target ← labelField scope
    return .jump target
  | .branch => do
    let cond ← typedField scope
    let onTrue ← labelField scope
    let onFalse ← labelField scope
    return .branch cond.value onTrue onFalse
  | .retVoid => return .ret none
  | .ret => do
    let value ← typedField scope
    return .ret (some value)
  | .unreachable => return .unreachable
  | _ => of (.error (.unsupported text))

/-- The instruction of one form that is written. -/
def form (t : Pair) : Except BuildError Instruction :=
  (instructionFields scope t.text t.part).result t.fields

/-- The instruction that is written, with the name of its result if one is written. -/
def instruction (t : Pair) : Except BuildError (Option String × Instruction) :=
  match t.fields with
  | [] => throw .emptyInstruction
  | first :: more =>
    if first.part = .local then
      match more with
      | [] => throw .missingBody
      | body :: _ => do
        let i ← body.form scope
        return (some first.ident, i)
    else do
      let i ← first.form scope
      return (none, i)

end

/-! ### Functions -/

/-- The parameter that is written, and the number that the next thing without a name gets. -/
def param (next : Nat) (t : Pair) : Except BuildError (Param × Nat) :=
  Cursor.result (do
    let ty ← typeField
    let name ← next? .local
    let (name, next) := Surface.paramName next (name.map ident)
    return ({ name, ty }, next)) t.fields

/-- The parameters of a function, and the number that a block without a label gets. -/
def params : Nat → List Pair → Except BuildError (List Param × Nat)
  | next, [] => return ([], next)
  | next, t :: ts => do
    let (p, next) ← t.param next
    let (ps, next) ← params next ts
    return (p :: ps, next)

/-- The parameters of a function if a list of them comes next. -/
def paramsField : Cursor (List Param × Nat) := do
  match ← next? .params with
  | some list => of (params 0 list.children)
  | none => return ([], 0)

/-- The name of the result of an instruction, if one is written. -/
def resultName? (t : Pair) : Option String := (t.children.head?.filter (·.part = .local)).map ident

/-- Adds the result of an instruction to the names of a function. -/
def define (s : Surface.Scope) (t : Pair) : Except BuildError Surface.Scope :=
  match t.resultName? with
  | none => return { s with nextInst := s.nextInst + 1 }
  | some name =>
    if name ∈ s.params ∨ name ∈ s.results.map (·.1) then
      throw (.binding (.duplicateDefinition name s.function))
    else
      return { s with results := s.results ++ [(name, s.nextInst)], nextInst := s.nextInst + 1 }

/-- Adds the label of a block and the results of its instructions to the names of a function, and
gives the instructions for the second pass. -/
def openBlock (s : Surface.Scope) (t : Pair) : Except BuildError (Surface.Scope × List Pair) := do
  let (label, lines) ← Cursor.result (do
    let label ← next? .label
    let lines ← rest .instruction
    return (label, lines)) t.fields
  let (label, next) := Surface.blockLabel s.nextNumber (label.map ident)
  if label ∈ s.labels then throw (.binding (.duplicateLabel label s.function))
  else do
    let s ← lines.foldlM define { s with labels := s.labels ++ [label], nextNumber := next }
    return (s, lines)

/-- The first pass over blocks: the names of a function, and the instructions of each block. -/
def openBlocks :
    Surface.Scope → List Pair → Except BuildError (Surface.Scope × List (List Pair))
  | s, [] => return (s, [])
  | s, t :: ts => do
    let (s, lines) ← t.openBlock s
    let (s, bodies) ← openBlocks s ts
    return (s, lines :: bodies)

/-- Appends an instruction to block `b`. -/
def pushInstruction (scope : Surface.Scope) (b : BlockId) (f : Function) (t : Pair) :
    Except BuildError Function := do
  let (name, i) ← t.instruction scope
  return f.push b name i

/-- The second pass over a block: appends its instructions to the block of the same number. -/
def fillBlock (scope : Surface.Scope) (f : Function) (numbered : List Pair × BlockId) :
    Except BuildError Function :=
  numbered.1.foldlM (pushInstruction scope numbered.2) f

/-- The function that is written. -/
def function (t : Pair) : Except BuildError Function :=
  Cursor.result (do
    let ret ← typeField
    let name ← expect .global
    let (params, next) ← paramsField
    let blocks ← rest .block
    of (do
      let (scope, bodies) ← openBlocks
        { function := name.ident, params := params.map (·.name), nextNumber := next } blocks
      let empty : Function := { name := name.ident, ret, params }
      let labelled := scope.labels.foldl Function.addBlock empty
      bodies.zipIdx.foldlM (fillBlock scope) labelled)) t.fields

/-- The module that is written. What stands between functions is passed over. -/
def module (t : Pair) : Except BuildError Module := do
  let functions ← (t.children.filter (·.part = .function)).mapM function
  return { functions }

end Pair

end Dataflow
