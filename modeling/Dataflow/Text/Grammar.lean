import Dataflow.Text.Lexeme
import Dataflow.Text.Surface

/-!
# The grammar

Readers for each part of a text, from types up to a whole module. A module is a sequence of
function definitions and other lines; a line that does not start with the word `define` is passed
over whatever it holds. Everywhere else a text that does not fit is refused as a whole.
-/

namespace Dataflow.Surface

open Reader Lexeme

/-! ### Words without meaning for data flow -/

/-- Words that may stand between `define` and the returned type. -/
def linkageWords : List String :=
  ["dso_local", "internal", "private", "external", "linkonce_odr", "weak_odr", "weak", "hidden",
    "protected", "noundef", "signext", "zeroext", "nonnull", "fastcc", "ccc"]

/-- Words that may follow the parameters of a function or the arguments of a call. -/
def functionWords : List String :=
  ["local_unnamed_addr", "unnamed_addr", "nounwind", "readnone", "readonly", "uwtable"]

/-- Words that may follow the type of a parameter or an argument. -/
def paramWords : List String :=
  ["noundef", "nonnull", "nocapture", "readonly", "writeonly", "noalias", "signext", "zeroext",
    "inreg", "returned", "immarg"]

/-- Words that may follow an opcode. -/
def flagWords : List String :=
  ["nsw", "nuw", "nusw", "exact", "disjoint", "nneg", "samesign", "inbounds", "nnan", "ninf", "nsz",
    "arcp", "contract", "afn", "reassoc", "fast", "volatile", "musttail", "notail", "tail"]

/-- Reads the flags after an opcode. -/
def flags : Reader Unit := do
  let _ ← many (oneOf flagWords)
  return

/-- Reads the attributes of a parameter or an argument. -/
def paramAttributes : Reader Unit := do
  let _ ← many (oneOf paramWords)
  return

/-- Reads the attributes of a function or a call. -/
def functionAttributes : Reader Unit := do
  let _ ← many (attributeGroup <|> metadata <|> oneOf functionWords)
  return

/-- Reads what may follow an instruction after a comma: an alignment or a metadata reference. -/
def trailer : Reader Unit := do
  mark ','
  alignment <|> metadata

/-! ### Types and operands -/

/-- The type that a word names. -/
def typeOfWord? (word : String) : Option TypeText :=
  match word.toList with
  | 'i' :: d :: ds =>
    if (d :: ds).all Char.isDigit then some (.int (String.ofList (d :: ds))) else none
  | _ =>
    match word with
    | "half" => some (.named .half)
    | "bfloat" => some (.named .bfloat)
    | "float" => some (.named .float)
    | "double" => some (.named .double)
    | "fp128" => some (.named .fp128)
    | "x86_fp80" => some (.named .x86fp80)
    | "ptr" => some (.named .ptr)
    | "void" => some (.named .void)
    | _ => none

/-- Reads a type whose brackets nest at most `depth` deep. -/
def typeUpTo : Nat → Reader TypeText
  | 0 => fun _ => none
  | depth + 1 => do
    let base ← lookup typeOfWord?
      <|> (do
        mark '['
        let length ← integer
        mark 'x'
        let element ← typeUpTo depth
        mark ']'
        return .array length element)
      <|> (do
        mark '<'
        let length ← integer
        mark 'x'
        let element ← typeUpTo depth
        mark '>'
        return .vector length element)
    let stars ← many (mark '*')
    return stars.foldl (fun t _ => .pointer t) base

/-- Reads a type. Every nested bracket takes a character, so the length of the text bounds their
depth. -/
def type : Reader TypeText := fun s => typeUpTo (s.length + 1) s

/-- Reads an operand. -/
def operand : Reader OperandText :=
  (.local <$> localName) <|> (.global <$> globalName) <|> (.literal <$> literal)

/-- Reads an operand after its type. -/
def typed : Reader TypedText := do
  let ty ← type
  let value ← operand
  return { ty, value }

/-- Reads a comma and an operand after its type. -/
def nextTyped : Reader TypedText := do
  mark ','
  typed

/-- Reads the word `label` and the name of a block. -/
def target : Reader String := do
  keyword "label"
  localName

/-! ### Instructions -/

/-- Reads two operands of one type. -/
def operandPair (build : TypedText → OperandText → Statement) : Reader Statement := do
  let lhs ← typed
  mark ','
  let rhs ← operand
  return build lhs rhs

/-- Reads an operation on two operands. -/
def binary : Reader Statement := do
  let op ← lookup BinaryOp.ofName?
  flags
  operandPair (.binary op)

/-- Reads a comparison of integers. -/
def intCompare : Reader Statement := do
  keyword "icmp"
  flags
  let predicate ← lookup IntPredicate.ofName?
  operandPair (.compare (.int predicate))

/-- Reads a comparison of floats. -/
def floatCompare : Reader Statement := do
  keyword "fcmp"
  flags
  let predicate ← lookup FloatPredicate.ofName?
  operandPair (.compare (.float predicate))

/-- Reads a read of memory. -/
def load : Reader Statement := do
  keyword "load"
  flags
  let ty ← type
  let address ← nextTyped
  return .load ty address

/-- Reads a write of memory. -/
def store : Reader Statement := do
  keyword "store"
  flags
  let value ← typed
  let address ← nextTyped
  return .store value address

/-- Reads an address computation. -/
def elementPtr : Reader Statement := do
  keyword "getelementptr"
  flags
  let source ← type
  let base ← nextTyped
  let indices ← many nextTyped
  return .elementPtr source base indices

/-- Reads a conversion. -/
def cast : Reader Statement := do
  let op ← lookup CastOp.ofName?
  flags
  let value ← typed
  keyword "to"
  let target ← type
  return .cast op value target

/-- Reads one arm of a phi. -/
def arm : Reader ArmText := do
  mark '['
  let value ← operand
  mark ','
  let source ← localName
  mark ']'
  return { value, source }

/-- Reads a join. -/
def phi : Reader Statement := do
  keyword "phi"
  flags
  let ty ← type
  let arms ← sepBy1 arm (mark ',')
  return .phi ty arms

/-- Reads a choice between two values. -/
def select : Reader Statement := do
  keyword "select"
  flags
  let cond ← typed
  let onTrue ← nextTyped
  let onFalse ← nextTyped
  return .select cond onTrue onFalse

/-- Reads one argument of a call. -/
def argument : Reader TypedText := do
  let ty ← type
  paramAttributes
  let value ← operand
  return { ty, value }

/-- Reads a call. -/
def call : Reader Statement := do
  flags
  keyword "call"
  flags
  paramAttributes
  let retTy ← type
  let callee ← (CalleeText.global <$> globalName) <|> (CalleeText.local <$> localName)
  mark '('
  let args ← optional (sepBy1 argument (mark ','))
  mark ')'
  functionAttributes
  return .call retTy callee (args.getD [])

/-- Reads a reservation of memory. -/
def alloca : Reader Statement := do
  keyword "alloca"
  let ty ← type
  let count ← optional nextTyped
  return .alloca ty count

/-- Reads a branch to one label. -/
def jump : Reader Statement := do
  keyword "br"
  let label ← target
  return .jump label

/-- Reads a branch to one of two labels. -/
def branch : Reader Statement := do
  keyword "br"
  let cond ← typed
  mark ','
  let onTrue ← target
  mark ','
  let onFalse ← target
  return .branch cond onTrue onFalse

/-- Reads a return without a value. -/
def retVoid : Reader Statement := do
  keyword "ret"
  keyword "void"
  return .ret none

/-- Reads a return with a value. -/
def retValue : Reader Statement := do
  keyword "ret"
  let value ← typed
  return .ret (some value)

/-- Reads the end of a path that is never taken. -/
def unreachable : Reader Statement := do
  keyword "unreachable"
  return .unreachable

/-- Reads an instruction without the name of its result. The first form that fits is taken for
good, so `ret void` is a return without a value whatever follows it. -/
def statement : Reader Statement :=
  binary <|> intCompare <|> floatCompare <|> load <|> store <|> elementPtr <|> cast <|> phi
    <|> select <|> call <|> alloca <|> jump <|> branch <|> retVoid <|> retValue <|> unreachable

/-- Reads an instruction with the name of its result, if one is written. -/
def line : Reader Line := do
  let name ← optional (do
    let name ← localName
    mark '='
    return name)
  let statement ← statement
  let _ ← many trailer
  return { name, statement }

/-! ### Functions and modules -/

/-- Reads a block. -/
def block : Reader BlockText := do
  let label ← optional label
  let lines ← many1 line
  return { label, lines }

/-- Reads a parameter. -/
def param : Reader ParamText := do
  let ty ← type
  paramAttributes
  let name ← optional localName
  return { ty, name }

/-- Reads a function definition. -/
def function : Reader FunctionText := do
  keyword "define"
  let _ ← many (oneOf linkageWords)
  let ret ← type
  let name ← globalName
  mark '('
  let params ← optional (sepBy1 param (mark ','))
  mark ')'
  functionAttributes
  mark '\x7b'
  let blocks ← many1 block
  mark '\x7d'
  return { ret, name, params := params.getD [], blocks }

/-- Passes over the rest of a line that does not start with the word `define`. -/
def otherLine : Reader Unit := lexeme fun s =>
  match s with
  | [] => none
  | _ =>
    if s.takeWhile Symbol.isNameChar = "define".toList then none
    else some ((), s.dropWhile (· ≠ '\n'))

/-- Reads a function definition or passes over another line. -/
def item : Reader (Option FunctionText) :=
  (some <$> function) <|> (do otherLine; return none)

/-- The functions of a text, or none if the text does not follow the grammar. -/
def functions? (text : String) : Option (List FunctionText) :=
  match many item text.toList with
  | none => none
  | some (items, rest) => if skip false rest = [] then some (items.filterMap id) else none

end Dataflow.Surface
