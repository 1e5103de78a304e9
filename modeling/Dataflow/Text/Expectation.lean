import Dataflow.Text.Grammar
import Dataflow.Text.Pattern

/-!
# What a text is expected to hold

The pattern of each named part, and the frontier of a text: how far it follows the grammar and what
could have stood there. The patterns accept what the readers of the grammar accept, and they are
tried in the same order.
-/

namespace Dataflow

open Reader Lexeme

namespace Pattern

/-- Patterns one after the other, with blanks and comments between them. -/
def sequence (first : Pattern) : List Pattern → Pattern
  | [] => first
  | second :: rest => chain first (sequence second rest)

/-- The first of some patterns that fits. -/
def firstOf (first : Pattern) : List Pattern → Pattern
  | [] => first
  | second :: rest => either first (firstOf second rest)

/-- One or more of a pattern. -/
def some1 (p : Pattern) : Pattern := chain p (repeated p)

/-- One or more of a pattern with commas between them. -/
def commaList (p : Pattern) : Pattern := chain p (repeated (chain (token (mark ',')) p))

/-- What a reader takes, whatever value it gives. -/
def passing {α : Type} (r : Reader α) : Pattern :=
  token (do
    let _ ← r
    return)

/-- A punctuation mark. -/
def sign (c : Char) : Pattern := token (mark c)

/-- One of the given words. -/
def wordOf (words : List String) : Pattern := token (oneOf words)

/-- The flags after an opcode. -/
def flags : Pattern := repeated (part .flag)

/-- An operand after its type. -/
def typed : Pattern := chain (part .type) (part .value)

/-- A comma and an operand after its type. -/
def nextTyped : Pattern := chain (sign ',') typed

/-- A word for blocks and the name of one. -/
def target : Pattern := chain (part .kwLabel) (part .local)

/-- A name, quoted or bare. -/
def anyName : Pattern := either (part .quoted) (part .name)

/-- The instructions, in the order in which they are tried. -/
def statement : Pattern :=
  firstOf (part .binary) (([.intCompare, .floatCompare, .load, .store, .elementPtr, .cast, .phi,
    .select, .call, .alloca, .jump, .branch, .retVoid, .ret, .unreachable] : List Part).map part)

/-! ### Words for operators -/

/-- The words for operations on two operands. -/
def binaryWords : List String :=
  ["add", "sub", "mul", "udiv", "sdiv", "urem", "srem", "fadd", "fsub", "fmul", "fdiv", "frem",
    "shl", "lshr", "ashr", "and", "or", "xor"]

/-- The words for comparisons of integers. -/
def intPredicateWords : List String :=
  ["eq", "ne", "ugt", "uge", "ult", "ule", "sgt", "sge", "slt", "sle"]

/-- The words for comparisons of floats. -/
def floatPredicateWords : List String :=
  ["false", "oeq", "ogt", "oge", "olt", "ole", "one", "ord", "ueq", "ugt", "uge", "ult", "ule",
    "une", "uno", "true"]

/-- The words for conversions. -/
def castWords : List String :=
  ["trunc", "zext", "sext", "fptrunc", "fpext", "fptoui", "fptosi", "uitofp", "sitofp", "ptrtoint",
    "inttoptr", "bitcast", "addrspacecast"]

end Pattern

namespace Part

open Pattern

/-- What stands where a part stands. -/
def pattern : Part → Pattern
  | endOfText => token fun s => if s.isEmpty then some ((), s) else none
  | name => passing bareName
  | quoted => passing quotedName
  | .local => joined (sign '%') anyName
  | global => joined (sign '@') anyName
  | label => joined anyName (token (char ':'))
  | kwDefine => wordOf ["define"]
  | kwLoad => wordOf ["load"]
  | kwStore => wordOf ["store"]
  | kwElementPtr => wordOf ["getelementptr"]
  | kwIntCompare => wordOf ["icmp"]
  | kwFloatCompare => wordOf ["fcmp"]
  | kwPhi => wordOf ["phi"]
  | kwSelect => wordOf ["select"]
  | kwCall => wordOf ["call"]
  | kwAlloca => wordOf ["alloca"]
  | kwBranch => wordOf ["br"]
  | kwLabel => wordOf ["label"]
  | kwRet => wordOf ["ret"]
  | kwUnreachable => wordOf ["unreachable"]
  | kwTo => wordOf ["to"]
  | type =>
    chain (firstOf (part intType)
      [part floatType, part ptrType, part voidType, part arrayType, part vectorType])
      (repeated (part pointerSuffix))
  | intType => passing (do
      let word ← word
      guard (word.startsWith "i" && Surface.typeOfWord? word != none))
  | floatType => wordOf ["half", "bfloat", "float", "double", "fp128", "x86_fp80"]
  | ptrType => wordOf ["ptr"]
  | voidType => wordOf ["void"]
  | arrayType => sequence (sign '[') [part intLiteral, sign 'x', part type, sign ']']
  | vectorType => sequence (sign '<') [part intLiteral, sign 'x', part type, sign '>']
  | pointerSuffix => sign '*'
  | intLiteral => passing integer
  | floatLiteral => passing float
  | boolLiteral => wordOf ["true", "false"]
  | nullLiteral => wordOf ["null"]
  | undefLiteral => wordOf ["undef", "poison", "zeroinitializer"]
  | value => firstOf (part .local) [part global, part floatLiteral, part intLiteral,
      part boolLiteral, part nullLiteral, part undefLiteral]
  | linkage => wordOf Surface.linkageWords
  | functionAttribute => token (attributeGroup <|> Lexeme.metadata <|> oneOf Surface.functionWords)
  | paramAttribute => wordOf Surface.paramWords
  | flag => wordOf Surface.flagWords
  | binaryOp => wordOf binaryWords
  | intPredicate => wordOf intPredicateWords
  | floatPredicate => wordOf floatPredicateWords
  | castOp => wordOf castWords
  | binary => sequence (part binaryOp) [flags, typed, sign ',', part value]
  | intCompare => sequence (part kwIntCompare)
      [flags, part intPredicate, typed, sign ',', part value]
  | floatCompare => sequence (part kwFloatCompare)
      [flags, part floatPredicate, typed, sign ',', part value]
  | load => sequence (part kwLoad) [flags, part type, nextTyped]
  | store => sequence (part kwStore) [flags, typed, nextTyped]
  | elementPtr => sequence (part kwElementPtr) [flags, part type, nextTyped, repeated nextTyped]
  | cast => sequence (part castOp) [flags, typed, part kwTo, part type]
  | phi => sequence (part kwPhi) [flags, part type, commaList (part incoming)]
  | incoming => sequence (sign '[') [part value, sign ',', part .local, sign ']']
  | select => sequence (part kwSelect) [flags, typed, nextTyped, nextTyped]
  | call => sequence flags [part kwCall, flags, repeated (part paramAttribute), part type,
      either (part global) (part .local), sign '(', maybe (part arguments), sign ')',
      repeated (part functionAttribute)]
  | arguments => commaList (part argument)
  | argument => sequence (part type) [repeated (part paramAttribute), part value]
  | alloca => sequence (part kwAlloca) [part type, maybe nextTyped]
  | jump => chain (part kwBranch) target
  | branch => sequence (part kwBranch) [typed, sign ',', target, sign ',', target]
  | retVoid => chain (part kwRet) (part voidType)
  | ret => chain (part kwRet) typed
  | unreachable => part kwUnreachable
  | alignment => token Lexeme.alignment
  | metadata => token Lexeme.metadata
  | instruction => sequence (maybe (chain (part .local) (sign '=')))
      [statement, repeated (chain (sign ',') (either (part alignment) (part metadata)))]
  | param => sequence (part type) [repeated (part paramAttribute), maybe (part .local)]
  | params => commaList (part param)
  | block => chain (maybe (part label)) (some1 (part instruction))
  | function => sequence (part kwDefine) [repeated (part linkage), part type, part global,
      sign '(', maybe (part params), sign ')', repeated (part functionAttribute), sign '\x7b',
      some1 (part block), sign '\x7d']
  | otherLine => token Surface.otherLine
  | module => chain (repeated (either (part function) (part otherLine))) (part endOfText)

/-- Tries a part whose parts nest at most `depth` deep, and enters it at the frontier if it does
not fit. -/
def attempt : Nat → Part → Attempt
  | 0, _, _, f => (none, f)
  | depth + 1, p, start, f =>
    match p.pattern.attempt (attempt depth) start f with
    | (none, reached) => (none, reached.miss p start.offset (f.count start.offset))
    | fits => fits

end Part

/-- How far a text follows the grammar. Each nesting of types takes a character and every other part
stands less than twelve deep, so the length of the text bounds the depth. -/
def frontier (text : String) : Frontier :=
  let chars := text.toList
  (Part.module.attempt (2 * chars.length + 12) { offset := 0, rest := chars } {}).2

end Dataflow
