/-!
# Parts of a text

The named parts that a text is made of, from the whole module down to single words. A message
about a text that is refused says which of them could have stood at a place; it lists them in the
order of `Part.all`.
-/

namespace Dataflow

/-- A named part of a text. -/
inductive Part where
  | endOfText
  | name | quoted | local | global | label
  | kwDefine | kwLoad | kwStore | kwElementPtr | kwIntCompare | kwFloatCompare | kwPhi | kwSelect
  | kwCall | kwAlloca | kwBranch | kwLabel | kwRet | kwUnreachable | kwTo
  | type | intType | floatType | ptrType | voidType | arrayType | vectorType | pointerSuffix
  | intLiteral | floatLiteral | boolLiteral | nullLiteral | undefLiteral | value
  | linkage | functionAttribute | paramAttribute | flag
  | binaryOp | intPredicate | floatPredicate | castOp
  | binary | intCompare | floatCompare | load | store | elementPtr | cast | phi | incoming | select
  | call | arguments | argument | alloca | jump | branch | retVoid | ret | unreachable
  | alignment | metadata | instruction
  | param | params | block | function | otherLine | module
deriving DecidableEq, Repr

namespace Part

/-- Every part, in the order in which a message lists them. -/
def all : List Part :=
  [endOfText, name, quoted, .local, global, label,
    kwDefine, kwLoad, kwStore, kwElementPtr, kwIntCompare, kwFloatCompare, kwPhi, kwSelect,
    kwCall, kwAlloca, kwBranch, kwLabel, kwRet, kwUnreachable, kwTo,
    type, intType, floatType, ptrType, voidType, arrayType, vectorType, pointerSuffix,
    intLiteral, floatLiteral, boolLiteral, nullLiteral, undefLiteral, value,
    linkage, functionAttribute, paramAttribute, flag,
    binaryOp, intPredicate, floatPredicate, castOp,
    binary, intCompare, floatCompare, load, store, elementPtr, cast, phi, incoming, select,
    call, arguments, argument, alloca, jump, branch, retVoid, ret, unreachable,
    alignment, metadata, instruction,
    param, params, block, function, otherLine, module]

/-- What a message calls a part. -/
def title : Part → String
  | endOfText => "EOI"
  | name => "Name" | quoted => "Quoted" | .local => "Local" | global => "Global"
  | label => "LabelDef"
  | kwDefine => "KwDefine" | kwLoad => "KwLoad" | kwStore => "KwStore" | kwElementPtr => "KwGep"
  | kwIntCompare => "KwICmp" | kwFloatCompare => "KwFCmp" | kwPhi => "KwPhi"
  | kwSelect => "KwSelect" | kwCall => "KwCall" | kwAlloca => "KwAlloca" | kwBranch => "KwBr"
  | kwLabel => "KwLabel" | kwRet => "KwRet" | kwUnreachable => "KwUnreachable" | kwTo => "KwTo"
  | type => "Ty" | intType => "IntTy" | floatType => "FloatTy" | ptrType => "PtrTy"
  | voidType => "VoidTy" | arrayType => "ArrayTy" | vectorType => "VectorTy"
  | pointerSuffix => "PtrSuffix"
  | intLiteral => "IntLit" | floatLiteral => "FloatLit" | boolLiteral => "BoolLit"
  | nullLiteral => "NullLit" | undefLiteral => "UndefLit" | value => "Value"
  | linkage => "DefineAttr" | functionAttribute => "FnAttr" | paramAttribute => "ParamAttr"
  | flag => "Flag"
  | binaryOp => "BinOp" | intPredicate => "IntPred" | floatPredicate => "FloatPred"
  | castOp => "CastOp"
  | binary => "Binary" | intCompare => "ICmp" | floatCompare => "FCmp" | load => "Load"
  | store => "Store" | elementPtr => "Gep" | cast => "Cast" | phi => "Phi"
  | incoming => "Incoming" | select => "Select" | call => "Call" | arguments => "CallArgs"
  | argument => "CallArg" | alloca => "Alloca" | jump => "Br" | branch => "CondBr"
  | retVoid => "RetVoid" | ret => "Ret" | unreachable => "Unreachable"
  | alignment => "AlignTrailer" | metadata => "MetadataTrailer" | instruction => "Instruction"
  | param => "Param" | params => "Params" | block => "Block" | function => "Function"
  | otherLine => "OtherLine" | module => "Module"

end Part

end Dataflow
