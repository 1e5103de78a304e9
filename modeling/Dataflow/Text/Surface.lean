import Dataflow.Ssa.Instruction

/-!
# Text as written

The tree that a text has before names are looked up: operands and labels are still names, and
types and lengths are still digits. Words that carry no meaning for data flow (flags, attributes,
alignments, metadata) are not kept.
-/

namespace Dataflow.Surface

/-- A type as written. -/
inductive TypeText where
  /-- A type that is one word and no integer type. -/
  | named (ty : Ty)
  /-- An integer type with the digits of its width. -/
  | int (digits : String)
  /-- An array type with its length as written. -/
  | array (length : String) (element : TypeText)
  /-- A vector type with its length as written. -/
  | vector (length : String) (element : TypeText)
  /-- A pointer type that says what it points to. -/
  | pointer (target : TypeText)
deriving DecidableEq, Repr

/-- An operand as written. -/
inductive OperandText where
  /-- The name of a parameter or a result. -/
  | local (name : String)
  /-- The name of a global. -/
  | global (name : String)
  /-- A literal. -/
  | literal (text : String)
deriving DecidableEq, Repr

/-- What a call names: a function, or a value that holds one. -/
inductive CalleeText where
  /-- The name of a function. -/
  | global (name : String)
  /-- The name of a parameter or a result. -/
  | local (name : String)
deriving DecidableEq, Repr

/-- An operand with the type written before it. -/
structure TypedText where
  /-- The type. -/
  ty : TypeText
  /-- The operand. -/
  value : OperandText
deriving DecidableEq, Repr

/-- One arm of a phi as written. -/
structure ArmText where
  /-- The value. -/
  value : OperandText
  /-- The label of the block that control arrives from. -/
  source : String
deriving DecidableEq, Repr

/-- An instruction as written, without the name of its result. -/
inductive Statement where
  /-- An operation on two operands; only the first has its type before it. -/
  | binary (op : BinaryOp) (lhs : TypedText) (rhs : OperandText)
  /-- A comparison of two operands; only the first has its type before it. -/
  | compare (test : Comparison) (lhs : TypedText) (rhs : OperandText)
  /-- A read of memory. -/
  | load (ty : TypeText) (address : TypedText)
  /-- A write of memory. -/
  | store (value address : TypedText)
  /-- An address computation. -/
  | elementPtr (source : TypeText) (base : TypedText) (indices : List TypedText)
  /-- A conversion. -/
  | cast (op : CastOp) (value : TypedText) (target : TypeText)
  /-- A join. -/
  | phi (ty : TypeText) (arms : List ArmText)
  /-- A choice between two values. -/
  | select (cond onTrue onFalse : TypedText)
  /-- A call. -/
  | call (retTy : TypeText) (callee : CalleeText) (args : List TypedText)
  /-- A reservation of memory. -/
  | alloca (ty : TypeText) (count : Option TypedText)
  /-- A branch to one label. -/
  | jump (target : String)
  /-- A branch to one of two labels. -/
  | branch (cond : TypedText) (onTrue onFalse : String)
  /-- A return. -/
  | ret (value : Option TypedText)
  /-- The end of a path that is never taken. -/
  | unreachable
deriving DecidableEq, Repr

/-- A line of a block: an instruction and the name of its result, if one is written. -/
structure Line where
  /-- The name before the equals sign. -/
  name : Option String
  /-- The instruction. -/
  statement : Statement
deriving DecidableEq, Repr

/-- A block as written. Only the first of a function can do without a label. -/
structure BlockText where
  /-- The label. -/
  label : Option String
  /-- The lines. -/
  lines : List Line
deriving DecidableEq, Repr

/-- A parameter as written. -/
structure ParamText where
  /-- The type. -/
  ty : TypeText
  /-- The name, if one is written. -/
  name : Option String
deriving DecidableEq, Repr

/-- A function as written. -/
structure FunctionText where
  /-- The type of the returned value. -/
  ret : TypeText
  /-- The name. -/
  name : String
  /-- The parameters. -/
  params : List ParamText
  /-- The blocks. -/
  blocks : List BlockText
deriving DecidableEq, Repr

end Dataflow.Surface
