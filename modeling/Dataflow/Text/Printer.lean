import Dataflow.Ssa.Module
import Dataflow.Text.Symbol

/-!
# Writing functions

The written form of operands, instructions, functions and modules. An instruction is written with
the name of its result if its type is not `void`; a result without a name is written by its number.
-/

namespace Dataflow

namespace Function

variable (f : Function)

/-- The written form of an operand: its name with a sigil, or the literal. -/
def operandText : Operand → String
  | .param index =>
    match f.params[index]? with
    | some p => Symbol.localText p.name
    | none => s!"%arg{index}"
  | .result id =>
    match (f.slots[id]?).bind (·.name) with
    | some name => Symbol.localText name
    | none => s!"%{id}"
  | .const value => value.literal
  | .global name => Symbol.globalText name
  | .function name => Symbol.globalText name

/-- The written form of an operand after its type. -/
def typedText (t : TypedOperand) : String := t.ty.text ++ " " ++ f.operandText t.value

/-- The written form of a reference to a block. -/
def labelText (b : BlockId) : String := Symbol.localText (f.blockName b)

/-- The written form of one arm of a phi. -/
def armText (a : Arm) : String :=
  "[ " ++ f.operandText a.value ++ ", " ++ f.labelText a.source ++ " ]"

/-- The written form of what an instruction does, without the name of its result. -/
def bodyText : Instruction → String
  | .binary op ty lhs rhs =>
    op.name ++ " " ++ ty.text ++ " " ++ f.operandText lhs ++ ", " ++ f.operandText rhs
  | .compare (.int predicate) ty lhs rhs =>
    "icmp " ++ predicate.name ++ " " ++ ty.text ++ " " ++ f.operandText lhs ++ ", " ++
      f.operandText rhs
  | .compare (.float predicate) ty lhs rhs =>
    "fcmp " ++ predicate.name ++ " " ++ ty.text ++ " " ++ f.operandText lhs ++ ", " ++
      f.operandText rhs
  | .load ty address => "load " ++ ty.text ++ ", " ++ f.typedText address
  | .store value address => "store " ++ f.typedText value ++ ", " ++ f.typedText address
  | .elementPtr source base indices =>
    "getelementptr " ++ source.text ++ ", " ++
      ", ".intercalate (f.typedText base :: indices.map f.typedText)
  | .cast op value target => op.name ++ " " ++ f.typedText value ++ " to " ++ target.text
  | .phi ty arms => "phi " ++ ty.text ++ " " ++ ", ".intercalate (arms.map f.armText)
  | .select cond ty onTrue onFalse =>
    "select i1 " ++ f.operandText cond ++ ", " ++ f.typedText ⟨ty, onTrue⟩ ++ ", " ++
      f.typedText ⟨ty, onFalse⟩
  | .call retTy callee args =>
    "call " ++ retTy.text ++ " " ++ f.operandText callee ++ "(" ++
      ", ".intercalate (args.map f.typedText) ++ ")"
  | .alloca ty none => "alloca " ++ ty.text
  | .alloca ty (some count) => "alloca " ++ ty.text ++ ", " ++ f.typedText count
  | .jump target => "br label " ++ f.labelText target
  | .branch cond onTrue onFalse =>
    "br i1 " ++ f.operandText cond ++ ", label " ++ f.labelText onTrue ++ ", label " ++
      f.labelText onFalse
  | .ret none => "ret void"
  | .ret (some value) => "ret " ++ f.typedText value
  | .unreachable => "unreachable"

/-- The written form of an instruction, empty for a number that names none. -/
def instructionText (id : InstId) : String :=
  match f.instruction? id with
  | none => ""
  | some i =>
    if i.resultTy = .void then f.bodyText i
    else f.operandText (.result id) ++ " = " ++ f.bodyText i

/-- The written form of a block: its label, then a line for each instruction. -/
def blockText (k : Block) : String :=
  Symbol.text k.name ++ ":\n" ++
    String.join (k.insts.map fun id => "  " ++ f.instructionText id ++ "\n")

/-- The written form of a parameter. -/
def paramText (p : Param) : String := p.ty.text ++ " " ++ Symbol.localText p.name

/-- The line that opens the written form of a function. -/
def headText : String :=
  "define " ++ f.ret.text ++ " " ++ Symbol.globalText f.name ++ "(" ++
    ", ".intercalate (f.params.map paramText) ++ ") \x7b\n"

/-- The written form of a function, with an empty line between two blocks. -/
def text : String :=
  f.headText ++ "\n".intercalate (f.blocks.map f.blockText) ++ "\x7d\n"

end Function

/-- The written form of a module, with an empty line between two functions. -/
def Module.text (m : Module) : String := "\n".intercalate (m.functions.map (·.text))

end Dataflow
