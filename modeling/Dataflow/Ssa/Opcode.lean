/-!
# Opcodes

The closed families of opcodes and comparison predicates. Each family has a list of its members and
a `name` for each member; `ofName?` reads a name back.
-/

namespace Dataflow

/-- Arithmetic and bitwise operations on two operands. -/
inductive BinaryOp where
  | add | sub | mul | udiv | sdiv | urem | srem | fadd | fsub | fmul | fdiv | frem
  | shl | lshr | ashr | and | or | xor
deriving DecidableEq, Repr

/-- How two integers or pointers are compared. -/
inductive IntPredicate where
  | eq | ne | ugt | uge | ult | ule | sgt | sge | slt | sle
deriving DecidableEq, Repr

/-- How two floats are compared: `o` asks that neither is a NaN, `u` accepts one. -/
inductive FloatPredicate where
  | false | oeq | ogt | oge | olt | ole | one | ord | ueq | ugt | uge | ult | ule | une | uno | true
deriving DecidableEq, Repr

/-- Conversions that widen, narrow or reinterpret a value. -/
inductive CastOp where
  | trunc | zext | sext | fptrunc | fpext | fptoui | fptosi | uitofp | sitofp
  | ptrtoint | inttoptr | bitcast | addrspacecast
deriving DecidableEq, Repr

namespace BinaryOp

/-- The written form of an operation. -/
def name : BinaryOp → String
  | add => "add" | sub => "sub" | mul => "mul" | udiv => "udiv" | sdiv => "sdiv"
  | urem => "urem" | srem => "srem" | fadd => "fadd" | fsub => "fsub" | fmul => "fmul"
  | fdiv => "fdiv" | frem => "frem" | shl => "shl" | lshr => "lshr" | ashr => "ashr"
  | and => "and" | or => "or" | xor => "xor"

/-- Every operation. -/
def all : List BinaryOp :=
  [add, sub, mul, udiv, sdiv, urem, srem, fadd, fsub, fmul, fdiv, frem, shl, lshr, ashr, and, or,
    xor]

/-- The operation with the given name. -/
def ofName? (text : String) : Option BinaryOp := all.find? (·.name == text)

end BinaryOp

namespace IntPredicate

/-- The written form of a predicate. -/
def name : IntPredicate → String
  | eq => "eq" | ne => "ne" | ugt => "ugt" | uge => "uge" | ult => "ult" | ule => "ule"
  | sgt => "sgt" | sge => "sge" | slt => "slt" | sle => "sle"

/-- Every predicate on integers. -/
def all : List IntPredicate := [eq, ne, ugt, uge, ult, ule, sgt, sge, slt, sle]

/-- The predicate with the given name. -/
def ofName? (text : String) : Option IntPredicate := all.find? (·.name == text)

end IntPredicate

namespace FloatPredicate

/-- The written form of a predicate. -/
def name : FloatPredicate → String
  | false => "false" | oeq => "oeq" | ogt => "ogt" | oge => "oge" | olt => "olt" | ole => "ole"
  | one => "one" | ord => "ord" | ueq => "ueq" | ugt => "ugt" | uge => "uge" | ult => "ult"
  | ule => "ule" | une => "une" | uno => "uno" | true => "true"

/-- Every predicate on floats. -/
def all : List FloatPredicate :=
  [false, oeq, ogt, oge, olt, ole, one, ord, ueq, ugt, uge, ult, ule, une, uno, true]

/-- The predicate with the given name. -/
def ofName? (text : String) : Option FloatPredicate := all.find? (·.name == text)

end FloatPredicate

namespace CastOp

/-- The written form of a conversion. -/
def name : CastOp → String
  | trunc => "trunc" | zext => "zext" | sext => "sext" | fptrunc => "fptrunc" | fpext => "fpext"
  | fptoui => "fptoui" | fptosi => "fptosi" | uitofp => "uitofp" | sitofp => "sitofp"
  | ptrtoint => "ptrtoint" | inttoptr => "inttoptr" | bitcast => "bitcast"
  | addrspacecast => "addrspacecast"

/-- Every conversion. -/
def all : List CastOp :=
  [trunc, zext, sext, fptrunc, fpext, fptoui, fptosi, uitofp, sitofp, ptrtoint, inttoptr, bitcast,
    addrspacecast]

/-- The conversion with the given name. -/
def ofName? (text : String) : Option CastOp := all.find? (·.name == text)

end CastOp

end Dataflow
