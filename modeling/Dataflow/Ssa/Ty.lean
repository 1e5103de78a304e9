/-!
# Types of values

`Ty` is the type of an operand or of a result. Bit widths fit in 32 bits and aggregate lengths in
64 bits, so the range is part of the type. `Ty.text` is the written form.
-/

namespace Dataflow

/-- The type of a value. -/
inductive Ty where
  /-- No value. -/
  | void
  /-- An integer of the given width. -/
  | int (bits : UInt32)
  /-- A 16 bit float. -/
  | half
  /-- A 16 bit float with the exponent range of `float`. -/
  | bfloat
  /-- A 32 bit float. -/
  | float
  /-- A 64 bit float. -/
  | double
  /-- A 128 bit float. -/
  | fp128
  /-- An 80 bit float. -/
  | x86fp80
  /-- A pointer that does not say what it points to. -/
  | ptr
  /-- A pointer to a value of type `target`. -/
  | pointer (target : Ty)
  /-- A sequence of elements in memory. -/
  | array (length : UInt64) (element : Ty)
  /-- A sequence of elements that is computed with as a whole. -/
  | vector (length : UInt64) (element : Ty)
deriving DecidableEq, Repr

namespace Ty

/-- The type of truth values. -/
def bool : Ty := .int 1

/-- The written form of a type. -/
def text : Ty → String
  | void => "void"
  | int bits => s!"i{bits}"
  | half => "half"
  | bfloat => "bfloat"
  | float => "float"
  | double => "double"
  | fp128 => "fp128"
  | x86fp80 => "x86_fp80"
  | ptr => "ptr"
  | pointer target => target.text ++ "*"
  | array length element => s!"[{length} x " ++ element.text ++ "]"
  | vector length element => s!"<{length} x " ++ element.text ++ ">"

end Ty

end Dataflow
