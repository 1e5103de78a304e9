/-!
# Names in text

A name stands bare after its sigil if all its characters may stand in a bare name, and in double
quotes otherwise. A quoted name has no escapes, so a name with a double quote in it has no written
form that reads back.
-/

namespace Dataflow.Symbol

/-- Whether a character may stand in a bare name: an ASCII letter or digit, or one of `_.$-`. -/
def isNameChar (c : Char) : Bool :=
  c.isAlphanum || c == '_' || c == '.' || c == '$' || c == '-'

/-- A name as it is written, without a sigil. -/
def text (name : String) : String :=
  if name.toList.all isNameChar then name else "\"" ++ name ++ "\""

/-- The name of a value or a label inside a function. -/
def localText (name : String) : String := "%" ++ text name

/-- The name of a function or a global. -/
def globalText (name : String) : String := "@" ++ text name

end Dataflow.Symbol
