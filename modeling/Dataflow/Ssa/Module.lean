import Dataflow.Ssa.Function

/-!
# Modules

A `Module` is the list of functions of one text. `select` narrows it to one function by name.
-/

namespace Dataflow

/-- The functions of one text, in the order they are written. -/
structure Module where
  /-- The functions. -/
  functions : List Function
deriving DecidableEq, Repr

namespace Module

/-- The first function with the given name. -/
def function? (m : Module) (name : String) : Option Function :=
  m.functions.find? (·.name == name)

/-- The function with the given name, or every function if no name is given. Where there is none of
that name, the name is the error. -/
def select (m : Module) : Option String → Except String (List Function)
  | none => .ok m.functions
  | some name =>
    match m.function? name with
    | some f => .ok [f]
    | none => .error name

end Module

end Dataflow
