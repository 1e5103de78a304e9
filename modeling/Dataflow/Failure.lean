import Dataflow.Check.Dependence
import Dataflow.Text.Binding
import Dataflow.Text.Refusal

/-!
# Reading modules

From a text to a module, and the ways in which a request on a text can fail. `Module.read` asks
only that the text can be understood; `Module.readChecked` asks also that every function is well
structured.
-/

namespace Dataflow

/-- Why a request on a text fails. -/
inductive Failure where
  /-- The text does not follow the grammar. -/
  | grammar (refusal : Refusal)
  /-- The text follows the grammar, and a name or a number in it is wrong. -/
  | binding (error : BindingError)
  /-- Some function is not well structured. -/
  | malformed (violations : List Violation)
  /-- There is no function of that name. -/
  | unknownFunction (name : String)
deriving DecidableEq, Repr

/-- What a user is told. -/
def Failure.message : Failure → String
  | grammar refusal => "Parse error: IR: " ++ refusal.message
  | binding error => "Parse error: IR: " ++ error.message
  | malformed violations => "Errors: " ++ Violation.report violations
  | unknownFunction name => "Unknown function: @" ++ name

namespace Module

/-- The module that a text describes. Every function of the text is looked at, in order. -/
def read (text : String) : Except Failure Module :=
  match Surface.functions? text with
  | none => .error (.grammar (.ofText text))
  | some trees =>
    match trees.mapM (·.bind) with
    | .error e => .error (.binding e)
    | .ok functions => .ok { functions }

/-- The module that a text describes, if all its functions are well structured. -/
def readChecked (text : String) : Except Failure Module := do
  let m ← read text
  if m.violations = [] then return m else throw (.malformed m.violations)

end Module

end Dataflow
