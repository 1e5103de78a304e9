import Dataflow.Text.Quoted

/-!
# Violations

What can be wrong with the structure of a function, and the report that lists violations. A report
gives each text in double quotes with escapes, so that it takes one line.
-/

namespace Dataflow

/-- The rule that is broken. -/
inductive ViolationKind where
  /-- A block does not end by leaving it. -/
  | missingTerminator
  /-- Control leaves a block before its end. -/
  | misplacedTerminator
  /-- A phi stands after another kind of instruction. -/
  | misplacedPhi
  /-- A phi has an arm for a block that control cannot come from. -/
  | invalidIncoming
  /-- Instructions need one another's results without a phi between them. -/
  | circularDependency
deriving DecidableEq, Repr

/-- A broken rule and where it is broken. -/
structure Violation where
  /-- The rule. -/
  kind : ViolationKind
  /-- The place. -/
  message : String
deriving DecidableEq, Repr

/-- The name of a rule in a report. -/
def ViolationKind.name : ViolationKind → String
  | missingTerminator => "MissingTerminator"
  | misplacedTerminator => "MisplacedTerminator"
  | misplacedPhi => "MisplacedPhi"
  | invalidIncoming => "InvalidIncoming"
  | circularDependency => "CircularDependency"

namespace Violation

/-- One violation in a report. -/
def reportEntry (v : Violation) : String :=
  "    ValidationError \x7b\n        kind: " ++ v.kind.name ++ ",\n        message: " ++
    Quoted.encode v.message ++ ",\n    \x7d,\n"

/-- The report on a list of violations. -/
def report : List Violation → String
  | [] => "[]"
  | vs => "[\n" ++ String.join (vs.map reportEntry) ++ "]"

end Violation

end Dataflow
