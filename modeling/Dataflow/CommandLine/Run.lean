import Dataflow.CommandLine.Usage
import Dataflow.Dot.Drawing
import Dataflow.Failure
import Dataflow.Files.Tree
import Dataflow.Lowering.Stage

/-!
# Running requests

What the program does with its arguments, over any `Host` that reads and writes files for it. A
request that fails before its first output leaves no output. When functions are drawn, one that
cannot be written is reported and the others are still drawn.
-/

namespace Dataflow.CommandLine

/-- What the program needs from the system that it runs on. -/
class Host (m : Type → Type) where
  /-- The name that the program is called by. -/
  programName : m String
  /-- What the file at a path holds, if it can be read. -/
  read : String → m (Option String)
  /-- Makes a directory and all directories on the way to it; false if that fails. -/
  makeDirectories : String → m Bool
  /-- Writes a file, given its path and what it is to hold; false if that fails. -/
  write : String → String → m Bool
  /-- Prints a text as it is. -/
  print : String → m Unit
  /-- Tells the user something beside the output. -/
  report : Level → String → m Unit

/-- How a run ends. -/
inductive Outcome where
  /-- The request was carried out. -/
  | done
  /-- The request failed. -/
  | failed
  /-- The arguments do not make a request. -/
  | misused
deriving DecidableEq, Repr

/-- The exit code of an outcome. -/
def Outcome.code : Outcome → UInt8
  | done => 0
  | failed => 1
  | misused => 2

namespace Drawing

/-- What the names of the files end in. -/
def ending : Drawing → String
  | dataflow _ => ".dot"
  | controlFlow => ".cfg.dot"
  | pages _ => ".pdf"

/-- The drawing of a function, and the events on the way. Pages have to be laid out, which this
program does not do. -/
def draw (d : Drawing) (f : Function) : Option String × Journal :=
  match d with
  | dataflow options =>
    let lowered := f.lower options
    (some lowered.graph.dot, lowered.journal)
  | controlFlow => (some f.dot, [])
  | pages options => (none, (f.lower options).journal)

end Drawing

/-- Whether a level is reported to a user who asked for more messages `verbosity` times. -/
def shows (verbosity : Nat) : Level → Bool
  | .error | .warn => true
  | .info => 1 ≤ verbosity
  | .debug => 2 ≤ verbosity

section

variable {m : Type → Type} [Monad m] [Host m]

/-- Reports something if its level is shown. -/
def tell (verbosity : Nat) (level : Level) (text : String) : m Unit :=
  if shows verbosity level then Host.report level text else pure ()

/-- Reports events. -/
def tellAll (verbosity : Nat) (journal : Journal) : m Unit :=
  journal.forM fun e => tell verbosity e.level e.text

/-- The text to work on. -/
def Source.read : Source → m (Option String)
  | text t => pure (some t)
  | file path => Host.read path

/-- Draws a function into a file of a directory. -/
def drawFunction (verbosity : Nat) (drawing : Drawing) (directory : String) (f : Function) :
    m Unit := do
  let path := Path.inside directory (f.name ++ drawing.ending)
  let (picture?, journal) := drawing.draw f
  tellAll verbosity journal
  match picture? with
  | none => tell verbosity .error s!"@{f.name}: pages cannot be drawn"
  | some picture =>
    if ← Host.write path picture then tell verbosity .info s!"@{f.name}: wrote {path}"
    else tell verbosity .error s!"@{f.name}: cannot write {path}"

/-- Does a job on a module. -/
def Job.run (verbosity : Nat) (module : Module) : Job → m Outcome
  | print none => do
    Host.print module.text
    return .done
  | print (some path) => do
    if ← Host.write path module.text then return .done
    tell verbosity .error s!"cannot write {path}"
    return .failed
  | draw drawing directory function => do
    if ← Host.makeDirectories directory then
      match module.select function with
      | .error name =>
        tell verbosity .error (Failure.unknownFunction name).message
        return .failed
      | .ok functions =>
        functions.forM (drawFunction verbosity drawing directory)
        return .done
    else
      tell verbosity .error s!"cannot make the directory {directory}"
      return .failed

/-- Carries out a request. -/
def Request.run (r : Request) : m Outcome := do
  match ← r.source.read with
  | none =>
    tell r.verbosity .error "cannot read the input"
    return .failed
  | some text =>
    match Module.readChecked text with
    | .error failure =>
      tell r.verbosity .error failure.message
      return .failed
    | .ok module =>
      let change := module.transform r.transform
      tellAll r.verbosity change.journal
      if change.changed then tell r.verbosity .info "the module was changed"
      r.job.run r.verbosity change.module

/-- What the program does with its arguments. -/
def run (arguments : List String) : m Outcome :=
  match Request.ofArguments arguments with
  | .ok request => request.run
  | .error (.help topic) => do
    Host.print (topic.helpText (← Host.programName))
    return .done
  | .error (.helpOnHelp topic) => do
    Host.print (topic.helpOnHelpText (← Host.programName))
    return .done
  | .error (.version topic) => do
    Host.print (topic.versionText (← Host.programName))
    return .done
  | .error (.misuse e) => do
    Host.report .error e.message
    return .misused

end

end Dataflow.CommandLine
