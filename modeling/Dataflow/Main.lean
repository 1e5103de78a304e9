import Dataflow.CommandLine.Run

/-!
# The program

Runs the command line on the files of the machine. Messages go to the error output.
-/

namespace Dataflow.CommandLine

/-- The system is a host: its files are read and written, and its streams take the output. -/
instance : Host IO where
  programName := do return (← IO.appPath).fileName.getD ""
  read path := do
    try
      let text ← IO.FS.readFile path
      return some text
    catch _ => return none
  makeDirectories path := do
    try
      IO.FS.createDirAll path
      return true
    catch _ => return false
  write path text := do
    try
      IO.FS.writeFile path text
      return true
    catch _ => return false
  print text := do
    let out ← IO.getStdout
    out.putStr text
  report level text := IO.eprintln s!"{level.name}: {text}"

end Dataflow.CommandLine

/-- Runs the command line and gives its exit code. -/
def main (arguments : List String) : IO UInt32 := do
  let outcome : Dataflow.CommandLine.Outcome ← Dataflow.CommandLine.run arguments
  return outcome.code.toUInt32
