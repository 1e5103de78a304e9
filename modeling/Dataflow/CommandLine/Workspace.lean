import Dataflow.CommandLine.Run

/-!
# Workspaces

A `Workspace` is a file tree, the directory to stand in, and what was printed. It is a host, so what
the program does to a workspace is a function of its arguments.
-/

namespace Dataflow.CommandLine

/-- A file tree with a directory to stand in, and what was printed. -/
structure Workspace where
  /-- The name that the program is called by. -/
  program : String
  /-- The file tree. -/
  tree : FileTree
  /-- The directory that paths start from. -/
  here : Location
  /-- What was printed. -/
  printed : String := ""
deriving DecidableEq, Repr

/-- A workspace in memory is a host: its files are read and written in the state. -/
instance : Host (StateM Workspace) where
  programName := do return (← get).program
  read path := do
    let w ← get
    return w.tree.read? w.here path
  makeDirectories path := do
    let w ← get
    let (tree, made) := w.tree.makeDirectories w.here path
    set { w with tree }
    return made
  write path text := do
    let w ← get
    match w.tree.write? w.here path text with
    | none => return false
    | some tree =>
      set { w with tree }
      return true
  print text := modify fun w => { w with printed := w.printed ++ text }
  report _ _ := pure ()

/-- What the program does to a workspace, and how it ends. -/
def Workspace.run (w : Workspace) (arguments : List String) : Outcome × Workspace :=
  Id.run ((CommandLine.run arguments : StateM Workspace Outcome).run w)

end Dataflow.CommandLine
