import Dataflow.Files.Path

/-!
# File trees

A `FileTree` holds directories and text files by their location, which is the list of names on the
way from the root. Paths are followed step by step through directories that exist, so `a/..` leads
nowhere if there is no `a`.
-/

namespace Dataflow

/-- The names on the way from the root to a directory or a file. -/
abbrev Location := List String

/-- Directories and text files. The root is always there. -/
structure FileTree where
  /-- The directories, oldest first. -/
  directories : List Location := []
  /-- The files and what they hold. -/
  files : List (Location × String) := []
deriving DecidableEq, Repr

namespace FileTree

variable (t : FileTree)

/-- Whether there is a directory at a location. -/
def isDirectory (l : Location) : Bool := l.isEmpty || t.directories.contains l

/-- What the file at a location holds. -/
def contents? (l : Location) : Option String := (t.files.find? (·.1 == l)).map (·.2)

/-- The tree with a file at a location. -/
def put (l : Location) (text : String) : FileTree :=
  if (t.contents? l).isSome then
    { t with files := t.files.map fun e => if e.1 = l then (l, text) else e }
  else { t with files := t.files ++ [(l, text)] }

/-- Where a path starts for someone who stands at `here`. -/
def origin (here : Location) (path : String) : Location := if Path.isAbsolute path then [] else here

/-- Why steps lead nowhere. -/
inductive Obstacle where
  /-- A directory on the way is not there. -/
  | missing
  /-- A name on the way cannot be that of a directory. -/
  | refused
deriving DecidableEq, Repr

/-- Follows steps through directories. -/
def follow (l : Location) : List String → Except Obstacle Location
  | [] => .ok l
  | step :: rest =>
    if Path.isStill step then follow l rest
    else if step = ".." then follow l.dropLast rest
    else
      let next := l ++ [step]
      if t.isDirectory next then follow next rest
      else if (t.contents? next).isSome || !Path.isEntryName step then .error .refused
      else .error .missing

/-- The location of the entry that a path names. The entry need not be there, but its directory
has to be, and the last step has to be a name. -/
def locate? (here : Location) (path : String) : Option Location := do
  let steps := Path.steps path
  let name ← steps.getLast?
  guard (Path.isUsable path && Path.isEntryName name)
  let directory ← (t.follow (origin here path) steps.dropLast).toOption
  return directory ++ [name]

/-- What the file at a path holds. -/
def read? (here : Location) (path : String) : Option String :=
  (t.locate? here path).bind t.contents?

/-- Writes a file at a path; a file that is there is replaced. -/
def write? (here : Location) (path text : String) : Option FileTree := do
  let l ← t.locate? here path
  guard (!t.isDirectory l)
  return t.put l text

/-- Makes the directory that steps lead to, unless it is there. The directory it is made in has to
be there, and a last step that is no name leads to a directory that is. -/
def makeDirectory (l : Location) (steps : List String) : Except Obstacle FileTree := do
  let directory ← t.follow l steps.dropLast
  match steps.getLast? with
  | none => return t
  | some name =>
    let place := directory ++ [name]
    if Path.isStill name || name = ".." || t.isDirectory place then return t
    else if (t.contents? place).isSome || !Path.isEntryName name then throw .refused
    else return { t with directories := t.directories ++ [place] }

/-- Makes the first of some directories, each of which may lie in those after it. The others are
only made where the ones before them need it. The tree keeps what was made before a failure; the
flag says whether there was none. -/
def makeNested (t : FileTree) (l : Location) : List (List String) → FileTree × Bool
  | [] => (t, true)
  | steps :: shorter =>
    match t.makeDirectory l steps with
    | .ok tree => (tree, true)
    | .error .refused => (t, false)
    | .error .missing =>
      let (tree, made) := makeNested t l shorter
      match made, tree.makeDirectory l steps with
      | true, .ok tree => (tree, true)
      | _, _ => (tree, false)

/-- Makes a directory and those on the way to it that are missing. The end of the path is tried
first, so a path that goes on behind a missing directory with a step that stays is not made. -/
def makeDirectories (here : Location) (path : String) : FileTree × Bool :=
  if Path.isOrigin path then (t, true)
  else if Path.isUsable path then makeNested t (origin here path) (Path.ancestry path)
  else (t, false)

/-- The directories that are new since an earlier tree. -/
def newDirectories (earlier : FileTree) : List Location :=
  t.directories.filter fun l => !earlier.isDirectory l

/-- The files that are new since an earlier tree or hold something else now. -/
def changedFiles (earlier : FileTree) : List (Location × String) :=
  t.files.filter fun e => earlier.contents? e.1 != some e.2

end FileTree

end Dataflow
