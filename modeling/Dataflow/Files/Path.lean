/-!
# Paths

How a path is made of steps. A path that starts with a slash starts at the root, every other path
starts where the reader of the path stands. An empty step and the step `.` stay, and `..` goes up.
-/

namespace Dataflow.Path

/-- The steps of a path: the texts between its slashes. -/
def split : List Char → List (List Char)
  | [] => [[]]
  | c :: rest =>
    if c = '/' then [] :: split rest
    else
      match split rest with
      | [] => [[c]]
      | step :: steps => (c :: step) :: steps

/-- The steps of a path: the texts between its slashes. -/
def steps (path : String) : List String := (split path.toList).map String.ofList

/-- Whether a path starts at the root. -/
def isAbsolute (path : String) : Bool := path.toList.head? = some '/'

/-- The path of something in a directory. A path that starts at the root is kept as it is. -/
def inside (directory path : String) : String :=
  if isAbsolute path then path
  else if directory.toList.getLast? = some '/' then directory ++ path
  else directory ++ "/" ++ path

/-- The most bytes that a path can have. -/
def maxBytes : Nat := 4095

/-- The most bytes that a name can have. -/
def maxNameBytes : Nat := 255

/-- Whether a path is short enough to be looked up, and holds no zero character. -/
def isUsable (path : String) : Bool :=
  path.utf8ByteSize ≤ maxBytes && !path.toList.contains '\x00'

/-- Whether a step stays in the directory it starts from. -/
def isStill (step : String) : Bool := step = "" || step = "."

/-- Whether a step is the name of a directory entry. -/
def isEntryName (step : String) : Bool :=
  !isStill step && step != ".." && step.utf8ByteSize ≤ maxNameBytes

/-- The steps of a path that do not stay. -/
def moves (path : String) : List String := (steps path).filter (!isStill ·)

/-- Whether a path names the place it starts from without taking a step. -/
def isOrigin (path : String) : Bool :=
  path.isEmpty || (isAbsolute path && (moves path).isEmpty)

/-- The steps of a path without the slashes at its end. -/
def withoutTail (steps : List String) : List String :=
  (steps.reverse.dropWhile (·.isEmpty)).reverse

/-- The steps of a path, and those of the shorter paths on the way to it, longest first. Only the
path itself keeps the steps that stay. -/
def ancestry (path : String) : List (List String) :=
  let shorter := (List.range' 1 ((moves path).length - 1)).reverse
  withoutTail (steps path) :: shorter.map (moves path).take

end Dataflow.Path
