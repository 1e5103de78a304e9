import Dataflow.CommandLine.Vocabulary
import Dataflow.Lowering.Draft
import Dataflow.Transform.Pipeline

/-!
# Requests

From the arguments of a command line to a `Request`. Arguments are read from left to right, and the
first one that does not fit ends the reading, as does a request for help. A setting takes its value
from the rest of its argument or from the next one; a next argument that starts with a dash is a
value only if it is the dash alone.
-/

namespace Dataflow.CommandLine

/-- Where the text to work on comes from. -/
inductive Source where
  /-- The text was given. -/
  | text (text : String)
  /-- The text is in a file. -/
  | file (path : String)
deriving DecidableEq, Repr

/-- What is drawn of each function. -/
inductive Drawing where
  /-- The dataflow graph, as text. -/
  | dataflow (options : LowerOptions)
  /-- The control flow graph, as text. -/
  | controlFlow
  /-- The dataflow graph, on pages. -/
  | pages (options : LowerOptions)
deriving DecidableEq, Repr

/-- What is done with the module. -/
inductive Job where
  /-- Every function, or the one of the given name, is drawn into a file of a directory. -/
  | draw (drawing : Drawing) (directory : String) (function : Option String)
  /-- The module is written to a file or printed. -/
  | print (path : Option String)
deriving DecidableEq, Repr

/-- What the arguments ask for. -/
structure Request where
  /-- Where the text comes from. -/
  source : Source
  /-- What is done to the module first. -/
  transform : TransformOptions
  /-- What is done with the module then. -/
  job : Job
  /-- How often more messages were asked for. -/
  verbosity : Nat
deriving DecidableEq, Repr

/-- Why arguments do not make a request. -/
inductive UsageError where
  /-- A word of the command is missing. -/
  | missingCommand
  /-- An argument has no meaning here. -/
  | unknownArgument (argument : String)
  /-- A setting has no value, or an empty one that has to be a path. -/
  | missingValue (s : Setting)
  /-- Something that takes no value has one. -/
  | unexpectedValue (c : Choice)
  /-- Something is given twice. -/
  | repeated (c : Choice)
  /-- The text to work on is not given. -/
  | missingSource
  /-- The text to work on is given in two ways. -/
  | twoSources
deriving DecidableEq, Repr

/-- Why reading arguments ends without a request. -/
inductive Stop where
  /-- The arguments do not make a request. -/
  | misuse (e : UsageError)
  /-- Help was asked for. -/
  | help (t : Topic)
  /-- Help on the word that asks for help was asked for. -/
  | helpOnHelp (t : Topic)
  /-- The version was asked for. -/
  | version (t : Topic)
deriving DecidableEq, Repr

/-- The options read so far. -/
structure Given where
  /-- The settings and their values. -/
  settings : List (Setting × String) := []
  /-- The switches. -/
  switches : List Switch := []
  /-- How often more messages were asked for. -/
  verbosity : Nat := 0
deriving DecidableEq, Repr

namespace Given

/-- The value of a setting. -/
def value? (g : Given) (s : Setting) : Option String := g.settings.lookup s

/-- Whether a switch was given. -/
def has (g : Given) (s : Switch) : Bool := g.switches.contains s

/-- Enters the value of a setting. -/
def set (g : Given) (s : Setting) (value : String) : Except Stop Given :=
  if (g.value? s).isSome then .error (.misuse (.repeated (.setting s)))
  else if s.isPath && value = "" then .error (.misuse (.missingValue s))
  else .ok { g with settings := g.settings ++ [(s, value)] }

/-- Enters a choice that takes no value. -/
def choose (g : Given) (t : Topic) : Choice → Except Stop Given
  | .verbose => .ok { g with verbosity := g.verbosity + 1 }
  | .switch s =>
    if g.has s then .error (.misuse (.repeated (.switch s)))
    else .ok { g with switches := g.switches ++ [s] }
  | .help => .error (.help t)
  | .version => .error (.version t)
  | .setting s => .error (.misuse (.missingValue s))

/-- The transformations that were asked for. -/
def transform (g : Given) : TransformOptions where
  mergeChains := g.has .mergeBlocks
  threadMemory := g.has .enforceMemOrder

/-- How lowering was asked to work. -/
def lowering (g : Given) : LowerOptions where
  entryStream := !g.has .noEntryStream
  memoryDependencies := g.has .memoryDeps
  traceBranches := !g.has .directMerge

/-- Where the text to work on comes from. -/
def source (g : Given) : Except Stop Source :=
  match g.value? .input, g.value? .file with
  | some text, none => .ok (.text text)
  | none, some path => .ok (.file path)
  | none, none => .error (.misuse .missingSource)
  | some _, some _ => .error (.misuse .twoSources)

/-- What a command does with the module. -/
def job (g : Given) (a : Action) : Job :=
  let draw (drawing : Drawing) : Job :=
    .draw drawing ((g.value? .output).getD ".") (g.value? .function)
  match a with
  | .dfg => draw (.dataflow g.lowering)
  | .cfg => draw .controlFlow
  | .pdf => draw (.pages g.lowering)
  | .opt => .print (g.value? .output)

/-- The request that the words and options make. -/
def request (g : Given) : Topic → Except Stop Request
  | .action a => do
    let source ← g.source
    return { source, transform := g.transform, job := g.job a, verbosity := g.verbosity }
  | .program | .render => .error (.misuse .missingCommand)

end Given

/-- The options of one argument, and the setting whose value is still to come, if there is one. -/
abbrev Reading := Except Stop (Given × Option Setting)

/-- Splits a text at its first equals sign. -/
def splitAtEquals (cs : List Char) : List Char × Option (List Char) :=
  match cs.dropWhile (· ≠ '=') with
  | [] => (cs, none)
  | _ :: value => (cs.takeWhile (· ≠ '='), some value)

/-- Reads an argument that starts with two dashes, given without them. -/
def readLong (t : Topic) (g : Given) (cs : List Char) : Reading :=
  let (word, value?) := splitAtEquals cs
  match t.choices.find? (·.long.toList == word), value? with
  | none, _ => .error (.misuse (.unknownArgument (String.ofList ('-' :: '-' :: word))))
  | some (.setting s), none => .ok (g, some s)
  | some (.setting s), some value => (g.set s (String.ofList value)).map (·, none)
  | some c, none => (g.choose t c).map (·, none)
  | some c, some _ => .error (.misuse (.unexpectedValue c))

/-- Reads an argument that starts with one dash, given without it: letters one after the other, of
which a setting takes what follows as its value, after an equals sign if there is one. -/
def readShort (t : Topic) (g : Given) : List Char → Reading
  | [] => .ok (g, none)
  | c :: rest =>
    match t.choices.find? (·.short? == some c) with
    | none => .error (.misuse (.unknownArgument (String.ofList ['-', c])))
    | some (.setting s) =>
      match rest with
      | [] => .ok (g, some s)
      | '=' :: value => (g.set s (String.ofList value)).map (·, none)
      | value => (g.set s (String.ofList value)).map (·, none)
    | some choice =>
      match g.choose t choice with
      | .error stop => .error stop
      | .ok g => readShort t g rest

/-- Whether an argument starts with a dash and is more than that. -/
def isOption (argument : String) : Bool :=
  match argument.toList with
  | '-' :: _ :: _ => true
  | _ => false

/-- Whether a word asks for help on the words that follow it, which only makes sense where words
may follow. -/
def Topic.isHelpWord (t : Topic) (word : String) : Bool := word = "help" && !t.words.isEmpty

/-- Follows words to the topic of a request for help. -/
def helpTopic (t : Topic) : List String → Except Stop Request
  | [] => .error (.help t)
  | word :: rest =>
    match t.word? word with
    | some next => helpTopic next rest
    | none =>
      if t.isHelpWord word && rest.isEmpty then .error (.helpOnHelp t)
      else .error (.misuse (.unknownArgument word))

/-- Reads the options of one argument. -/
def readOptions (t : Topic) (g : Given) (argument : String) : Reading :=
  match argument.toList with
  | '-' :: '-' :: cs => readLong t g cs
  | '-' :: c :: cs => readShort t g (c :: cs)
  | _ => .error (.misuse (.unknownArgument argument))

/-- Reads arguments. After a double dash no argument has a meaning. -/
def readArguments (t : Topic) (g : Given) : List String → Except Stop Request
  | [] => g.request t
  | argument :: rest =>
    match t.word? argument with
    | some next => readArguments next g rest
    | none =>
      if t.isHelpWord argument then helpTopic t rest
      else if argument = "--" then
        match rest with
        | [] => g.request t
        | extra :: _ => .error (.misuse (.unknownArgument extra))
      else
        match readOptions t g argument with
        | .error stop => .error stop
        | .ok (g, none) => readArguments t g rest
        | .ok (g, some s) =>
          match rest with
          | [] => .error (.misuse (.missingValue s))
          | value :: rest =>
            if isOption value then .error (.misuse (.missingValue s))
            else
              match g.set s value with
              | .error stop => .error stop
              | .ok g => readArguments t g rest

/-- The request that the arguments of a command line make. -/
def Request.ofArguments (arguments : List String) : Except Stop Request :=
  readArguments .program {} arguments

end Dataflow.CommandLine
