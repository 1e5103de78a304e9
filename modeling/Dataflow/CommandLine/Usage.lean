import Dataflow.CommandLine.Request

/-!
# Usage

What a user is told about the command line: the help on a topic, the version, and why arguments do
not make a request. The help and the version name the program as it was called.
-/

namespace Dataflow.CommandLine

/-- The version of the program. -/
def programVersion : String := "0.1.0"

/-- What stands for the value of a setting. -/
def Setting.placeholder (t : Topic) : Setting → String
  | input | file => "<INPUT>"
  | output => if t = .action .opt then "<OUTPUT>" else "<DIR>"
  | function => "<NAME>"

/-- What a user is told about a choice. -/
def Choice.about (t : Topic) : Choice → String
  | setting .input => "Raw input (inline)"
  | setting .file => "Source file to process"
  | setting .output =>
    if t = .action .opt then "Write the IR to a file instead of stdout"
    else "Directory the files are written to [default: .]"
  | setting .function => "Only process this function"
  | switch .mergeBlocks => "Merge straight-line block chains first"
  | switch .enforceMemOrder => "Thread a memory-order token through loads and stores"
  | switch .noEntryStream => "Do not gate branch steers with an entry stream"
  | switch .memoryDeps => "Wire the last store to every later load"
  | switch .directMerge => "Wire values behind unconditional branches straight into merges"
  | verbose => "Raise the log level (repeatable)"
  | help => "Print help"
  | version => "Print version"

/-- How a choice is written. -/
def Choice.spelling (t : Topic) (c : Choice) : String :=
  let letter := match c.short? with
    | some l => String.ofList ['-', l, ',', ' ']
    | none => "    "
  let value := match c with
    | setting s => " " ++ s.placeholder t
    | verbose => "..."
    | switch _ | help | version => ""
  letter ++ "--" ++ c.long ++ value

/-- The choices of a topic in the order in which they are listed. -/
def Topic.listed : Topic → List Choice
  | action .opt =>
    [.setting .input, .verbose, .setting .file, .switch .mergeBlocks, .switch .enforceMemOrder,
      .setting .output, .help, .version]
  | action a =>
    [.setting .input, .verbose, .setting .file, .setting .output, .setting .function]
      ++ a.switches.map .switch ++ [.help, .version]
  | program | render => [.verbose, .help, .version]

/-- Lines of two columns under a title. -/
def columns (title : String) (rows : List (String × String)) : String :=
  let width := (rows.map (·.1.length)).foldl max 0
  let line (row : String × String) : String :=
    "  " ++ row.1 ++ String.ofList (List.replicate (width - row.1.length) ' ') ++ "  " ++ row.2
  "\n".intercalate (title :: rows.map line)

namespace Topic

/-- The name of the program and the words of a topic as one text. -/
def commandLine (name : String) (t : Topic) : String := " ".intercalate (name :: t.path)

/-- How the words of a topic go on. -/
def synopsis (name : String) (t : Topic) : String :=
  let rest := match t with
    | action _ => "<--input <INPUT>|--file <INPUT>>"
    | program | render => "<COMMAND>"
  "Usage: " ++ t.commandLine name ++ " [OPTIONS] " ++ rest

/-- What a user is told about the word that asks for help. -/
def aboutHelp : String := "Print this message or the help of the given subcommand(s)"

/-- The commands that a topic leads to. -/
def commands (t : Topic) : List (String × String) :=
  t.words.map (fun w => (w.1, w.2.about)) ++ [("help", aboutHelp)]

/-- The help on a topic. -/
def helpText (name : String) (t : Topic) : String :=
  let about := if t.about.isEmpty then [] else [t.about]
  let commands := if t.words.isEmpty then [] else [columns "Commands:" t.commands]
  let options := columns "Options:" (t.listed.map fun c => (c.spelling t, c.about t))
  "\n\n".intercalate (about ++ [t.synopsis name] ++ commands ++ [options]) ++ "\n"

/-- The help on the word that asks for help on what a topic leads to. -/
def helpOnHelpText (name : String) (t : Topic) : String :=
  let synopsis := "Usage: " ++ t.commandLine name ++ " help [COMMAND]..."
  let arguments := columns "Arguments:" [("[COMMAND]...", "Print help for the subcommand(s)")]
  "\n\n".intercalate [aboutHelp, synopsis, arguments] ++ "\n"

/-- The version, after the name of the program and the words of the topic. -/
def versionText (name : String) (t : Topic) : String :=
  "-".intercalate (name :: t.path) ++ " " ++ programVersion ++ "\n"

end Topic

/-- Why arguments do not make a request. -/
def UsageError.message : UsageError → String
  | missingCommand => "a command is required"
  | unknownArgument argument => "unexpected argument '" ++ argument ++ "'"
  | missingValue s => "a value is required for '--" ++ (Choice.setting s).long ++ "'"
  | unexpectedValue c => "unexpected value for '--" ++ c.long ++ "'"
  | repeated c => "the argument '--" ++ c.long ++ "' cannot be used multiple times"
  | missingSource => "one of '--input' and '--file' is required"
  | twoSources => "'--input' cannot be used with '--file'"

end Dataflow.CommandLine
