/-!
# The words of the command line

The options and the commands, with their spellings, what a user is told about them, and which
command takes which option.
-/

namespace Dataflow.CommandLine

/-- An option that takes a value. -/
inductive Setting where
  /-- The text to work on. -/
  | input
  /-- The file that holds the text to work on. -/
  | file
  /-- The directory or the file to write to. -/
  | output
  /-- The only function to work on. -/
  | function
deriving DecidableEq, Repr

/-- An option that is given or not. -/
inductive Switch where
  | mergeBlocks | enforceMemOrder | noEntryStream | memoryDeps | directMerge
deriving DecidableEq, Repr

/-- Something that can be asked for. -/
inductive Action where
  /-- Draw dataflow graphs as text. -/
  | dfg
  /-- Draw control flow graphs as text. -/
  | cfg
  /-- Draw dataflow graphs on pages. -/
  | pdf
  /-- Print the transformed module. -/
  | opt
deriving DecidableEq, Repr

/-- How far the words of a command were read: a command is one or two words. -/
inductive Topic where
  /-- No word was read. -/
  | program
  /-- A word that needs a second one was read. -/
  | render
  /-- A whole command was read. -/
  | action (a : Action)
deriving DecidableEq, Repr

/-- Anything that may follow a dash. -/
inductive Choice where
  | setting (s : Setting)
  | switch (s : Switch)
  | verbose
  | help
  | version
deriving DecidableEq, Repr

/-- Whether the value of a setting is a path. A path is never empty. -/
def Setting.isPath : Setting → Bool
  | file | output => true
  | input | function => false

/-- The settings that a command takes. -/
def Action.settings : Action → List Setting
  | dfg | cfg | pdf => [.input, .file, .output, .function]
  | opt => [.input, .file, .output]

/-- The switches that a command takes. -/
def Action.switches : Action → List Switch
  | dfg | pdf => [.mergeBlocks, .enforceMemOrder, .noEntryStream, .memoryDeps, .directMerge]
  | cfg | opt => [.mergeBlocks, .enforceMemOrder]

namespace Topic

/-- What may follow a dash after the words read so far. -/
def choices : Topic → List Choice
  | action a =>
    a.settings.map .setting ++ a.switches.map .switch ++ [.verbose, .help, .version]
  | program | render => [.verbose, .help, .version]

/-- The words that may follow, and where they lead. -/
def words : Topic → List (String × Topic)
  | program =>
    [("dfg", action .dfg), ("cfg", action .cfg), ("render", render), ("opt", action .opt)]
  | render => [("pdf", action .pdf)]
  | action _ => []

/-- Where a word leads. -/
def word? (t : Topic) (word : String) : Option Topic := t.words.lookup word

/-- The words read so far, after the name of the program. -/
def path : Topic → List String
  | program => []
  | render => ["render"]
  | action .dfg => ["dfg"]
  | action .cfg => ["cfg"]
  | action .pdf => ["render", "pdf"]
  | action .opt => ["opt"]

/-- What a user is told about a topic. -/
def about : Topic → String
  | program => ""
  | render => "Render graph to specified format"
  | action .dfg => "Lower functions to dataflow graphs in DOT format"
  | action .cfg => "Export the control-flow graph of functions in DOT format"
  | action .pdf => "Render dataflow graphs to PDF files"
  | action .opt => "Run the IR passes and print the resulting IR"

end Topic

namespace Choice

/-- The word after two dashes. -/
def long : Choice → String
  | setting .input => "input"
  | setting .file => "file"
  | setting .output => "output"
  | setting .function => "function"
  | switch .mergeBlocks => "merge-blocks"
  | switch .enforceMemOrder => "enforce-mem-order"
  | switch .noEntryStream => "no-entry-stream"
  | switch .memoryDeps => "memory-deps"
  | switch .directMerge => "direct-merge"
  | verbose => "verbose"
  | help => "help"
  | version => "version"

/-- The letter after one dash. -/
def short? : Choice → Option Char
  | setting .input => some 'i'
  | setting .file => some 'f'
  | setting .output => some 'o'
  | setting .function | switch _ => none
  | verbose => some 'v'
  | help => some 'h'
  | version => some 'V'

end Choice

end Dataflow.CommandLine
