import Dataflow.Text.Expectation

/-!
# Refused texts

What a user is told about a text that does not follow the grammar: the line and the column up to
which it could be read, that line with a mark under the column, and the parts that could have stood
there.
-/

namespace Dataflow

/-- Where a text stops following the grammar. -/
structure Refusal where
  /-- The number of the line, from one. -/
  line : Nat
  /-- The number of the character in its line, from one. -/
  column : Nat
  /-- The line as it is shown. -/
  excerpt : String
  /-- The parts that could have stood there. -/
  expected : List Part
deriving DecidableEq, Repr

namespace Refusal

/-- A line with its ends made visible. -/
def showEnds (line : List Char) : List Char :=
  line.map fun c => if c = '\r' then '␍' else if c = '\n' then '␊' else c

/-- A line without its ends. -/
def dropEnds (line : List Char) : List Char := line.filter fun c => c != '\r' && c != '\n'

/-- The characters of a text up to its first line end, and that line end. -/
def throughLineEnd (chars : List Char) : List Char :=
  chars.takeWhile (· ≠ '\n') ++ (chars.dropWhile (· ≠ '\n')).take 1

/-- The refusal of a text at its frontier. The ends of the line are shown if one of them is the
character that does not fit. -/
def ofFrontier (text : String) (f : Frontier) : Refusal :=
  let before := text.toList.take f.offset
  let after := text.toList.drop f.offset
  let start := (before.reverse.takeWhile (· ≠ '\n')).reverse
  let full := start ++ throughLineEnd after
  let atEnd := after.head? = some '\n' || after.head? = some '\r'
  { line := before.count '\n' + 1
    column := start.length + 1
    excerpt := String.ofList (if atEnd then showEnds full else dropEnds full)
    expected := Part.all.filter (· ∈ f.missed) }

/-- Why a text that does not follow the grammar is refused. -/
def ofText (text : String) : Refusal := ofFrontier text (frontier text)

/-- A list in words, with a comma before each item but the first if there are more than two. -/
def enumerate : List String → String
  | [] => ""
  | [a] => a
  | [a, b] => a ++ " or " ++ b
  | items => ", ".intercalate items.dropLast ++ ", or " ++ items.getLastD ""

/-- The mark under the column; tabs are kept, so that it stands under the same character. -/
def pointer (r : Refusal) : String :=
  String.ofList ((r.excerpt.toList.take (r.column - 1)).map fun c => if c = '\t' then c else ' ')
    ++ "^---"

/-- What a user is told. -/
def message (r : Refusal) : String :=
  let line := toString r.line
  let margin := String.ofList (List.replicate line.length ' ')
  let reason :=
    if r.expected.isEmpty then "unknown parsing error"
    else "expected " ++ enumerate (r.expected.map (·.title))
  "\n".intercalate [
    margin ++ "--> " ++ line ++ ":" ++ toString r.column,
    margin ++ " |",
    line ++ " | " ++ r.excerpt,
    margin ++ " | " ++ r.pointer,
    margin ++ " |",
    margin ++ " = " ++ reason]

end Refusal

end Dataflow
