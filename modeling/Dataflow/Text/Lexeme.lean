import Dataflow.Text.Reader
import Dataflow.Text.Symbol

/-!
# Lexemes

The smallest pieces of a text: words, marks, names and literals. A reader that *reads* a lexeme
first passes over blanks and comments, one that *takes* characters does not, and inside a lexeme
there are none. A comment runs from a semicolon to the end of its line.
-/

namespace Dataflow.Lexeme

open Reader

/-- Whether a character separates lexemes. -/
def isBlank (c : Char) : Bool := c == ' ' || c == '\t' || c == '\r' || c == '\n'

/-- Passes over blanks and comments; `inComment` says that a comment is open. -/
def skip (inComment : Bool) : List Char → List Char
  | [] => []
  | c :: rest =>
    if inComment then skip (c != '\n') rest
    else if isBlank c then skip false rest
    else if c = ';' then skip true rest
    else c :: rest

/-- Passes over blanks and comments. -/
def blanks : Reader Unit := fun s => some ((), skip false s)

/-- Reads what `p` reads, past blanks and comments. -/
def lexeme {α : Type} (p : Reader α) : Reader α := do
  blanks
  p

/-- Takes the longest run of characters that may stand in a bare name. -/
def bareName : Reader String := run1 Symbol.isNameChar

/-- Takes a name in double quotes, with any character but the double quote inside. -/
def quotedName : Reader String := do
  char '"'
  let inner ← fun s => some (String.ofList (s.takeWhile (· ≠ '"')), s.dropWhile (· ≠ '"'))
  char '"'
  return inner

/-- Takes a name, quoted or bare. -/
def name : Reader String := quotedName <|> bareName

/-- Reads a punctuation mark. -/
def mark (c : Char) : Reader Unit := lexeme (char c)

/-- Reads a whole word. -/
def word : Reader String := lexeme bareName

/-- Reads the word `w`. -/
def keyword (w : String) : Reader Unit := do
  let found ← word
  guard (found = w)

/-- Reads one of the given words. -/
def oneOf (words : List String) : Reader Unit := do
  let found ← word
  guard (found ∈ words)

/-- Reads a word and looks it up. -/
def lookup {α : Type} (meaning : String → Option α) : Reader α := do
  let found ← word
  ofOption (meaning found)

/-- Reads the name of a value or a label. -/
def localName : Reader String := lexeme (do char '%'; name)

/-- Reads the name of a function or a global. -/
def globalName : Reader String := lexeme (do char '@'; name)

/-- Reads the label that opens a block. -/
def label : Reader String := lexeme (do
  let text ← name
  char ':'
  return text)

/-- Takes one or more decimal digits. -/
def digits : Reader String := run1 Char.isDigit

/-- Takes a minus sign if there is one. -/
def minus : Reader String := (do char '-'; return "-") <|> pure ""

/-- Reads a whole number with an optional minus sign, and gives it as written. -/
def integer : Reader String := lexeme (do
  let sign ← minus
  let whole ← digits
  return sign ++ whole)

/-- Whether a character is a hexadecimal digit. -/
def isHexDigit (c : Char) : Bool :=
  c.isDigit || ('a' ≤ c && c ≤ 'f') || ('A' ≤ c && c ≤ 'F')

/-- Takes a bit pattern: `0x` and hexadecimal digits. -/
def bitPattern : Reader String := do
  char '0'
  char 'x'
  let bits ← run1 isHexDigit
  return "0x" ++ bits

/-- Takes a decimal exponent: `e` or `E`, a sign if there is one, and digits. -/
def exponent : Reader String := do
  let letter ← (do char 'e'; return "e") <|> (do char 'E'; return "E")
  let sign ← (do char '+'; return "+") <|> minus
  let power ← digits
  return letter ++ sign ++ power

/-- Takes a decimal with a point, which may end there or go on with digits and an exponent. -/
def decimal : Reader String := do
  let sign ← minus
  let whole ← digits
  char '.'
  let fraction ← digits <|> pure ""
  let power ← exponent <|> pure ""
  return sign ++ whole ++ "." ++ fraction ++ power

/-- Takes a whole number with an exponent. -/
def scientific : Reader String := do
  let sign ← minus
  let whole ← digits
  let power ← exponent
  return sign ++ whole ++ power

/-- Reads a float literal and gives it as written. -/
def float : Reader String := lexeme (bitPattern <|> decimal <|> scientific)

/-- The words that are literals. -/
def literalWords : List String := ["true", "false", "null", "undef", "poison", "zeroinitializer"]

/-- Reads a literal that is a word. -/
def literalWord : Reader String := do
  let found ← word
  guard (found ∈ literalWords)
  return found

/-- Reads a literal and gives it as written. -/
def literal : Reader String := float <|> integer <|> literalWord

/-- Takes one or more spaces or tabs. -/
def gap : Reader Unit := do
  let _ ← run1 fun c => c == ' ' || c == '\t'
  return

/-- Reads a metadata reference: two names after exclamation marks with a gap between them. -/
def metadata : Reader Unit := lexeme (do
  char '!'
  let _ ← bareName
  gap
  char '!'
  let _ ← bareName
  return)

/-- Reads an alignment: the word `align`, a gap and a number. -/
def alignment : Reader Unit := do
  keyword "align"
  gap
  let _ ← digits
  return

/-- Reads the number of an attribute group. -/
def attributeGroup : Reader Unit := lexeme (do
  char '#'
  let _ ← digits
  return)

end Dataflow.Lexeme
