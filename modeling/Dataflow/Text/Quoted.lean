import Dataflow.Text.Visible

/-!
# Quoted text

A text in double quotes on one line. Quotes and backslashes get a backslash before them, four
controls have a letter of their own, and every other character that does not show up on its own is
written by its code point.
-/

namespace Dataflow.Quoted

/-- The form of one character inside the quotes. -/
def encodeChar (c : Char) : String :=
  match c with
  | '\x00' => "\\0"
  | '\t' => "\\t"
  | '\n' => "\\n"
  | '\r' => "\\r"
  | '"' => "\\\""
  | '\\' => "\\\\"
  | c =>
    if Visible.isVisible c then c.toString
    else "\\u\x7b" ++ String.ofList (Nat.toDigits 16 c.toNat) ++ "\x7d"

/-- The text in double quotes. -/
def encode (text : String) : String :=
  "\"" ++ String.join (text.toList.map encodeChar) ++ "\""

end Dataflow.Quoted
