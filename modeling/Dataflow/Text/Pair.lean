import Dataflow.Text.Expectation

/-!
# Pairs

What the grammar makes of a text before anything is looked up in it: a tree of `Pair`s, one for each
named part that was found, with the characters it took and the pairs inside it. `Pair.ofText?` gives
the tree of a whole text. The patterns say what is tried, as they do for `Part.attempt`.
-/

namespace Dataflow

open Reader Lexeme

/-- A named part that was found in a text. -/
inductive Pair where
  /-- A part with its characters and the pairs inside it, in the order in which they stand. -/
  | mk (part : Part) (text : String) (children : List Pair)

namespace Pair

/-- The part that was found. -/
def part : Pair → Part
  | mk part _ _ => part

/-- The characters it took. -/
def text : Pair → String
  | mk _ text _ => text

/-- The pairs inside it, in the order in which they stand. -/
def children : Pair → List Pair
  | mk _ _ children => children

end Pair

/-- Reads what a pattern fits and gives the pairs in it, where `named` reads a named part. -/
def Pattern.pairs (named : Part → Reader Pair) : Pattern → Reader (List Pair)
  | token reader => do
    reader
    return []
  | part p => do
    let t ← named p
    return [t]
  | chain first second => do
    let ts ← first.pairs named
    blanks
    let us ← second.pairs named
    return ts ++ us
  | joined first second => do
    let ts ← first.pairs named
    let us ← second.pairs named
    return ts ++ us
  | either first second => first.pairs named <|> second.pairs named
  | maybe p => p.pairs named <|> pure []
  | repeated p => do
    let tss ← many (do
      blanks
      p.pairs named)
    return tss.flatten

/-- Reads a part whose parts nest at most `depth` deep. -/
def Part.take : Nat → Part → Reader Pair
  | 0, _ => fun _ => none
  | depth + 1, p => fun s =>
    match p.pattern.pairs (take depth) s with
    | none => none
    | some (children, rest) =>
      some (.mk p (String.ofList (s.take (s.length - rest.length))) children, rest)

/-- The tree of a text, or none if the text does not follow the grammar. Each nesting of types takes
a character and every other part stands less than twelve deep, so the length of the text bounds the
depth. -/
def Pair.ofText? (text : String) : Option Pair :=
  let chars := text.toList
  (Part.module.take (2 * chars.length + 12) chars).map (·.1)

end Dataflow
