/-!
# Readers

A `Reader` takes a value off the front of a text or fails, and a reader that fails takes nothing.
Choice is ordered: `p <|> q` reads what `p` reads, and what `q` reads only where `p` fails.
`many` repeats a reader as often as it succeeds.
-/

namespace Dataflow

/-- Takes a value off the front of a text, or fails. -/
abbrev Reader := StateT (List Char) Option

namespace Reader

/-- Takes the longest run of characters that satisfy `p`; fails if the run is empty. -/
def run1 (p : Char → Bool) : Reader String := fun s =>
  match s.takeWhile p with
  | [] => none
  | c :: cs => some (String.ofList (c :: cs), s.dropWhile p)

/-- Takes the character `c`. -/
def char (c : Char) : Reader Unit
  | [] => none
  | d :: rest => if d = c then some ((), rest) else none

/-- Succeeds without taking anything if `a` is present. -/
def ofOption {α : Type} (a : Option α) : Reader α := fun s => a.map (·, s)

/-- Repeats a reader until it fails, at most `bound` times. -/
def manyUpTo {α : Type} (p : Reader α) : Nat → List Char → List α × List Char
  | 0, s => ([], s)
  | bound + 1, s =>
    match p s with
    | none => ([], s)
    | some (a, rest) =>
      let (as, final) := manyUpTo p bound rest
      (a :: as, final)

/-- Repeats a reader until it fails. A reader that takes at least one character each time can
succeed at most once for each character. -/
def many {α : Type} (p : Reader α) : Reader (List α) := fun s => some (manyUpTo p s.length s)

/-- Repeats a reader until it fails, and fails if that is at once. -/
def many1 {α : Type} (p : Reader α) : Reader (List α) := do
  let a ← p
  let as ← many p
  return a :: as

/-- Reads one or more values with a separator between two of them. -/
def sepBy1 {α : Type} (p : Reader α) (separator : Reader Unit) : Reader (List α) := do
  let a ← p
  let as ← many (do separator; p)
  return a :: as

end Reader

end Dataflow
