import Dataflow.Text.Lexeme
import Dataflow.Text.Part

/-!
# Patterns

What may stand at a place of a text, as data: lexemes, named parts, and patterns one after the
other, one instead of the other, or repeated. `Pattern.attempt` tries a pattern at a place. It says
what is left if the pattern fits, and it keeps a `Frontier`: the farthest place at which a part was
looked for and not found, and the parts that were missed there.
-/

namespace Dataflow

/-- What may stand at a place of a text. -/
inductive Pattern where
  /-- A lexeme. -/
  | token (reader : Reader Unit)
  /-- A named part. -/
  | part (p : Part)
  /-- One pattern and then another, with blanks and comments between them. -/
  | chain (first second : Pattern)
  /-- One pattern and then another, with nothing between them. -/
  | joined (first second : Pattern)
  /-- One pattern, or another where the first does not fit. -/
  | either (first second : Pattern)
  /-- A pattern that may be absent. -/
  | maybe (p : Pattern)
  /-- A pattern as often as it fits. -/
  | repeated (p : Pattern)

/-- A place of a text: how many characters come before it, and which follow. -/
structure Place where
  /-- The number of characters before the place. -/
  offset : Nat
  /-- The characters after the place. -/
  rest : List Char

/-- The farthest place at which a part was missed, and the parts missed there. -/
structure Frontier where
  /-- The number of characters before the place. -/
  offset : Nat := 0
  /-- The parts that were looked for and not found, oldest first. -/
  missed : List Part := []
deriving DecidableEq, Repr

namespace Frontier

/-- How many parts were missed at a place so far. -/
def count (f : Frontier) (offset : Nat) : Nat := if f.offset = offset then f.missed.length else 0

/-- Enters that part `p` was missed at `offset`, where `known` parts were missed before it was
looked for. The part stands for the parts inside it that were missed at the same place, unless
that is exactly one, which says more. -/
def miss (f : Frontier) (p : Part) (offset known : Nat) : Frontier :=
  if f.offset < offset then { offset, missed := [p] }
  else if f.offset = offset && f.missed.length != known + 1 then
    { f with missed := f.missed.take known ++ [p] }
  else f

end Frontier

namespace Place

/-- The place `n` characters further on. -/
def advance (place : Place) (n : Nat) : Place :=
  { offset := place.offset + n, rest := place.rest.drop n }

/-- The number of characters that `after` is shorter than `before`. -/
def taken (before after : List Char) : Nat := before.length - after.length

/-- The next place that holds neither a blank nor a comment. -/
def pastBlanks (place : Place) : Place :=
  place.advance (taken place.rest (Lexeme.skip false place.rest))

end Place

/-- Tries something at a place: the place after it if it fits, and the frontier in both cases. -/
abbrev Attempt := Place → Frontier → Option Place × Frontier

namespace Attempt

/-- Tries `a` and, where it fits, goes on with `b`. -/
def andThen (a b : Attempt) : Attempt := fun start f =>
  match a start f with
  | (none, f) => (none, f)
  | (some next, f) => b next f

/-- Tries `a` and, where it does not fit, tries `b`. -/
def orElse (a b : Attempt) : Attempt := fun start f =>
  match a start f with
  | (none, f) => b start f
  | fits => fits

/-- Fits everywhere and takes nothing. -/
def nothing : Attempt := fun start f => (some start, f)

/-- Tries `a` past blanks and comments. -/
def pastBlanks (a : Attempt) : Attempt := fun start f => a start.pastBlanks f

/-- Tries `a` until it does not fit, at most `bound` times. -/
def repeatUpTo (a : Attempt) : Nat → Attempt
  | 0, start, f => (some start, f)
  | bound + 1, start, f =>
    match a start.pastBlanks f with
    | (none, f) => (some start, f)
    | (some next, f) => repeatUpTo a bound next f

/-- Fits where a reader succeeds. -/
def ofReader (r : Reader Unit) : Attempt := fun start f =>
  match r start.rest with
  | none => (none, f)
  | some (_, rest) => (some (start.advance (Place.taken start.rest rest)), f)

end Attempt

/-- Tries a pattern, where `named` tries a named part. -/
def Pattern.attempt (named : Part → Attempt) : Pattern → Attempt
  | token reader => .ofReader reader
  | part p => named p
  | chain first second => (first.attempt named).andThen (second.attempt named).pastBlanks
  | joined first second => (first.attempt named).andThen (second.attempt named)
  | either first second => (first.attempt named).orElse (second.attempt named)
  | maybe p => (p.attempt named).orElse .nothing
  | repeated p => fun start f => (p.attempt named).repeatUpTo (start.rest.length + 1) start f

end Dataflow
