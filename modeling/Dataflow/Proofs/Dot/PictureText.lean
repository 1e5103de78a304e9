import Dataflow.Dot.Picture
import Dataflow.Proofs.Text.Printing

/-!
# Pictures can be read back

`Picture.read?` reads the DOT text of a picture: lines of nodes, numbered from zero, then lines of
edges. What is written for a picture is read as that picture (`Picture.read?_text`), whatever the
labels are, so different pictures have different texts (`Picture.text_inj`). A label ends at the
first quote without a backslash before it, and inside a label each backslash belongs to the
character after it (`unescape_escape`).
-/

namespace Dataflow

namespace Reader

variable {α : Type} {p : Reader α} {w : α → List Char} {as : List α} {s rest : List Char}

/-- Takes exactly the characters of a text. -/
def exactly (text : String) : Reader Unit := fun s =>
  if text.toList.isPrefixOf s then some ((), s.drop text.toList.length) else none

/-- A text is taken off what starts with it. -/
theorem exactly_append (text : String) (rest : List Char) :
    exactly text (text.toList ++ rest) = some ((), rest) := by
  rw [exactly, if_pos (List.isPrefixOf_iff_prefix.mpr (List.prefix_append _ _)), List.drop_left]

/-- A text is refused where it is not the start. -/
theorem exactly_of_not_prefix {text : String} (h : text.toList.isPrefixOf s = false) :
    exactly text s = none := by
  rw [exactly, h]
  rfl

/-- Takes a number in decimal digits. -/
def number : Reader Nat := do
  let digits ← run1 Char.isDigit
  return Nat.ofDigitChars 10 digits.toList 0

/-- A number is taken up to what is no digit. -/
theorem number_append (n : Nat) (hrest : ∀ c ∈ rest.head?, c.isDigit = false) :
    number ((toString n).toList ++ rest) = some (n, rest) := by
  have hdigits := Lexeme.isNumber_toString n
  have hvalue : Nat.ofDigitChars 10 (toString n).toList 0 = n := by
    rw [show (toString n).toList = Nat.toDigits 10 n from Nat.toList_repr]
    exact Nat.ofDigitChars_toDigits (by decide) (by decide)
  rw [number, bind_apply, run1_text hdigits.1 hdigits.2 hrest]
  simp only [Option.bind_some, hvalue]
  rfl

/-- Values that stand one after another are read up to a text where the reader fails. -/
theorem many_flatMap (stop : List Char) (hread : ∀ a ∈ as, ∀ rest, p (w a ++ rest) = some (a, rest))
    (hlong : ∀ a ∈ as, w a ≠ []) (hstop : p stop = none) :
    many p (as.flatMap w ++ stop) = some (as, stop) := by
  have hbound : ∀ bound, (as.flatMap w ++ stop).length ≤ bound →
      manyUpTo p bound (as.flatMap w ++ stop) = (as, stop) := by
    induction as with
    | nil =>
        intro bound _
        cases bound with
        | zero => rfl
        | succ bound => simp [manyUpTo, hstop]
    | cons a as ih =>
        intro bound hlength
        rw [List.flatMap_cons, List.append_assoc] at hlength ⊢
        have hpos := List.length_pos_iff.mpr (hlong a List.mem_cons_self)
        cases bound with
        | zero => simp only [List.length_append] at hlength; omega
        | succ bound =>
            have hrest := ih (fun b hb => hread b (List.mem_cons_of_mem a hb))
              (fun b hb => hlong b (List.mem_cons_of_mem a hb)) bound
              (by simp only [List.length_append] at hlength ⊢; omega)
            rw [manyUpTo, hread a List.mem_cons_self]
            simp only [hrest]
  exact congrArg some (hbound _ (Nat.le_refl _))

end Reader

namespace Picture

open Reader

/-! ## The reader -/

/-- What a character means after a backslash in a label. -/
def unescapeChar? : Char → Option Char
  | '"' => some '"'
  | '\\' => some '\\'
  | 'l' => some '\n'
  | _ => none

/-- Takes a label and the quote that ends it. -/
def unescape : List Char → Option (List Char × List Char)
  | [] => none
  | '"' :: rest => some ([], rest)
  | '\\' :: c :: rest => do
    let d ← unescapeChar? c
    let (label, rest) ← unescape rest
    return (d :: label, rest)
  | c :: rest => do
    let (label, rest) ← unescape rest
    return (c :: label, rest)

/-- Takes a label and the quote that ends it. -/
def label : Reader String := fun s => (unescape s).map fun r => (String.ofList r.1, r.2)

/-- Takes the name of an outline. -/
def outline : Reader Shape := do
  let name ← run1 Char.isAlpha
  ofOption ([Shape.box, .ellipse, .triangle, .invtriangle, .octagon, .circle].find?
    (·.name == name))

/-- Takes the line of a node. -/
def figure : Reader (Figure × Nat) := do
  exactly "    "
  let i ← number
  exactly " [ label = \""
  let label ← label
  exactly " shape = "
  let shape ← outline
  exactly "]\n"
  return ({ label, shape }, i)

/-- Takes the line of an edge. -/
def edge : Reader (Nat × Nat) := do
  exactly "    "
  let a ← number
  exactly " -> "
  let b ← number
  exactly " [ ]\n"
  return (a, b)

/-- Takes a picture whose nodes are numbered from zero. -/
def picture : Reader Picture := do
  exactly "digraph \x7b\n"
  let figures ← many figure
  let edges ← many edge
  exactly "\x7d\n"
  guard (figures.map (·.2) = List.range figures.length)
  return { figures := figures.map (·.1), edges }

/-- The picture that a whole text is written for. -/
def read? (text : String) : Option Picture :=
  match picture text.toList with
  | some (p, []) => some p
  | _ => none

/-! ## Labels -/

/-- A label is escaped character by character. -/
theorem toList_escape (label : String) :
    (escape label).toList = label.toList.flatMap fun c => (escapeChar c).toList := by
  rw [escape, String.toList_join, List.flatMap_map]

/-- A character of a label is read back. -/
theorem unescape_escapeChar (c : Char) (rest : List Char) :
    unescape ((escapeChar c).toList ++ rest) = (unescape rest).map fun r => (c :: r.1, r.2) := by
  by_cases hquote : c = '"'
  · subst hquote
    cases h : unescape rest <;> simp [escapeChar, unescape, unescapeChar?, h]
  by_cases hbackslash : c = '\\'
  · subst hbackslash
    cases h : unescape rest <;> simp [escapeChar, unescape, unescapeChar?, h]
  by_cases hline : c = '\n'
  · subst hline
    cases h : unescape rest <;> simp [escapeChar, unescape, unescapeChar?, h]
  -- any other character stands for itself
  cases h : unescape rest <;> simp [escapeChar, hbackslash, unescape, h]

/-- A label is read back up to its quote, whatever it is and whatever follows. -/
theorem unescape_escape (cs rest : List Char) :
    unescape ((cs.flatMap fun c => (escapeChar c).toList) ++ '"' :: rest) = some (cs, rest) := by
  induction cs with
  | nil => rfl
  | cons c cs ih =>
      rw [List.flatMap_cons, List.append_assoc, unescape_escapeChar, ih]
      rfl

/-- A label is taken up to its quote, as it was before it was escaped. -/
theorem label_append (text : String) (rest : List Char) :
    label ((escape text).toList ++ '"' :: rest) = some (text, rest) := by
  rw [label, toList_escape, unescape_escape, Option.map_some, String.ofList_toList]

/-! ## Lines -/

theorem outline_append (shape : Shape) (rest : List Char) :
    outline (shape.name.toList ++ ']' :: rest) = some (shape, ']' :: rest) := by
  have hrun : run1 Char.isAlpha (shape.name.toList ++ ']' :: rest) =
      some (shape.name, ']' :: rest) :=
    run1_text (by cases shape <;> decide) (by cases shape <;> decide) (by simp)
  rw [outline, bind_apply, hrun]
  cases shape <;> rfl

/-- A figure is taken off its line. -/
theorem figure_append (numbered : Figure × Nat) (rest : List Char) :
    figure ((figureLine numbered).toList ++ rest) = some (numbered, rest) := by
  obtain ⟨⟨text, shape⟩, i⟩ := numbered
  have hline : (figureLine (⟨text, shape⟩, i)).toList ++ rest =
      "    ".toList ++ ((toString i).toList ++ (" [ label = \"".toList ++ ((escape text).toList ++
        '"' :: (" shape = ".toList ++ (shape.name.toList ++ ("]\n".toList ++ rest)))))) := by
    simp only [figureLine, String.toList_append, List.append_assoc]
    rfl
  rw [hline, figure, bind_apply, exactly_append, Option.bind_some, bind_apply,
    number_append i (by simp), Option.bind_some, bind_apply, exactly_append, Option.bind_some,
    bind_apply, label_append, Option.bind_some, bind_apply, exactly_append, Option.bind_some,
    bind_apply, show "]\n".toList ++ rest = ']' :: '\n' :: rest from by simp, outline_append,
    Option.bind_some, bind_apply]
  exact congrArg (Option.bind · _) (exactly_append "]\n" rest)

theorem edgeLine_append (e : Nat × Nat) (rest : List Char) : (edgeLine e).toList ++ rest =
    "    ".toList ++ ((toString e.1).toList ++ (" -> ".toList ++ ((toString e.2).toList ++
      (" [ ]\n".toList ++ rest)))) := by
  simp only [edgeLine, String.toList_append, List.append_assoc]
  rfl

/-- An edge is taken off its line. -/
theorem edge_append (e : Nat × Nat) (rest : List Char) :
    edge ((edgeLine e).toList ++ rest) = some (e, rest) := by
  rw [edgeLine_append, edge, bind_apply, exactly_append, Option.bind_some, bind_apply,
    number_append e.1 (by simp), Option.bind_some, bind_apply, exactly_append, Option.bind_some,
    bind_apply, number_append e.2 (by simp), Option.bind_some, bind_apply, exactly_append]
  rfl

/-- The line of an edge is not taken for one of a node. -/
theorem figure_of_edgeLine (e : Nat × Nat) (rest : List Char) :
    figure ((edgeLine e).toList ++ rest) = none := by
  rw [edgeLine_append, figure, bind_apply, exactly_append, Option.bind_some, bind_apply,
    number_append e.1 (by simp), Option.bind_some, bind_apply, exactly_of_not_prefix rfl]
  rfl

/-! ## Whole texts -/

theorem text_toList (p : Picture) : p.text.toList = "digraph \x7b\n".toList ++
    ((p.figures.zipIdx.flatMap fun numbered => (figureLine numbered).toList) ++
      ((p.edges.flatMap fun e => (edgeLine e).toList) ++ "\x7d\n".toList)) := by
  simp only [text, String.toList_append, String.toList_join, List.flatMap_map, List.append_assoc]

/-- A picture is read back from its text. -/
theorem read?_text (p : Picture) : read? p.text = some p := by
  have hclose : ∀ {α : Type} (f : Nat → Reader α),
      (do exactly "    "; let i ← number; f i : Reader α) "\x7d\n".toList = none := by
    intro α f
    rw [bind_apply, exactly_of_not_prefix (by decide)]
    rfl
  have hedges := many_flatMap _ (fun e (_ : e ∈ p.edges) rest => edge_append e rest)
    (by simp [edgeLine]) (hclose _)
  have hfigures := many_flatMap ((p.edges.flatMap fun e => (edgeLine e).toList) ++ "\x7d\n".toList)
    (fun numbered (_ : numbered ∈ p.figures.zipIdx) rest => figure_append numbered rest)
    (by simp [figureLine]) (by
      cases p.edges with
      | nil => exact hclose _
      | cons e edges => rw [List.flatMap_cons, List.append_assoc, figure_of_edgeLine])
  have hnumbers : p.figures.zipIdx.map (·.2) = List.range p.figures.zipIdx.length := by
    rw [List.zipIdx_map_snd, List.length_zipIdx, List.range_eq_range']
  have hread : picture p.text.toList = some (p, []) := by
    rw [text_toList, picture, bind_apply, exactly_append, Option.bind_some, bind_apply, hfigures,
      Option.bind_some, bind_apply, hedges, Option.bind_some, bind_apply,
      ← List.append_nil "\x7d\n".toList, exactly_append, Option.bind_some, hnumbers]
    rw [guard_eq, if_pos rfl, List.zipIdx_map_fst]
    rfl
  rw [read?, hread]

/-- Pictures with one text are one picture. -/
theorem text_inj {p q : Picture} : p.text = q.text ↔ p = q := by
  refine ⟨fun h => ?_, congrArg text⟩
  rw [← Option.some_inj, ← read?_text p, ← read?_text q, h]

end Picture

end Dataflow
