import Dataflow.Proofs.Text.Statements

/-!
# Trees that are read back

The pieces of lines, blocks and functions as a program writes them, and that the grammar reads a
text of such pieces as the functions it was written for (`Surface.functions?_of_spells`). A block
ends where no line starts: at a bracket, or at a label, and a label must not look like an
instruction. There is one word that does, and it can be the label of the first block only.
-/

namespace Dataflow

namespace Surface

open Reader Lexeme

variable {n : List Piece}

/-! ## Lines and blocks -/

/-- The pieces of a line, in front of `n`. -/
def Line.pieces (l : Line) (n : List Piece) : List Piece :=
  match l.name with
  | some name => .value name :: .mark '=' :: l.statement.pieces n
  | none => l.statement.pieces n

/-- The pieces of a block, in front of `n`. -/
def BlockText.pieces (b : BlockText) (n : List Piece) : List Piece :=
  match b.label with
  | some label => .label label :: b.lines.foldr Line.pieces n
  | none => b.lines.foldr Line.pieces n

/-- A block that has a written form of its own. -/
structure BlockText.Clean (b : BlockText) : Prop where
  /-- The label is written. -/
  label : b.label ≠ none
  /-- There is a line. -/
  lines : b.lines ≠ []
  /-- The lines are clean. -/
  statements : ∀ l ∈ b.lines, l.statement.Clean
  /-- The last line is no call, which would take the next label for an attribute. -/
  last : ∀ l ∈ b.lines.getLast?, l.statement.isCall = false

/-- What stands behind a block: the end of the function, or the label of a block, which must not be
the one word that is a statement. -/
inductive Boundary : List Piece → Prop where
  | close (m : List Piece) : Boundary (.mark '\x7d' :: m)
  | label {name : String} (m : List Piece) : name ≠ "unreachable" → Boundary (.label name :: m)

/-- A line is written in at least one piece. -/
theorem Line.length_pieces (l : Line) (n : List Piece) : n.length < (l.pieces n).length := by
  have hstatement := l.statement.length_pieces n
  unfold pieces
  split
  · simp only [List.length_cons]
    omega
  · exact hstatement

/-- Any statement may stand before a line. -/
theorem Line.endsBefore (l : Line) (t : Statement) : t.EndsBefore (l.pieces n) := by
  unfold Line.pieces
  split
  · exact ⟨refuses_mark rfl (by simp [Piece.sign?]), refuses_mark rfl (by simp [Piece.sign?]),
      fun _ => (refuses_char rfl (by simp [Piece.sign?])).orElse <|
        (refuses_char rfl (by simp [Piece.sign?])).orElse (refuses_word rfl rfl).bind⟩
  · obtain ⟨w, m, hpieces, hw⟩ := l.statement.head n
    rw [hpieces]
    exact ⟨refuses_mark rfl (by simp [Piece.sign?]), refuses_mark rfl (by simp [Piece.sign?]),
      fun _ => (refuses_char rfl (by simp [Piece.sign?])).orElse <|
        (refuses_char rfl (by simp [Piece.sign?])).orElse (refuses_oneOf hw)⟩

/-- No sign of a label is a mark of the grammar. -/
theorem sign?_label {name : String} {c : Char} (hc : c ≠ '"') :
    (Piece.label name).sign? ≠ some c := by
  intro h
  rw [Piece.sign?] at h
  split at h
  · cases h
  · cases h
    exact hc rfl

/-- A statement that is no call may stand before a boundary. -/
theorem Boundary.endsBefore (h : Boundary n) {t : Statement} (ht : t.isCall = false) :
    t.EndsBefore n := by
  have hcall : ∀ {P : Prop}, t.isCall = true → P := fun hcall => by
    rw [ht] at hcall
    cases hcall
  cases h with
  | close m => exact ⟨refuses_mark rfl (by decide), refuses_mark rfl (by decide), hcall⟩
  | label m hname =>
      exact ⟨refuses_mark rfl (sign?_label (by decide)),
        refuses_mark rfl (sign?_label (by decide)), hcall⟩

/-- No statement starts where a block ends. -/
theorem Boundary.refuses_statement (h : Boundary n) : statement.Refuses n := by
  refine Surface.refuses_statement fun f hf => ?_
  have hopens := opensWith_of_mem_forms hf
  cases h with
  | close m => exact hopens.sign rfl rfl
  | @label name m hname =>
      by_cases hbare : name.toList.all Symbol.isNameChar = true
      · exact refuses_bare_label hbare (hopens.colon hname)
      · exact hopens.sign (if_neg hbare) rfl

/-- No line starts at a boundary. -/
theorem Boundary.refuses_line (h : Boundary n) : line.Refuses n := by
  have hname : localName.Refuses n := by
    cases h with
    | close m => exact refuses_localName (by decide)
    | label m _ => exact refuses_localName (sign?_label (by decide))
  exact hname.bind.optional.bind_refuses h.refuses_statement.bind

/-- A line is taken off its pieces. -/
theorem reads_line {l : Line} (h : l.statement.Clean) (hn : l.statement.EndsBefore n) :
    line.Reads (l.pieces n) l n := by
  have hrest : ∀ o, (do
      let statement ← statement
      let _ ← many trailer
      return { name := o, statement : Line }).Reads (l.statement.pieces n)
        { name := o, statement := l.statement } n := fun o =>
    (reads_statement h hn).bind <| hn.comma.bind.many.bind <| reads_pure _ _
  obtain ⟨name, t⟩ := l
  cases name with
  | some name =>
      exact (reads_localName.bind <| reads_mark.bind <| reads_pure name _).optional.bind (hrest _)
  | none =>
      obtain ⟨w, m, hpieces, _⟩ := t.head n
      have hlocal : localName.Refuses (t.pieces n) := by
        rw [hpieces]
        exact refuses_localName (by simp [Piece.sign?])
      exact hlocal.bind.optional.bind (hrest _)

/-- Lines are read up to a boundary. Every line but the last stands before a line. -/
theorem repeats_line {lines : List Line} (h : ∀ l ∈ lines, l.statement.Clean)
    (hlast : ∀ l ∈ lines.getLast?, l.statement.isCall = false) (hn : Boundary n) :
    Repeats line (lines.foldr Line.pieces n) lines n := by
  induction lines with
  | nil => exact .stop hn.refuses_line
  | cons l lines ih =>
      refine .next (reads_line (h l List.mem_cons_self) ?_) (l.length_pieces _)
        (ih (fun l' hl' => h l' (List.mem_cons_of_mem l hl')) fun l' hl' => hlast l' ?_)
      · cases lines with
        | nil => exact hn.endsBefore (hlast l rfl)
        | cons next lines => exact next.endsBefore _
      · cases lines with
        | nil => cases hl'
        | cons next lines => rwa [List.getLast?_cons_cons]

/-- A block is taken off its pieces, up to where the next one starts. -/
theorem reads_block {b : BlockText} (h : b.Clean) (hn : Boundary n) :
    block.Reads (b.pieces n) b n := by
  obtain ⟨label, lines⟩ := b
  cases label with
  | none => exact absurd rfl h.label
  | some label =>
      cases lines with
      | nil => exact absurd rfl h.lines
      | cons l lines =>
          have hlines := repeats_line h.statements h.last hn
          cases hlines with
          | next hread _ hrest =>
              exact reads_label.optional.bind <| (hread.many1 hrest).bind <| reads_pure _ _

/-! ## Functions and texts -/

/-- The pieces of a parameter, in front of `n`. -/
def ParamText.pieces (p : ParamText) (n : List Piece) : List Piece :=
  match p.name with
  | some name => p.ty.pieces (.value name :: n)
  | none => p.ty.pieces n

/-- The pieces of a function, in front of `n`. -/
def FunctionText.pieces (t : FunctionText) (n : List Piece) : List Piece :=
  .word "define" :: t.ret.pieces (.global t.name :: .mark '(' ::
    separated ParamText.pieces t.params (.mark ')' :: .mark '\x7b' ::
      t.blocks.foldr BlockText.pieces (.mark '\x7d' :: n)))

/-- A function that has a written form of its own. -/
structure FunctionText.Clean (t : FunctionText) : Prop where
  /-- The type of the returned value is clean. -/
  ret : t.ret.Clean
  /-- Parameters have clean types. -/
  params : ∀ p ∈ t.params, p.ty.Clean
  /-- The names of parameters are written. -/
  named : ∀ p ∈ t.params, p.name ≠ none
  /-- There is a block. -/
  nonempty : t.blocks ≠ []
  /-- The blocks are clean. -/
  blocks : ∀ b ∈ t.blocks, b.Clean
  /-- No label but the first is the one word that is a statement. -/
  labels : ∀ b ∈ t.blocks.tail, b.label ≠ some "unreachable"

/-- A parameter is taken off its pieces. -/
theorem reads_param {p : ParamText} (h : p.ty.Clean) (hname : p.name ≠ none) :
    param.Reads (p.pieces n) p n := by
  obtain ⟨ty, name⟩ := p
  cases name with
  | none => exact absurd rfl hname
  | some name =>
      exact (reads_type h (refuses_mark rfl (by simp [Piece.sign?]))).bind <|
        (reads_paramAttributes (refuses_word rfl rfl).bind).bind <|
        reads_localName.optional.bind <| reads_pure _ _

/-- A parameter is written in at least one piece. -/
theorem ParamText.length_pieces (p : ParamText) (n : List Piece) :
    n.length < (p.pieces n).length := by
  unfold pieces
  split
  · rename_i name _
    have hty := p.ty.length_pieces (.value name :: n)
    rw [List.length_cons] at hty
    omega
  · exact p.ty.length_pieces n

/-- A block adds pieces to those behind it. -/
theorem BlockText.length_le_pieces (b : BlockText) (n : List Piece) :
    n.length ≤ (b.pieces n).length := by
  have hlines := length_foldr (fun l m => Nat.le_of_lt (Line.length_pieces l m)) b.lines n
  unfold pieces
  split
  · exact Nat.le_succ_of_le hlines
  · exact hlines

/-- A block with a label is written in at least one piece. -/
theorem BlockText.Clean.length_pieces {b : BlockText} (h : b.Clean) (n : List Piece) :
    n.length < (b.pieces n).length := by
  have hlines := length_foldr (fun l m => Nat.le_of_lt (Line.length_pieces l m)) b.lines n
  unfold pieces
  split
  · exact Nat.lt_succ_of_le hlines
  · exact absurd ‹b.label = none› h.label

/-- A clean block whose label is not the one word that is a statement opens with a boundary. -/
theorem BlockText.Clean.boundary {b : BlockText} (h : b.Clean)
    (hlabel : b.label ≠ some "unreachable") : Boundary (b.pieces n) := by
  unfold pieces
  split
  · rename_i label heq
    exact .label _ fun hname => hlabel (hname ▸ heq)
  · exact absurd ‹b.label = none› h.label

/-- Blocks are read up to the bracket that closes the function. -/
theorem repeats_block {blocks : List BlockText} (h : ∀ b ∈ blocks, b.Clean)
    (hlabels : ∀ b ∈ blocks.tail, b.label ≠ some "unreachable") :
    Repeats block (blocks.foldr BlockText.pieces (.mark '\x7d' :: n)) blocks
      (.mark '\x7d' :: n) := by
  induction blocks with
  | nil =>
      exact .stop <| (refuses_label rfl (by decide)).optional.bind_refuses <|
        (Boundary.close n).refuses_line.bind.bind
  | cons b blocks ih =>
      refine .next (reads_block (h b List.mem_cons_self) ?_)
        ((h b List.mem_cons_self).length_pieces _)
        (ih (fun b' hb' => h b' (List.mem_cons_of_mem b hb')) fun b' hb' =>
          hlabels b' (List.mem_of_mem_tail hb'))
      cases blocks with
      | nil => exact .close n
      | cons next blocks =>
          exact (h next (by simp)).boundary (hlabels next (by simp))

/-- A function is taken off its pieces. -/
theorem reads_function {t : FunctionText} (h : t.Clean) : function.Reads (t.pieces n) t n := by
  obtain ⟨ret, name, params, blocks⟩ := t
  cases blocks with
  | nil => exact absurd rfl h.nonempty
  | cons b blocks =>
      obtain ⟨o, hoptional, ho⟩ := reads_optional_sepBy1 (p := param)
        (n := .mark '\x7b' :: (b :: blocks).foldr BlockText.pieces (.mark '\x7d' :: n))
        (fun p hp m => reads_param (h.params p hp) (h.named p hp)) ParamText.length_pieces
        (refuses_type rfl (by decide)).bind
      have hlinkage : (oneOf linkageWords).Refuses (ret.pieces (.global name :: .mark '(' ::
          separated ParamText.pieces params (.mark ')' :: .mark '\x7b' ::
            (b :: blocks).foldr BlockText.pieces (.mark '\x7d' :: n)))) :=
        h.ret.refuses_oneOf (by decide)
      have hblocks := repeats_block (n := n) h.blocks h.labels
      cases hblocks with
      | next hread _ hrest =>
          refine reads_keyword.bind <| hlinkage.many.bind <|
            (reads_type h.ret (refuses_mark rfl (by simp [Piece.sign?]))).bind <|
            reads_globalName.bind <| reads_mark.bind <| hoptional.bind <| reads_mark.bind <|
            (reads_functionAttributes ?_).bind <| reads_mark.bind <| (hread.many1 hrest).bind <|
            reads_mark.bind ?_
          · exact (refuses_char rfl (by decide)).orElse <| (refuses_char rfl (by decide)).orElse
              (refuses_word rfl rfl).bind
          · rw [ho]
            exact reads_pure _ _

/-- A function is written in at least one piece. -/
theorem FunctionText.length_pieces (t : FunctionText) (n : List Piece) :
    n.length < (t.pieces n).length := by
  have hblocks := length_foldr BlockText.length_le_pieces t.blocks (.mark '\x7d' :: n)
  have hparams := length_separated ParamText.length_pieces t.params (.mark ')' :: .mark '\x7b' ::
    t.blocks.foldr BlockText.pieces (.mark '\x7d' :: n))
  have hret := t.ret.length_pieces (.global t.name :: .mark '(' ::
    separated ParamText.pieces t.params (.mark ')' :: .mark '\x7b' ::
      t.blocks.foldr BlockText.pieces (.mark '\x7d' :: n)))
  simp only [pieces, List.length_cons] at hblocks hparams hret ⊢
  omega

/-- A text that consists of clean functions is read as those. -/
theorem functions?_of_spells {trees : List FunctionText} (h : ∀ t ∈ trees, t.Clean) {text : String}
    (htext : Spells (trees.foldr FunctionText.pieces []) text.toList) :
    functions? text = some trees := by
  have hstop : item.Refuses [] :=
    (refuses_word_nil.bind.bind (p := keyword "define")).map.orElse
      ((refuses_lexeme_nil rfl).bind)
  have hitems : Repeats item (trees.foldr FunctionText.pieces []) (trees.map some) [] := by
    clear htext
    induction trees with
    | nil => exact .stop hstop
    | cons t trees ih =>
        exact .next (reads_function (h t List.mem_cons_self)).map.orElse (t.length_pieces _)
          (ih fun t' ht' => h t' (List.mem_cons_of_mem t ht'))
  obtain ⟨rest, hmany, hrest⟩ := hitems.reads_many _ htext
  cases hrest with
  | nil hskip =>
      rw [functions?, hmany]
      simp [hskip]
end Surface

end Dataflow
