import Dataflow.Proofs.Ssa.Rename
import Dataflow.Proofs.Text.Trees
import Dataflow.Text.Printer

/-!
# Instructions as pieces

The tree that the written form of a type, an operand or an instruction stands for, and that the
written form consists of its pieces (`Ty.spells_text`, `Function.spells_typed`,
`Function.spells_body`). An instruction can be written if every operand has a name or a spelling and
every block it names exists (`Function.Writes`).
-/

namespace Dataflow

open Lexeme Reader

variable {n : List Piece} {s : List Char}

namespace Lexeme

/-! ## Writing words, marks and lists -/

/-- A text that starts with no character of a name breaks the piece in front of it. -/
theorem breaks_toList {v : String} {c : Char} {cs : List Char} (ht : v.toList = c :: cs)
    (hc : Symbol.isNameChar c = false ∧ c ≠ '+') : Breaks (v.toList ++ s) := by
  intro d hd
  rw [ht] at hd
  cases hd
  exact hc

/-- A comma breaks the piece in front of it. -/
theorem breaks_comma : Breaks (", ".toList ++ s) := breaks_toList rfl (by decide)

/-- A space breaks the piece in front of it. -/
theorem breaks_space : Breaks (" ".toList ++ s) := breaks_toList rfl (by decide)

/-- A word in front of what breaks it off. -/
theorem Spells.word {w : String} (hw : IsWord w) (hs : Breaks s) (h : Spells n s) :
    Spells (.word w :: n) (w.toList ++ s) :=
  .piece (x := .word w) hw hs h

/-- A space in front adds no piece. -/
theorem Spells.space (h : Spells n s) : Spells n (" ".toList ++ s) := h.blank rfl

/-- A word and the blank behind it. -/
theorem Spells.word_space {w v : String} (hw : IsWord w) (ht : v.toList = w.toList ++ [' '])
    (h : Spells n s) : Spells (.word w :: n) (v.toList ++ s) := by
  rw [ht, List.append_assoc]
  refine .word hw ?_ (h.blank rfl)
  intro c hc
  cases hc
  decide

/-- A character that is neither blank nor starts a comment is a piece in front. -/
theorem Spells.mark {c : Char} (hc : isBlank c = false ∧ c ≠ ';') (h : Spells n s) :
    Spells (.mark c :: n) (c :: s) :=
  .piece (x := .mark c) hc trivial h

/-- A comma and a space in front are one piece. -/
theorem Spells.comma (h : Spells n s) : Spells (.mark ',' :: n) (", ".toList ++ s) :=
  .mark (by decide) (h.blank rfl)

section Lists

variable {α : Type} {g : α → List Piece → List Piece} {w : α → String} {l : List α}

/-- Values with commas between them. -/
theorem Spells.separated
    (hitem : ∀ a ∈ l, ∀ n s, Spells n s → Breaks s → Spells (g a n) ((w a).toList ++ s))
    (h : Spells n s) (hs : Breaks s) :
    Spells (Reader.separated g l n) ((", ".intercalate (l.map w)).toList ++ s) := by
  cases l with
  | nil => exact h
  | cons a as =>
      induction as generalizing a with
      | nil => simpa [Reader.separated] using hitem a (by simp) n s h hs
      | cons b as ih =>
          rw [List.map_cons, List.map_cons, String.intercalate_cons_cons, String.toList_append,
            String.toList_append, List.append_assoc, List.append_assoc]
          refine hitem a (by simp) _ _ (.comma ?_) (breaks_toList rfl (by decide))
          exact ih b fun c hc => hitem c (List.mem_cons_of_mem a hc)

/-- The pieces of a separated list may be taken after a map. -/
theorem separated_map {β : Type} (k : β → α) (bs : List β) (n : List Piece) :
    Reader.separated g (bs.map k) n = Reader.separated (fun b => g (k b)) bs n := by
  cases bs with
  | nil => rfl
  | cons b bs =>
      simp only [List.map_cons, Reader.separated, List.foldr_map]

/-- Values with an empty line between them. -/
theorem Spells.newlines
    (hitem : ∀ a ∈ l, ∀ n s, Spells n s → Spells (g a n) ((w a).toList ++ s))
    (h : Spells n s) :
    Spells (l.foldr g n) (("\n".intercalate (l.map w)).toList ++ s) := by
  cases l with
  | nil => exact h
  | cons a as =>
      induction as generalizing a with
      | nil => simpa using hitem a (by simp) n s h
      | cons b as ih =>
          rw [List.map_cons, List.map_cons, String.intercalate_cons_cons, String.toList_append,
            String.toList_append, List.append_assoc, List.append_assoc]
          refine hitem a (by simp) _ _ (.blank rfl ?_)
          exact ih b fun c hc => hitem c (List.mem_cons_of_mem a hc)

end Lists

/-! ## Numbers -/

/-- A printed number is a number. -/
theorem isNumber_toString (k : Nat) : IsNumber (toString k) := by
  have htoList : (toString k).toList = Nat.toDigits 10 k := Nat.toList_repr
  refine ⟨?_, List.all_eq_true.mpr fun c hc => ?_⟩
  · rw [htoList]
    exact Nat.toDigits_ne_nil
  · rw [htoList] at hc
    exact Nat.isDigit_of_mem_toDigits (by decide) (by decide) hc

/-- A number can be a name. -/
theorem IsNumber.isName {w : String} (h : IsNumber w) : IsName w := by
  refine ⟨h.1, fun hquote => ?_⟩
  exact absurd (List.all_eq_true.mp h.2 '"' hquote) (by decide)

/-- A word is written as a name without quotes. -/
theorem IsWord.text {w : String} (h : IsWord w) : Symbol.text w = w := if_pos h.2

end Lexeme

/-! ## Types -/

namespace Ty

open Surface

/-- The tree of a type. -/
def tree : Ty → TypeText
  | int bits => .int (toString bits.toNat)
  | pointer target => .pointer target.tree
  | array length element => .array (toString length.toNat) element.tree
  | vector length element => .vector (toString length.toNat) element.tree
  | ty => .named ty

/-- Whether a type is `void` or leads to it by pointers, so that it is written with the word `void`
in front. -/
def startsVoid : Ty → Bool
  | void => true
  | pointer target => target.startsVoid
  | _ => false

/-- The tree of a type starts with `void` when the type does. -/
theorem startsVoid_tree (ty : Ty) : ty.tree.startsVoid = ty.startsVoid := by
  induction ty with
  | pointer target ih => exact ih
  | _ => rfl

/-- The tree of a type has words that name the types they stand for. -/
theorem clean_tree (ty : Ty) : ty.tree.Clean := by
  induction ty with
  | int bits => exact isNumber_toString bits.toNat
  | pointer target ih => exact ih
  | array length element ih => exact ih
  | vector length element ih => exact ih
  | _ => rfl

/-- A type in front of what breaks it off. -/
theorem spells_text (ty : Ty) (h : Spells n s) (hs : Breaks s) :
    Spells (ty.tree.pieces n) (ty.text.toList ++ s) := by
  have hbracket : ∀ (c : Char) (t : List Char), Symbol.isNameChar c = false ∧ c ≠ '+' →
      Breaks (c :: t) := fun c t hc d hd => by
    cases hd
    exact hc
  -- the length of an array or a vector and the times sign behind it
  have hlength : ∀ (length : UInt64) {m t}, Spells m t →
      Spells (.number (toString length.toNat) :: .mark 'x' :: m)
        ((toString length.toNat).toList ++ (" x ".toList ++ t)) := fun length m t ht =>
    .piece (x := .number _) (isNumber_toString _) (hbracket ' ' _ (by decide))
      (.blank rfl (.mark (by decide) (.blank rfl ht)))
  induction ty generalizing n s with
  | int bits =>
      refine .word ⟨?_, ?_⟩ hs h
      · rw [String.toList_append]
        exact List.cons_ne_nil _ _
      · rw [String.toList_append, List.all_append, (isNumber_toString bits.toNat).isWord.2]
        rfl
  | pointer target ih =>
      have htarget := ih (.mark (c := '*') (by decide) h) (hbracket '*' s (by decide))
      rw [text, String.toList_append, List.append_assoc]
      exact htarget
  | array length element ih =>
      have helement := ih (.mark (c := ']') (by decide) h) (hbracket ']' s (by decide))
      have htext : (array length element).text =
          "[" ++ toString length.toNat ++ " x " ++ element.text ++ "]" := rfl
      rw [htext]
      simp only [String.toList_append, List.append_assoc]
      exact .mark (by decide) (hlength length helement)
  | vector length element ih =>
      have helement := ih (.mark (c := '>') (by decide) h) (hbracket '>' s (by decide))
      have htext : (vector length element).text =
          "<" ++ toString length.toNat ++ " x " ++ element.text ++ ">" := rfl
      rw [htext]
      simp only [String.toList_append, List.append_assoc]
      exact .mark (by decide) (hlength length helement)
  | _ => exact .word (by decide) hs h

end Ty

/-! ## Operands -/

/-- The operand as a value of type `ty`: a constant takes the type that is written before it. -/
def Operand.retype (ty : Ty) : Operand → Operand
  | .const value => .const { value with ty }
  | v => v

namespace Instruction

/-- The operands read as data, each with the type that is written before it. -/
@[simp]
def typedOperands : Instruction → List TypedOperand
  | binary _ ty lhs rhs | compare _ ty lhs rhs => [⟨ty, lhs⟩, ⟨ty, rhs⟩]
  | load _ address => [address]
  | store value address => [value, address]
  | elementPtr _ base indices => base :: indices
  | cast _ value _ => [value]
  | phi ty arms => arms.map fun a => ⟨ty, a.value⟩
  | select cond ty onTrue onFalse => [⟨.bool, cond⟩, ⟨ty, onTrue⟩, ⟨ty, onFalse⟩]
  | call _ _ args => args
  | alloca _ count => count.toList
  | branch cond _ _ => [⟨.bool, cond⟩]
  | ret value => value.toList
  | jump _ | unreachable => []

/-- The typed operands of an instruction carry its operands in order. -/
theorem map_value_typedOperands (i : Instruction) :
    i.typedOperands.map (·.value) = i.operands := by
  cases i <;> simp [operands]

/-- The instruction that the written form stands for: a condition is written as an `i1`, and both
values of a choice are written with one type. -/
@[simp]
def asWritten : Instruction → Instruction
  | select cond ty onTrue onFalse => select (cond.retype .bool) ty onTrue (onFalse.retype ty)
  | branch cond onTrue onFalse => branch (cond.retype .bool) onTrue onFalse
  | i => i

end Instruction

namespace Function

open Surface

variable (f : Function)

/-- The name that stands for the result of an instruction: its own, or its number. -/
def resultName (id : InstId) : String := ((f.slots[id]?).bind (·.name)).getD (toString id)

/-- The tree of an operand. -/
def operandTree : Operand → OperandText
  | .param index => .local ((f.params[index]?).elim s!"arg{index}" (·.name))
  | .result id => .local (f.resultName id)
  | .const value => .literal value.literal
  | .global name | .function name => .global name

/-- The tree of a callee. -/
def calleeTree (v : Operand) : CalleeText :=
  match f.operandTree v with
  | .local name | .literal name => .local name
  | .global name => .global name

/-- The tree of an operand after its type. -/
def typedTree (t : TypedOperand) : TypedText := ⟨t.ty.tree, f.operandTree t.value⟩

/-- Whether a local name stands for the operand: it is a result that is written, or a parameter, the
last one of its name. -/
def Defines : Operand → Prop
  | .param index => ∃ p, f.params[index]? = some p ∧ IsName p.name ∧
    ∀ later q, index < later → f.params[later]? = some q → q.name ≠ p.name
  | .result id =>
    (∃ i, f.instruction? id = some i ∧ i.resultTy ≠ .void) ∧ IsName (f.resultName id)
  | _ => False

/-- Whether an operand has a written form behind its type. -/
def Stands (t : TypedOperand) : Prop :=
  match t.value with
  | .const value => value.ty = t.ty ∧ IsLiteral value.literal
  | .global name => IsName name
  | v => f.Defines v

/-- Whether a callee has a written form. -/
def StandsCalled (v : Operand) : Prop :=
  match v with
  | .function name => IsName name
  | v => f.Defines v

variable {f}

/-- The text of a local name is its sign and the name. -/
theorem toList_localText (name : String) :
    (Symbol.localText name).toList = '%' :: (Symbol.text name).toList := by
  rw [Symbol.localText, String.toList_append]
  rfl

/-- The text of a global name is its sign and the name. -/
theorem toList_globalText (name : String) :
    (Symbol.globalText name).toList = '@' :: (Symbol.text name).toList := by
  rw [Symbol.globalText, String.toList_append]
  rfl

/-- A result is written by its name or its number. -/
theorem operandText_result (id : InstId) :
    f.operandText (.result id) = Symbol.localText (f.resultName id) := by
  cases hname : (f.slots[id]?).bind (·.name) with
  | some name => simp [operandText, resultName, hname]
  | none =>
      have htext : Symbol.text (toString id) = toString id := (isNumber_toString id).isWord.text
      simp only [operandText, resultName, hname, Option.getD_none, Symbol.localText, htext]
      rfl

/-- A parameter or a result is written by its name. -/
theorem Defines.spelling {v : Operand} (h : f.Defines v) : ∃ name, f.operandTree v = .local name ∧
    IsName name ∧ f.operandText v = Symbol.localText name := by
  cases v with
  | param index =>
      obtain ⟨p, hp, hname, _⟩ := h
      exact ⟨p.name, by simp [operandTree, hp], hname, by simp [operandText, hp]⟩
  | result id => exact ⟨f.resultName id, rfl, h.2, operandText_result id⟩
  | const value | global name | function name => exact h.elim

/-- The text of an operand is the piece of its tree. -/
theorem spells_operand {t : TypedOperand} (ht : f.Stands t) (hs : Breaks s) (h : Spells n s) :
    Spells ((f.operandTree t.value).piece :: n) ((f.operandText t.value).toList ++ s) := by
  obtain ⟨ty, v⟩ := t
  have hlocal : f.Defines v →
      Spells ((f.operandTree v).piece :: n) ((f.operandText v).toList ++ s) := fun hv => by
    obtain ⟨name, htree, hname, htext⟩ := hv.spelling
    rw [htree, htext, toList_localText]
    exact .piece (x := .value name) hname hs h
  cases v with
  | param index => exact hlocal ht
  | result id => exact hlocal ht
  | const value => exact .piece (x := .literal value.literal) ht.2 hs h
  | global name =>
      rw [operandText, toList_globalText]
      exact .piece (x := .global name) ht hs h
  | function name => exact ht.elim

/-- The text of a callee is the piece of its tree. -/
theorem spells_callee {v : Operand} (hv : f.StandsCalled v) (hs : Breaks s) (h : Spells n s) :
    Spells ((f.calleeTree v).piece :: n) ((f.operandText v).toList ++ s) := by
  have hlocal : f.Defines v →
      Spells ((f.calleeTree v).piece :: n) ((f.operandText v).toList ++ s) := fun hv => by
    obtain ⟨name, htree, hname, htext⟩ := hv.spelling
    rw [calleeTree, htree, htext, toList_localText]
    exact .piece (x := .value name) hname hs h
  cases v with
  | function name =>
      rw [operandText, toList_globalText]
      exact .piece (x := .global name) hv hs h
  | param index => exact hlocal hv
  | result id => exact hlocal hv
  | const value | global name => exact hv.elim

/-- The text of a typed operand consists of the pieces of type and operand. -/
theorem spells_typed {t : TypedOperand} (ht : f.Stands t) (hs : Breaks s) (h : Spells n s) :
    Spells ((f.typedTree t).pieces n) ((f.typedText t).toList ++ s) := by
  rw [typedText, String.toList_append, String.toList_append, List.append_assoc, List.append_assoc]
  exact Ty.spells_text _ (.space (spells_operand ht hs h)) (breaks_toList rfl (by decide))

/-! ## Instructions -/

variable (f)

/-- The tree of what an instruction does. -/
def statement : Instruction → Statement
  | .binary op ty lhs rhs => .binary op (f.typedTree ⟨ty, lhs⟩) (f.operandTree rhs)
  | .compare test ty lhs rhs => .compare test (f.typedTree ⟨ty, lhs⟩) (f.operandTree rhs)
  | .load ty address => .load ty.tree (f.typedTree address)
  | .store value address => .store (f.typedTree value) (f.typedTree address)
  | .elementPtr source base indices =>
    .elementPtr source.tree (f.typedTree base) (indices.map f.typedTree)
  | .cast op value target => .cast op (f.typedTree value) target.tree
  | .phi ty arms =>
    .phi ty.tree (arms.map fun a => ⟨f.operandTree a.value, f.blockName a.source⟩)
  | .select cond ty onTrue onFalse =>
    .select (f.typedTree ⟨.bool, cond⟩) (f.typedTree ⟨ty, onTrue⟩) (f.typedTree ⟨ty, onFalse⟩)
  | .call retTy callee args => .call retTy.tree (f.calleeTree callee) (args.map f.typedTree)
  | .alloca ty count => .alloca ty.tree (count.map f.typedTree)
  | .jump target => .jump (f.blockName target)
  | .branch cond onTrue onFalse =>
    .branch (f.typedTree ⟨.bool, cond⟩) (f.blockName onTrue) (f.blockName onFalse)
  | .ret value => .ret (value.map f.typedTree)
  | .unreachable => .unreachable

/-- Whether an instruction has a written form that stands for it. -/
structure Writes (i : Instruction) : Prop where
  /-- The operands have one. -/
  operands : ∀ t ∈ i.asWritten.typedOperands, f.Stands t
  /-- The callee has one. -/
  callee : ∀ v ∈ i.callee?, f.StandsCalled v
  /-- The blocks exist. -/
  refs : ∀ b ∈ i.blockRefs, b < f.blocks.length
  /-- A phi has an arm. -/
  armed : ∀ ty, i ≠ .phi ty []
  /-- The type of a returned value does not look like a return without one. -/
  returned : ∀ t, i = .ret (some t) → t.ty.startsVoid = false

variable {f}

/-- The text of a label behind its keyword is the name of the block. -/
theorem spells_label {b : BlockId} (hb : IsName (f.blockName b)) (hs : Breaks s) (h : Spells n s) :
    Spells (.value (f.blockName b) :: n) ((f.labelText b).toList ++ s) := by
  rw [labelText, toList_localText]
  exact .piece (x := .value (f.blockName b)) hb hs h

/-- The text of an arm consists of the pieces of its value and its block. -/
theorem spells_arm {a : Arm} {t : Ty} (hvalue : f.Stands ⟨t, a.value⟩)
    (hsource : IsName (f.blockName a.source)) (h : Spells n s) :
    Spells ((⟨f.operandTree a.value, f.blockName a.source⟩ : ArmText).pieces n)
      ((f.armText a).toList ++ s) := by
  have hclose : Spells (.mark ']' :: n) (" ]".toList ++ s) := .blank rfl (.mark (by decide) h)
  have hlabel := spells_label hsource (breaks_toList rfl (by decide)) hclose
  have hboth := spells_operand hvalue (breaks_toList rfl (by decide)) hlabel.comma
  simp only [armText, String.toList_append, List.append_assoc]
  exact .mark (by decide) (.blank rfl hboth)

/-- The type of a constant is not part of its written form. -/
theorem operandTree_retype (v : Operand) (ty : Ty) :
    f.operandTree (v.retype ty) = f.operandTree v := by
  cases v <;> rfl

/-- The type a literal carries is not part of its text. -/
theorem operandText_retype (v : Operand) (ty : Ty) :
    f.operandText (v.retype ty) = f.operandText v := by
  cases v <;> rfl

/-- A typed operand has the same tree when its literal is retyped. -/
theorem typedTree_retype (v : Operand) (ty : Ty) :
    f.typedTree ⟨ty, v.retype ty⟩ = f.typedTree ⟨ty, v⟩ := by
  rw [typedTree, typedTree, operandTree_retype]

/-- A typed operand has the same text when its literal is retyped. -/
theorem typedText_retype (v : Operand) (ty : Ty) :
    f.typedText ⟨ty, v.retype ty⟩ = f.typedText ⟨ty, v⟩ := by
  rw [typedText, typedText, operandText_retype]

/-- The type of a condition is one word. -/
theorem spells_condition {v : Operand} (hv : f.Stands ⟨.bool, v.retype .bool⟩) (hs : Breaks s)
    (h : Spells n s) :
    Spells ((f.typedTree ⟨.bool, v⟩).pieces n)
      ("i1 ".toList ++ ((f.operandText v).toList ++ s)) := by
  have hvalue := spells_operand hv hs h
  rw [operandTree_retype, operandText_retype] at hvalue
  exact .word_space (w := "i1") (by decide) rfl hvalue

/-- The word `label` and the name of a block. -/
theorem spells_target {b : BlockId} (hb : IsName (f.blockName b)) (hs : Breaks s)
    (h : Spells n s) : Spells (.word "label" :: .value (f.blockName b) :: n)
      ("label ".toList ++ ((f.labelText b).toList ++ s)) :=
  .word_space (by decide) rfl (spells_label hb hs h)

/-- Every label of the function has a written form. -/
def Labelled (f : Function) : Prop := ∀ k ∈ f.blocks, IsName k.name

/-- A block of a labelled function has a name that can be written. -/
theorem Labelled.blockName (h : f.Labelled) {b : BlockId} (hb : b < f.blocks.length) :
    IsName (f.blockName b) := by
  rw [Function.blockName, List.getElem?_eq_getElem hb]
  exact h _ (List.getElem_mem hb)

/-- So has every block an instruction goes to. -/
theorem Writes.label {i : Instruction} (hi : f.Writes i) (h : f.Labelled) {b : BlockId}
    (hb : b ∈ i.blockRefs) : IsName (f.blockName b) :=
  h.blockName (hi.refs b hb)

/-- The body of an instruction consists of the pieces of its tree in front of `n`. -/
def SpellsBody (f : Function) (i : Instruction) (n : List Piece) (s : List Char) : Prop :=
  Spells ((f.statement i).pieces n) ((f.bodyText i).toList ++ s)

/-! ### Each form is written in pieces -/

section Forms

variable {ty source target : Ty} {lhs rhs cond onTrue onFalse callee : Operand}
  {base value address : TypedOperand} {indices args : List TypedOperand} (hs : Breaks s)
  (h : Spells n s)

include hs h

theorem spellsBody_binary {op : BinaryOp} (hi : f.Writes (.binary op ty lhs rhs)) :
    f.SpellsBody (.binary op ty lhs rhs) n s := by
  have hrhs := spells_operand (hi.operands ⟨ty, rhs⟩ (by simp)) hs h
  have hlhs := spells_typed (hi.operands ⟨ty, lhs⟩ (by simp)) breaks_comma hrhs.comma
  show Spells _ ((op.name ++ " " ++ ty.text ++ " " ++ f.operandText lhs ++ ", " ++
    f.operandText rhs).toList ++ s)
  simp only [typedText, String.toList_append, List.append_assoc] at hlhs ⊢
  exact .word (by cases op <;> decide) breaks_space hlhs.space

theorem spellsBody_compare {test : Comparison} (hi : f.Writes (.compare test ty lhs rhs)) :
    f.SpellsBody (.compare test ty lhs rhs) n s := by
  have hrhs := spells_operand (hi.operands ⟨ty, rhs⟩ (by simp)) hs h
  have hlhs := spells_typed (hi.operands ⟨ty, lhs⟩ (by simp)) breaks_comma hrhs.comma
  cases test with
  | int p =>
      show Spells _ (("icmp " ++ p.name ++ " " ++ ty.text ++ " " ++ f.operandText lhs ++ ", " ++
        f.operandText rhs).toList ++ s)
      simp only [typedText, String.toList_append, List.append_assoc] at hlhs ⊢
      exact .word_space (by decide) rfl (.word (by cases p <;> decide) breaks_space hlhs.space)
  | float p =>
      show Spells _ (("fcmp " ++ p.name ++ " " ++ ty.text ++ " " ++ f.operandText lhs ++ ", " ++
        f.operandText rhs).toList ++ s)
      simp only [typedText, String.toList_append, List.append_assoc] at hlhs ⊢
      exact .word_space (by decide) rfl (.word (by cases p <;> decide) breaks_space hlhs.space)

theorem spellsBody_load (hi : f.Writes (.load ty address)) :
    f.SpellsBody (.load ty address) n s := by
  have haddress := spells_typed (hi.operands address (by simp)) hs h
  show Spells _ (("load " ++ ty.text ++ ", " ++ f.typedText address).toList ++ s)
  simp only [String.toList_append, List.append_assoc]
  exact .word_space (by decide) rfl (Ty.spells_text _ haddress.comma breaks_comma)

theorem spellsBody_store (hi : f.Writes (.store value address)) :
    f.SpellsBody (.store value address) n s := by
  have haddress := spells_typed (hi.operands address (by simp)) hs h
  have hvalue := spells_typed (hi.operands value (by simp)) breaks_comma haddress.comma
  show Spells _ (("store " ++ f.typedText value ++ ", " ++ f.typedText address).toList ++ s)
  simp only [String.toList_append, List.append_assoc]
  exact .word_space (by decide) rfl hvalue

/-- The base of an address computation and its indices are one list. -/
theorem spellsBody_elementPtr (hi : f.Writes (.elementPtr source base indices)) :
    f.SpellsBody (.elementPtr source base indices) n s := by
  have hlist := Spells.separated (g := fun t m => (f.typedTree t).pieces m)
    (w := f.typedText) (l := base :: indices)
    (fun t ht _ _ h hs => spells_typed (hi.operands t ht) hs h) h hs
  show Spells _ (("getelementptr " ++ source.text ++ ", " ++
    ", ".intercalate (f.typedText base :: indices.map f.typedText)).toList ++ s)
  simp only [String.toList_append, List.append_assoc, statement, Statement.pieces, List.foldr_map]
  exact .word_space (by decide) rfl (Ty.spells_text _ hlist.comma breaks_comma)

theorem spellsBody_cast {op : CastOp} (hi : f.Writes (.cast op value target)) :
    f.SpellsBody (.cast op value target) n s := by
  have htarget := Ty.spells_text target h hs
  have hvalue := spells_typed (hi.operands value (by simp)) breaks_space
    (.blank rfl (.word_space (w := "to") (v := "to ") (by decide) rfl htarget))
  show Spells _ ((op.name ++ " " ++ f.typedText value ++ " to " ++ target.text).toList ++ s)
  simp only [String.toList_append, List.append_assoc]
  exact .word (by cases op <;> decide) breaks_space hvalue.space

/-- A phi is written in the pieces of its statement, arm after arm. -/
theorem spellsBody_phi {arms : List Arm} (hlabels : f.Labelled) (hi : f.Writes (.phi ty arms)) :
    f.SpellsBody (.phi ty arms) n s := by
  have hlist := Spells.separated
    (g := fun (a : Arm) m => (⟨f.operandTree a.value, f.blockName a.source⟩ : ArmText).pieces m)
    (w := f.armText) (l := arms)
    (fun a ha _ _ h _ => spells_arm (t := ty)
      (hi.operands ⟨ty, a.value⟩ (List.mem_map.mpr ⟨a, ha, rfl⟩))
      (hi.label hlabels (List.mem_map_of_mem ha)) h) h hs
  show Spells _ (("phi " ++ ty.text ++ " " ++ ", ".intercalate (arms.map f.armText)).toList ++ s)
  simp only [String.toList_append, List.append_assoc, statement, Statement.pieces, separated_map]
  exact .word_space (by decide) rfl (Ty.spells_text _ hlist.space breaks_space)

theorem spellsBody_select (hi : f.Writes (.select cond ty onTrue onFalse)) :
    f.SpellsBody (.select cond ty onTrue onFalse) n s := by
  have hfalse := spells_typed (hi.operands ⟨ty, onFalse.retype ty⟩ (by simp)) hs h
  rw [typedTree_retype, typedText_retype] at hfalse
  have htrue := spells_typed (hi.operands ⟨ty, onTrue⟩ (by simp)) breaks_comma hfalse.comma
  have hcond := spells_condition (hi.operands ⟨.bool, cond.retype .bool⟩ (by simp)) breaks_comma
    htrue.comma
  show Spells _ (("select " ++ "i1 " ++ f.operandText cond ++ ", " ++ f.typedText ⟨ty, onTrue⟩ ++
    ", " ++ f.typedText ⟨ty, onFalse⟩).toList ++ s)
  simp only [String.toList_append, List.append_assoc]
  exact .word_space (by decide) rfl hcond

omit hs in
/-- A call is written in the pieces of its statement, argument after argument. -/
theorem spellsBody_call (hi : f.Writes (.call ty callee args)) :
    f.SpellsBody (.call ty callee args) n s := by
  have hclose : Spells (.mark ')' :: n) (")".toList ++ s) := .mark (by decide) h
  have hlist := Spells.separated (g := fun t m => (f.typedTree t).pieces m)
    (w := f.typedText) (l := args)
    (fun t ht _ _ h hs => spells_typed (hi.operands t ht) hs h) hclose
    (breaks_toList rfl (by decide))
  have hcallee := spells_callee (hi.callee callee rfl)
    (breaks_toList (v := "(") rfl (by decide)) (.mark (by decide) hlist)
  show Spells _ (("call " ++ ty.text ++ " " ++ f.operandText callee ++ "(" ++
    ", ".intercalate (args.map f.typedText) ++ ")").toList ++ s)
  simp only [String.toList_append, List.append_assoc, statement, Statement.pieces, separated_map]
  exact .word_space (by decide) rfl (Ty.spells_text _ hcallee.space breaks_space)

/-- An allocation is written in the pieces of its statement, with the count where there is one. -/
theorem spellsBody_alloca {count : Option TypedOperand} (hi : f.Writes (.alloca ty count)) :
    f.SpellsBody (.alloca ty count) n s := by
  cases count with
  | none =>
      show Spells _ (("alloca " ++ ty.text).toList ++ s)
      simp only [String.toList_append, List.append_assoc]
      exact .word_space (by decide) rfl (Ty.spells_text _ h hs)
  | some count =>
      have hcount := spells_typed (hi.operands count (by simp)) hs h
      show Spells _ (("alloca " ++ ty.text ++ ", " ++ f.typedText count).toList ++ s)
      simp only [String.toList_append, List.append_assoc]
      exact .word_space (by decide) rfl (Ty.spells_text _ hcount.comma breaks_comma)

theorem spellsBody_jump {b : BlockId} (hlabels : f.Labelled) (hi : f.Writes (.jump b)) :
    f.SpellsBody (.jump b) n s := by
  have htarget := spells_target (hi.label hlabels (b := b) (by simp [Instruction.blockRefs])) hs h
  show Spells _ (("br " ++ "label " ++ f.labelText b).toList ++ s)
  simp only [String.toList_append, List.append_assoc]
  exact .word_space (by decide) rfl htarget

theorem spellsBody_branch {yes no : BlockId} (hlabels : f.Labelled)
    (hi : f.Writes (.branch cond yes no)) : f.SpellsBody (.branch cond yes no) n s := by
  have hno := spells_target (hi.label hlabels (b := no) (by simp [Instruction.blockRefs])) hs h
  have hyes := spells_target (hi.label hlabels (b := yes) (by simp [Instruction.blockRefs]))
    breaks_comma hno.comma
  have hcond := spells_condition (hi.operands ⟨.bool, cond.retype .bool⟩ (by simp)) breaks_comma
    hyes.comma
  show Spells _ (("br " ++ "i1 " ++ f.operandText cond ++ (", " ++ "label ") ++ f.labelText yes ++
    (", " ++ "label ") ++ f.labelText no).toList ++ s)
  simp only [String.toList_append, List.append_assoc]
  exact .word_space (by decide) rfl hcond

/-- A return is written in the pieces of its statement, with the value where there is one. -/
theorem spellsBody_ret {value : Option TypedOperand} (hi : f.Writes (.ret value)) :
    f.SpellsBody (.ret value) n s := by
  cases value with
  | none =>
      show Spells _ (("ret " ++ "void").toList ++ s)
      simp only [String.toList_append, List.append_assoc]
      exact .word_space (by decide) rfl (.word (by decide) hs h)
  | some value =>
      have hvalue := spells_typed (hi.operands value (by simp)) hs h
      show Spells _ (("ret " ++ f.typedText value).toList ++ s)
      simp only [String.toList_append, List.append_assoc]
      exact .word_space (by decide) rfl hvalue

end Forms

/-- An instruction that can be written consists of the pieces of its tree. -/
theorem spells_body {i : Instruction} (hlabels : f.Labelled) (hi : f.Writes i) (hs : Breaks s)
    (h : Spells n s) : Spells ((f.statement i).pieces n) ((f.bodyText i).toList ++ s) := by
  cases i with
  | binary => exact spellsBody_binary hs h hi
  | compare => exact spellsBody_compare hs h hi
  | load => exact spellsBody_load hs h hi
  | store => exact spellsBody_store hs h hi
  | elementPtr => exact spellsBody_elementPtr hs h hi
  | cast => exact spellsBody_cast hs h hi
  | phi => exact spellsBody_phi hs h hlabels hi
  | select => exact spellsBody_select hs h hi
  | call => exact spellsBody_call h hi
  | alloca => exact spellsBody_alloca hs h hi
  | jump => exact spellsBody_jump hs h hlabels hi
  | branch => exact spellsBody_branch hs h hlabels hi
  | ret => exact spellsBody_ret hs h hi
  | unreachable => exact .word (by decide) hs h

end Function

end Dataflow
