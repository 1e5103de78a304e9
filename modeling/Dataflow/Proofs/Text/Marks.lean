import Dataflow.Proofs.Text.Reprinting

/-!
# Marks of a written function

The colons, opening parentheses and line ends of a text that stand outside double quotes. A written
function has a colon for each block, a parenthesis for each call besides the one around its
parameters, and a line for each block and each instruction (`Legible.shows_text`, `count_marks`). So
the text alone tells how many there are, whatever the names are, as long as none of them has a
double quote and constants are literals (`Function.Legible`), as in every function that was read
(`Spelled.legible`). Two texts are told apart by counting (`Module.text_ne_of_count`).
-/

namespace Dataflow

open Lexeme

namespace Marks

/-- Whether a character is one of the marks that are counted. -/
def isMark (c : Char) : Bool := c == ':' || c == '(' || c == '\n'

/-- The marks of a text outside double quotes, if a name in quotes is open before it or not. -/
def outside : Bool → List Char → List Char
  | _, [] => []
  | quoted, c :: cs =>
    if c = '"' then outside (!quoted) cs
    else if !quoted && isMark c then c :: outside quoted cs
    else outside quoted cs

/-- Whether a name in quotes is open after a text. -/
def opens : Bool → List Char → Bool
  | quoted, [] => quoted
  | quoted, c :: cs => opens (if c = '"' then !quoted else quoted) cs

variable {quoted : Bool} {s t : String} {cs ds ms ns : List Char} {c : Char}

/-- The marks outside quotes are those of either part, if it is kept in mind whether quotes are
open. -/
theorem outside_append :
    outside quoted (cs ++ ds) = outside quoted cs ++ outside (opens quoted cs) ds := by
  induction cs generalizing quoted with
  | nil => rfl
  | cons c cs ih =>
      rw [List.cons_append, outside, outside, opens]
      split
      · exact ih
      · split
        · rw [ih, List.cons_append]
        · exact ih

/-- Whether quotes are open is told by one part after the other. -/
theorem opens_append : opens quoted (cs ++ ds) = opens (opens quoted cs) ds := by
  induction cs generalizing quoted with
  | nil => rfl
  | cons c cs ih => exact ih

/-- Text `s` closes its quotes and has the marks `ms` outside them. -/
structure Shows (s : String) (ms : List Char) : Prop where
  closed : opens false s.toList = false
  marks : outside false s.toList = ms

/-- Whether a text shows these marks is decided by its characters. -/
instance (s : String) (ms : List Char) : Decidable (Shows s ms) :=
  decidable_of_iff (opens false s.toList = false ∧ outside false s.toList = ms)
    ⟨fun h => ⟨h.1, h.2⟩, fun h => ⟨h.closed, h.marks⟩⟩

/-- The marks of two texts follow one another. -/
theorem Shows.append (hs : Shows s ms) (ht : Shows t ns) : Shows (s ++ t) (ms ++ ns) where
  closed := by rw [String.toList_append, opens_append, hs.closed, ht.closed]
  marks := by rw [String.toList_append, outside_append, hs.closed, hs.marks, ht.marks]

/-- The marks of texts that are joined are those of each. -/
theorem Shows.join {α : Type} {w : α → String} {k : α → List Char} {l : List α}
    (h : ∀ a ∈ l, Shows (w a) (k a)) : Shows (String.join (l.map w)) (l.flatMap k) := by
  induction l with
  | nil => exact ⟨rfl, rfl⟩
  | cons a l ih =>
      rw [List.map_cons, String.join_cons, List.flatMap_cons]
      exact (h a List.mem_cons_self).append (ih fun b hb => h b (List.mem_cons_of_mem a hb))

/-- The marks of a list with separators are those of its members and of the separators. -/
theorem Shows.intercalate {α : Type} {w : α → String} {k : α → List Char} {l : List α}
    (hs : Shows s ms) (h : ∀ a ∈ l, Shows (w a) (k a)) :
    Shows (s.intercalate (l.map w)) (ms.intercalate (l.map k)) := by
  cases l with
  | nil => exact ⟨rfl, rfl⟩
  | cons a l =>
      induction l generalizing a with
      | nil => simpa using h a List.mem_cons_self
      | cons b l ih =>
          rw [List.map_cons, List.map_cons, String.intercalate_cons_cons, List.map_cons,
            List.map_cons, List.intercalate_cons_cons]
          exact ((h a List.mem_cons_self).append hs).append
            (ih b fun c hc => h c (List.mem_cons_of_mem a hc))

/-- A text without marks outside double quotes. -/
abbrev Plain (s : String) : Prop := Shows s []

namespace Plain

/-- Plain texts one after the other are plain. -/
theorem append (hs : Plain s) (ht : Plain t) : Plain (s ++ t) := Shows.append hs ht

/-- A blank between plain texts is plain. -/
theorem spaced (hs : Plain s) (ht : Plain t) : Plain (s ++ " " ++ t) :=
  (hs.append (by decide)).append ht

/-- A comma between plain texts is plain. -/
theorem comma (hs : Plain s) (ht : Plain t) : Plain (s ++ ", " ++ t) :=
  (hs.append (by decide)).append ht

/-- Texts without marks, with commas between them. -/
theorem list {α : Type} {w : α → String} {l : List α} (h : ∀ a ∈ l, Plain (w a)) :
    Plain (", ".intercalate (l.map w)) := by
  have hnone : ∀ l : List α, ([] : List Char).intercalate (l.map fun _ => []) = [] := by
    intro l
    induction l with
    | nil => rfl
    | cons a l ih =>
        cases l with
        | nil => rfl
        | cons b l => exact ih
  have hshows := Shows.intercalate (by decide : Shows ", " []) h
  rwa [hnone] at hshows

end Plain

/-! ## Texts without marks -/

/-- A text of characters that are no marks and no quotes. -/
theorem plain_of_bare (h : ∀ c ∈ s.toList, c ≠ '"' ∧ isMark c = false) : Plain s := by
  have hbare : ∀ cs : List Char, (∀ c ∈ cs, c ≠ '"' ∧ isMark c = false) →
      opens false cs = false ∧ outside false cs = [] := by
    intro cs hcs
    induction cs with
    | nil => exact ⟨rfl, rfl⟩
    | cons c cs ih =>
        obtain ⟨hquote, hmark⟩ := hcs c List.mem_cons_self
        obtain ⟨hopens, houtside⟩ := ih fun d hd => hcs d (List.mem_cons_of_mem c hd)
        simpa [opens, outside, hquote, hmark] using ⟨hopens, houtside⟩
  obtain ⟨hopens, houtside⟩ := hbare s.toList h
  exact ⟨hopens, houtside⟩

/-- The characters of names are neither quotes nor marks. -/
theorem bare_of_isNameChar (hc : Symbol.isNameChar c = true) : c ≠ '"' ∧ isMark c = false := by
  refine ⟨(not_blank_of_isNameChar hc).2.2, Bool.eq_false_iff.mpr fun hmark => ?_⟩
  simp only [isMark, Bool.or_eq_true, beq_iff_eq] at hmark
  rcases hmark with (rfl | rfl) | rfl <;> exact absurd hc (by decide)

/-- A text of characters of names is plain. -/
theorem plain_of_isNameChar (h : s.toList.all Symbol.isNameChar = true) : Plain s :=
  plain_of_bare fun _ hc => bare_of_isNameChar (List.all_eq_true.mp h _ hc)

/-- A number is written plainly. -/
theorem plain_toString (n : Nat) : Plain (toString n) :=
  plain_of_isNameChar (List.all_eq_true.mpr fun _ hc =>
    isNameChar_of_isDigit (List.all_eq_true.mp (isNumber_toString n).2 _ hc))

/-- What stands inside quotes shows no marks. -/
theorem inside_of_unquoted (h : '"' ∉ cs) : opens true cs = true ∧ outside true cs = [] := by
  induction cs with
  | nil => exact ⟨rfl, rfl⟩
  | cons c cs ih =>
      rw [List.mem_cons, not_or] at h
      obtain ⟨hopens, houtside⟩ := ih h.2
      simpa [opens, outside, Ne.symm h.1] using ⟨hopens, houtside⟩

/-- A symbol without a double quote is plain, quoted or not. -/
theorem plain_symbol (h : Unquoted s) : Plain (Symbol.text s) := by
  rw [Symbol.text]
  split
  · exact plain_of_isNameChar ‹_›
  · obtain ⟨hopens, houtside⟩ := inside_of_unquoted h
    have hopen : opens false "\"".toList = true := rfl
    constructor
    · simp only [String.toList_append, opens_append, hopen, hopens]
      rfl
    · simp only [String.toList_append, opens_append, outside_append, hopen, hopens, houtside]
      rfl

/-- So is a local name. -/
theorem plain_local (h : Unquoted s) : Plain (Symbol.localText s) :=
  .append (by decide) (plain_symbol h)

/-- So is a global name. -/
theorem plain_global (h : Unquoted s) : Plain (Symbol.globalText s) :=
  .append (by decide) (plain_symbol h)

/-- Types are written plainly. -/
theorem plain_ty (ty : Ty) : Plain ty.text := by
  induction ty with
  | int bits => exact .append (by decide) (plain_toString bits.toNat)
  | pointer target ih => exact .append ih (by decide)
  | array length element ih | vector length element ih =>
      have hlength : Plain (toString length) := plain_toString length.toNat
      exact .append (.append (.append (.append (by decide) hlength) (by decide)) ih) (by decide)
  | _ => decide

/-- A literal has no characters but those of names and signs: at any other the reader of literals
would stop. -/
theorem plain_literal (h : IsLiteral s) : Plain s := by
  refine plain_of_bare fun c hc => ?_
  obtain ⟨front, rest, hsplit⟩ := List.append_of_mem hc
  by_cases hname : Symbol.isNameChar c = true
  · exact bare_of_isNameChar hname
  by_cases hplus : c = '+'
  · subst hplus
    decide
  have hbreaks : Reader.Breaks (c :: rest) := by
    intro d hd
    cases hd
    exact ⟨Bool.eq_false_iff.mpr hname, hplus⟩
  have hread := h.token
  rw [hsplit, stable_literalToken _ _ hbreaks] at hread
  obtain ⟨r, _, hr⟩ := Option.map_eq_some_iff.mp hread
  simp at hr

/-! ## Counting marks -/

/-- A character in a list with separators is one of a member or of one of the separators, which are
one fewer than the members. -/
theorem count_intercalate (c : Char) (sep : List Char) (ls : List (List Char)) :
    (sep.intercalate ls).count c = ls.flatten.count c + (ls.length - 1) * sep.count c := by
  cases ls with
  | nil => simp
  | cons l ls =>
      induction ls generalizing l with
      | nil => simp
      | cons m ls ih =>
          rw [List.intercalate_cons_cons, List.count_append, List.count_append, ih]
          simp only [List.flatten_cons, List.count_append, List.length_cons, Nat.add_sub_cancel,
            Nat.add_one_mul]
          omega

/-- If no member has fewer marks of one kind and one has more, there are more of them in all. -/
theorem count_flatMap_lt {α : Type} {φ ψ : α → List Char} {as : List α} {a : α}
    (hle : ∀ b ∈ as, (φ b).count c ≤ (ψ b).count c) (ha : a ∈ as)
    (hlt : (φ a).count c < (ψ a).count c) :
    (as.flatMap φ).count c < (as.flatMap ψ).count c := by
  have hmono : ∀ bs : List α, (∀ b ∈ bs, b ∈ as) →
      (bs.flatMap φ).count c ≤ (bs.flatMap ψ).count c := by
    intro bs hbs
    induction bs with
    | nil => exact Nat.le_refl _
    | cons b bs ih =>
        obtain ⟨hb, hbs⟩ := List.forall_mem_cons.mp hbs
        rw [List.flatMap_cons, List.flatMap_cons, List.count_append, List.count_append]
        exact Nat.add_le_add (hle b hb) (ih hbs)
  obtain ⟨front, rest, rfl⟩ := List.append_of_mem ha
  have hfront := hmono front fun b hb => List.mem_append_left _ hb
  have hrest := hmono rest fun b hb => List.mem_append_right _ (List.mem_cons_of_mem a hb)
  simp only [List.flatMap_append, List.flatMap_cons, List.count_append]
  omega

end Marks

open Marks

/-! ## Functions -/

/-- An operand whose written form is no surprise: a literal is one of the grammar, and a symbol has
no double quote. -/
def Operand.Legible : Operand → Prop
  | .const value => IsLiteral value.literal
  | .global name | .function name => Unquoted name
  | .param _ | .result _ => True

/-- An instruction with a name without double quotes and operands that are legible. -/
structure Slot.Legible (s : Slot) : Prop where
  name : ∀ name ∈ s.name, Unquoted name
  operands : ∀ v ∈ s.instruction.uses, v.Legible

namespace Function

/-- A function whose written form shows its shape. -/
structure Legible (f : Function) : Prop where
  name : Unquoted f.name
  params : ∀ p ∈ f.params, Unquoted p.name
  labels : ∀ label ∈ f.labels, Unquoted label
  slots : ∀ {x : InstId} {s : Slot}, f.slots[x]? = some s → s.Legible

/-- Whether instruction `x` is a call. -/
def callAt (f : Function) (x : InstId) : Bool := ((f.instruction? x).bind (·.callee?)).isSome

/-- The marks of the written form of a block. -/
def blockMarks (f : Function) (k : Block) : List Char :=
  [':', '\n'] ++ k.insts.flatMap fun x => (if f.callAt x then ['('] else []) ++ ['\n']

/-- The marks of the written form of a function. -/
def marks (f : Function) : List Char :=
  ['(', '\n'] ++ ['\n'].intercalate (f.blocks.map f.blockMarks) ++ ['\n']

variable {f : Function} {v : Operand} {t : TypedOperand} {i : Instruction} {x : InstId} {k : Block}

namespace Legible

variable (h : f.Legible)

include h

/-- A legible operand is written plainly. -/
theorem plain_operand (hv : v.Legible) : Plain (f.operandText v) := by
  cases v with
  | param index =>
      simp only [operandText]
      split
      · exact plain_local (h.params _ (List.mem_of_getElem? ‹_›))
      · exact .append (by decide) (plain_toString index)
  | result id =>
      simp only [operandText]
      split
      · rename_i name hname
        obtain ⟨s, hs, hname⟩ := Option.bind_eq_some_iff.mp hname
        exact plain_local ((h.slots hs).name name hname)
      · exact .append (by decide) (plain_toString id)
  | const value => exact plain_literal hv
  | global name | function name => exact plain_global hv

/-- So is an operand with its type. -/
theorem plain_typed (ht : t.value.Legible) : Plain (f.typedText t) :=
  .spaced (plain_ty t.ty) (h.plain_operand ht)

/-- A label of a legible function is written plainly. -/
theorem plain_label (b : BlockId) : Plain (f.labelText b) := by
  refine plain_local ?_
  rw [blockName]
  cases hk : f.blocks[b]? with
  | none => exact List.not_mem_nil
  | some k => exact h.labels k.name (List.mem_map_of_mem (List.mem_of_getElem? hk))

/-- An arm of a phi is written plainly. -/
theorem plain_arm {a : Arm} (ha : a.value.Legible) : Plain (f.armText a) :=
  .append (.comma (.append (by decide) (h.plain_operand ha)) (h.plain_label a.source)) (by decide)

/-- Only a call has a mark, the parenthesis before its arguments. -/
theorem shows_body (hi : ∀ v ∈ i.uses, v.Legible) :
    Shows (f.bodyText i) (if i.callee?.isSome then ['('] else []) := by
  have hoperand : ∀ v ∈ i.operands, Plain (f.operandText v) :=
    fun v hv => h.plain_operand (hi v (List.mem_append_left _ hv))
  have htyped : ∀ t : TypedOperand, t.value ∈ i.operands → Plain (f.typedText t) :=
    fun t ht => h.plain_typed (hi t.value (List.mem_append_left _ ht))
  cases i <;> simp only [Instruction.operands, List.mem_cons, List.mem_map, List.not_mem_nil,
    or_false] at hoperand htyped <;> simp only [bodyText]
  case binary op ty lhs rhs =>
    have hop : Plain op.name := by cases op <;> decide
    exact ((hop.spaced (plain_ty ty)).spaced (hoperand lhs (.inl rfl))).comma
      (hoperand rhs (.inr rfl))
  case compare test ty lhs rhs =>
    cases test with
    | int predicate =>
        have hop : Plain ("icmp " ++ predicate.name) := by cases predicate <;> decide
        exact ((hop.spaced (plain_ty ty)).spaced (hoperand lhs (.inl rfl))).comma
          (hoperand rhs (.inr rfl))
    | float predicate =>
        have hop : Plain ("fcmp " ++ predicate.name) := by cases predicate <;> decide
        exact ((hop.spaced (plain_ty ty)).spaced (hoperand lhs (.inl rfl))).comma
          (hoperand rhs (.inr rfl))
  case load ty address =>
    exact (Plain.append (by decide) (plain_ty ty)).comma (htyped address rfl)
  case store value address =>
    exact (Plain.append (by decide) (htyped value (.inl rfl))).comma (htyped address (.inr rfl))
  case elementPtr source base indices =>
    refine (Plain.append (by decide) (plain_ty source)).comma
      (Plain.list (w := f.typedText) (l := base :: indices) fun t ht => ?_)
    rcases List.mem_cons.mp ht with rfl | ht
    · exact htyped t (.inl rfl)
    · exact htyped t (.inr ⟨t, ht, rfl⟩)
  case cast op value target =>
    have hop : Plain op.name := by cases op <;> decide
    exact ((hop.spaced (htyped value rfl)).append (by decide)).append (plain_ty target)
  case phi ty arms =>
    refine (Plain.append (by decide) (plain_ty ty)).spaced (.list fun a ha => ?_)
    exact h.plain_arm (hi _ (List.mem_append_left _ (List.mem_map_of_mem ha)))
  case select cond ty onTrue onFalse =>
    exact ((Plain.append (by decide) (hoperand cond (.inl rfl))).comma
      (htyped ⟨ty, onTrue⟩ (.inr (.inl rfl)))).comma (htyped ⟨ty, onFalse⟩ (.inr (.inr rfl)))
  case call retTy callee args =>
    have hcallee : Plain (f.operandText callee) :=
      h.plain_operand (hi callee (List.mem_append_right _ List.mem_cons_self))
    have hargs : Plain (", ".intercalate (args.map f.typedText)) :=
      .list fun t ht => htyped t ⟨t, ht, rfl⟩
    have hopen : Shows "(" ['('] := by decide
    have hclose : Plain ")" := by decide
    have hcalled : Plain ("call " ++ retTy.text) := .append (by decide) (plain_ty retTy)
    exact ((Shows.append (hcalled.spaced hcallee) hopen).append hargs).append hclose
  case alloca ty count =>
    cases count with
    | none => exact Plain.append (by decide) (plain_ty ty)
    | some count => exact (Plain.append (by decide) (plain_ty ty)).comma (htyped count (by simp))
  case jump target => exact Plain.append (by decide) (h.plain_label target)
  case branch cond onTrue onFalse =>
    exact ((((Plain.append (by decide) (hoperand cond rfl)).append (by decide)).append
      (h.plain_label onTrue)).append (by decide)).append (h.plain_label onFalse)
  case ret value =>
    cases value with
    | none => exact (by decide : Plain "ret void")
    | some value => exact Plain.append (by decide) (htyped value (by simp))
  case unreachable => exact (by decide : Plain "unreachable")

/-- An instruction shows a parenthesis if it is a call, and else no mark. -/
theorem shows_instruction (x : InstId) :
    Shows (f.instructionText x) (if f.callAt x then ['('] else []) := by
  rw [instructionText, callAt]
  cases hi : f.instruction? x with
  | none => exact (by decide : Plain "")
  | some i =>
      obtain ⟨s, hs, rfl⟩ := Option.map_eq_some_iff.mp hi
      have hbody := h.shows_body (h.slots hs).operands
      have hresult : Plain (f.operandText (.result x) ++ " = ") :=
        .append (h.plain_operand trivial) (by decide)
      dsimp only [Option.bind_some]
      split
      · exact hbody
      · exact Shows.append hresult hbody

/-- A block shows a colon, and for each instruction what that shows and the end of the line. -/
theorem shows_block (hk : k ∈ f.blocks) : Shows (f.blockText k) (f.blockMarks k) := by
  have hcolon : Shows ":\n" [':', '\n'] := by decide
  have hline : Shows "\n" ['\n'] := by decide
  have hlabel : Plain (Symbol.text k.name) := plain_symbol (h.labels _ (List.mem_map_of_mem hk))
  refine (Shows.append hlabel hcolon).append (.join fun x _ => ?_)
  exact (Shows.append (by decide : Plain "  ") (h.shows_instruction x)).append hline

/-- The first line shows the parenthesis before the parameters and the end of the line. -/
theorem shows_head : Shows f.headText ['(', '\n'] := by
  have hopen : Shows "(" ['('] := by decide
  have hclose : Shows ") \x7b\n" ['\n'] := by decide
  have hdefine : Plain ("define " ++ f.ret.text) := .append (by decide) (plain_ty f.ret)
  have hparams : Plain (", ".intercalate (f.params.map paramText)) :=
    .list fun p hp => .spaced (plain_ty p.ty) (plain_local (h.params p hp))
  exact ((Shows.append (hdefine.spaced (plain_global h.name)) hopen).append hparams).append hclose

/-- The written form of a legible function shows the marks of its shape. -/
theorem shows_text : Shows f.text f.marks := by
  have hblocks : Shows ("\n".intercalate (f.blocks.map f.blockText)) _ :=
    .intercalate (by decide : Shows "\n" ['\n']) fun k hk => h.shows_block hk
  have hclose : Shows "\x7d\n" ['\n'] := by decide
  exact (h.shows_head.append hblocks).append hclose

end Legible

/-! ### How many marks there are -/

/-- A mark in a block is one of its first line, of a call or of the end of a line. -/
theorem count_blockMarks (c : Char) : (f.blockMarks k).count c = [':', '\n'].count c +
    k.insts.countP f.callAt * ['('].count c + k.insts.length * ['\n'].count c := by
  obtain ⟨name, insts⟩ := k
  rw [blockMarks, List.count_append, Nat.add_assoc]
  congr 1
  induction insts with
  | nil => simp
  | cons x insts ih =>
      rw [List.flatMap_cons, List.count_append, List.count_append, ih, List.countP_cons,
        List.length_cons, Nat.add_mul, Nat.add_one_mul]
      cases f.callAt x <;> simp <;> omega

/-- A function has a mark for each block and each line, and a parenthesis for each call. -/
theorem count_marks (c : Char) : f.marks.count c = ['(', '\n'].count c +
    (f.blocks.length * [':', '\n'].count c + f.live.countP f.callAt * ['('].count c +
    f.live.length * ['\n'].count c + (f.blocks.length - 1) * ['\n'].count c) +
    ['\n'].count c := by
  have hblocks : ∀ ks : List Block, (ks.flatMap f.blockMarks).count c =
      ks.length * [':', '\n'].count c +
        (ks.flatMap (·.insts)).countP f.callAt * ['('].count c +
        (ks.flatMap (·.insts)).length * ['\n'].count c := by
    intro ks
    induction ks with
    | nil => simp
    | cons k ks ih =>
        rw [List.flatMap_cons, List.count_append, ih, count_blockMarks, List.length_cons,
          List.flatMap_cons, List.countP_append, List.length_append, Nat.add_mul, Nat.add_mul,
          Nat.add_mul, Nat.one_mul]
        omega
  rw [marks, live, List.count_append, List.count_append, count_intercalate, ← List.flatMap_def,
    hblocks, List.length_map]

/-- There are as many colons as blocks. -/
theorem count_colon : f.marks.count ':' = f.blocks.length := by simp [count_marks]

/-- There are as many opening parentheses as calls, and one for the function. -/
theorem count_parenthesis : f.marks.count '(' = f.live.countP f.callAt + 1 := by
  simp [count_marks, Nat.add_comm]

/-- The lines are those of the blocks and instructions, the blanks between blocks, and the first and
last. -/
theorem count_line :
    f.marks.count '\n' = f.blocks.length + f.live.length + (f.blocks.length - 1) + 2 := by
  simp [count_marks]
  omega

end Function

/-! ## What was read is legible -/

namespace Operand

open Surface

variable {v : Operand} {t : TypedOperand} {names : List String}

/-- The type of a constant has no part in whether it is legible. -/
theorem legible_retype (ty : Ty) : (v.retype ty).Legible ↔ v.Legible := by
  cases v <;> rfl

/-- What was read as data is legible. -/
theorem legible_of_isData (h : IsData names t) : t.value.Legible := by
  obtain ⟨ty, v⟩ := t
  cases v with
  | const value => exact h.2
  | global name => exact h
  | function name => exact h.elim
  | param | result => trivial

/-- What was read as a callee is legible. -/
theorem legible_of_isCallee (h : IsCallee names v) : v.Legible := by
  cases v with
  | function name => exact h
  | const | global => exact h.elim
  | param | result => trivial

end Operand

/-- An instruction is legible if it is so as it is written. -/
theorem Instruction.legible_of_asWritten {i : Instruction}
    (h : ∀ v ∈ i.asWritten.operands, v.Legible) : ∀ v ∈ i.operands, v.Legible := by
  cases i with
  | select cond ty onTrue onFalse | branch cond onTrue onFalse =>
      simpa [operands, Operand.legible_retype] using h
  | _ => exact h

/-- A function with the names of a text is legible. -/
theorem Function.Spelled.legible {f : Function} (hs : f.Spelled) : f.Legible where
  name := hs.name
  params := hs.params
  labels := hs.labels
  slots {x s} hx := by
    have hi : f.instruction? x = some s.instruction := by rw [instruction?, hx, Option.map_some]
    refine ⟨hs.results s (List.mem_of_getElem? hx), fun v hv => ?_⟩
    rcases List.mem_append.mp hv with hv | hv
    · refine Instruction.legible_of_asWritten (fun w hw => ?_) v hv
      rw [← Instruction.map_value_typedOperands] at hw
      obtain ⟨t, ht, rfl⟩ := List.mem_map.mp hw
      exact Operand.legible_of_isData (hs.operands hi t ht)
    · exact Operand.legible_of_isCallee (hs.callee hi v (Option.mem_toList.mp hv))

/-- The marks of a module are those of its functions, with a line between two of them. -/
theorem Module.shows_text {m : Module} (h : ∀ f ∈ m.functions, f.Legible) :
    Shows m.text (['\n'].intercalate (m.functions.map (·.marks))) :=
  .intercalate (by decide : Shows "\n" ['\n']) fun f hf => (h f hf).shows_text

/-- Two modules with as many functions have two texts if their marks differ in number. -/
theorem Module.text_ne_of_count {m n : Module} (hm : ∀ f ∈ m.functions, f.Legible)
    (hn : ∀ f ∈ n.functions, f.Legible) (hlength : m.functions.length = n.functions.length)
    (c : Char) (hne : (m.functions.flatMap (·.marks)).count c ≠
      (n.functions.flatMap (·.marks)).count c) : m.text ≠ n.text := by
  intro htext
  have hmarks := (shows_text hm).marks
  rw [htext, (shows_text hn).marks] at hmarks
  have hcount := congrArg (List.count c) hmarks
  rw [count_intercalate, count_intercalate, List.length_map, List.length_map,
    hlength, Nat.add_right_cancel_iff, ← List.flatMap_def, ← List.flatMap_def] at hcount
  exact hne hcount.symm

end Dataflow
