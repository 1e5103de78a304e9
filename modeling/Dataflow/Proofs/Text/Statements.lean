import Dataflow.Proofs.Text.Pieces

/-!
# Statements that are read back

The pieces of a type, an operand and a statement as a program writes them, and that the grammar
reads them as what they were written for (`Surface.reads_type`, `Surface.reads_statement`). Every
reader takes exactly the pieces of its own part, so what stands behind a part matters only in a few
places: a star behind a type, a comma behind a list and an attribute behind a call.

The forms of a statement are tried in order. Which of them can open with a word is told by
`Surface.OpensWith`, and two pairs of forms open with the same word: a branch to two labels is no
branch to one, and a return of a value is no return without one.
-/

namespace Dataflow

namespace Surface

open Reader Lexeme

variable {n : List Piece}

/-! ## Types -/

/-- The pieces of a type, in front of `n`. -/
def TypeText.pieces : TypeText → List Piece → List Piece
  | named ty, n => .word ty.text :: n
  | int digits, n => .word ("i" ++ digits) :: n
  | array length element, n =>
    .mark '[' :: .number length :: .mark 'x' :: element.pieces (.mark ']' :: n)
  | vector length element, n =>
    .mark '<' :: .number length :: .mark 'x' :: element.pieces (.mark '>' :: n)
  | pointer target, n => target.pieces (.mark '*' :: n)

/-- A type whose words name the types they stand for. -/
def TypeText.Clean : TypeText → Prop
  | named ty => typeOfWord? ty.text = some (.named ty)
  | int digits => IsNumber digits
  | array _ element | vector _ element => element.Clean
  | pointer target => target.Clean

/-- Whether a type is `void` or leads to it by pointers, so that it starts with the word `void`. -/
def TypeText.startsVoid : TypeText → Bool
  | named .void => true
  | pointer target => target.startsVoid
  | _ => false

/-- The word for an integer type is its width behind an `i`. -/
theorem typeOfWord?_int {digits : String} (h : IsNumber digits) :
    typeOfWord? ("i" ++ digits) = some (.int digits) := by
  obtain ⟨d, ds, hd⟩ := List.exists_cons_of_ne_nil h.1
  have hall : (d :: ds).all Char.isDigit = true := hd ▸ h.2
  have htoList : ("i" ++ digits).toList = 'i' :: d :: ds := by
    rw [String.toList_append, hd]
    rfl
  delta typeOfWord?
  rw [htoList]
  exact (if_pos hall).trans (by rw [← hd, String.ofList_toList])

namespace TypeText

variable {t : TypeText}

/-- A type is written in at least one piece. -/
theorem length_pieces (t : TypeText) (n : List Piece) : n.length < (t.pieces n).length := by
  induction t generalizing n with
  | named ty => exact Nat.lt_succ_self _
  | int digits => exact Nat.lt_succ_self _
  | array length element ih =>
      have := ih (.mark ']' :: n)
      simp only [pieces, List.length_cons] at this ⊢
      omega
  | vector length element ih =>
      have := ih (.mark '>' :: n)
      simp only [pieces, List.length_cons] at this ⊢
      omega
  | pointer target ih =>
      have := ih (.mark '*' :: n)
      simp only [pieces, List.length_cons] at this ⊢
      omega

/-- A type starts with a bracket or with a word that names a type. -/
theorem Clean.head (h : t.Clean) (n : List Piece) : ∃ x m, t.pieces n = x :: m ∧
    (x = .mark '[' ∨ x = .mark '<' ∨ ∃ w u, x = .word w ∧ typeOfWord? w = some u) := by
  induction t generalizing n with
  | named ty => exact ⟨_, n, rfl, Or.inr (Or.inr ⟨_, _, rfl, h⟩)⟩
  | int digits => exact ⟨_, n, rfl, Or.inr (Or.inr ⟨_, _, rfl, typeOfWord?_int h⟩)⟩
  | array length element => exact ⟨_, _, rfl, Or.inl rfl⟩
  | vector length element => exact ⟨_, _, rfl, Or.inr (Or.inl rfl)⟩
  | pointer target ih => exact ih h (.mark '*' :: n)

/-- A word that is looked for and names no type is not found where a type is. -/
theorem Clean.refuses_oneOf (h : t.Clean) {words : List String}
    (hwords : ∀ w ∈ words, typeOfWord? w = none) : (oneOf words).Refuses (t.pieces n) := by
  obtain ⟨x, m, hpieces, rfl | rfl | ⟨w, u, rfl, hw⟩⟩ := h.head n
  · rw [hpieces]
    exact (refuses_word rfl rfl).bind
  · rw [hpieces]
    exact (refuses_word rfl rfl).bind
  · rw [hpieces]
    refine Lexeme.refuses_oneOf fun hmem => ?_
    rw [hwords w hmem] at hw
    cases hw

/-- A clean type does not start with a word that names no type. -/
theorem Clean.refuses_keyword (h : t.Clean) {w : String} (hw : typeOfWord? w = none) :
    (keyword w).Refuses (t.pieces n) := by
  obtain ⟨x, m, hpieces, rfl | rfl | ⟨v, u, rfl, hv⟩⟩ := h.head n
  · rw [hpieces]
    exact (refuses_word rfl rfl).bind
  · rw [hpieces]
    exact (refuses_word rfl rfl).bind
  · rw [hpieces]
    refine Lexeme.refuses_keyword ?_
    rintro rfl
    rw [hw] at hv
    cases hv

/-- A clean type starts with `void` only if it says so. -/
theorem Clean.refuses_void (h : t.Clean) (hvoid : t.startsVoid = false) :
    (keyword "void").Refuses (t.pieces n) := by
  induction t generalizing n with
  | named ty =>
      refine Lexeme.refuses_keyword fun hword => ?_
      rw [Clean, hword] at h
      cases h
      cases hvoid
  | int digits =>
      refine Lexeme.refuses_keyword fun hword => ?_
      have h' := typeOfWord?_int h
      rw [hword] at h'
      cases h'
  | array length element => exact (refuses_word rfl rfl).bind
  | vector length element => exact (refuses_word rfl rfl).bind
  | pointer target ih => exact ih h hvoid

end TypeText

/-- The stars behind a type are read to the last. -/
theorem repeats_stars (hn : (mark '*').Refuses n) (k : Nat) :
    Repeats (mark '*') (List.replicate k (.mark '*') ++ n) (List.replicate k ()) n := by
  induction k with
  | zero => exact .stop hn
  | succ k ih => exact .next reads_mark (Nat.lt_succ_self _) ih

/-- A type with `k` stars behind it is read as that pointer. The stars belong to the innermost
reader, so the induction goes over all numbers of stars. -/
theorem reads_typeUpTo {t : TypeText} (h : t.Clean) (hn : (mark '*').Refuses n) (k : Nat)
    {d : Nat}
    (hd : (t.pieces (List.replicate k (.mark '*') ++ n)).length ≤ d) :
    (typeUpTo d).Reads (t.pieces (List.replicate k (.mark '*') ++ n))
      ((List.replicate k ()).foldl (fun u _ => .pointer u) t) n := by
  induction t generalizing n k d with
  | named ty =>
      obtain ⟨d, rfl⟩ := Nat.exists_eq_add_one_of_ne_zero (n := d)
        (by simp only [TypeText.pieces, List.length_cons] at hd; omega)
      exact .bind (Reads.orElse (reads_lookup h))
        ((repeats_stars hn k).reads_many.bind (reads_pure _ _))
  | int digits =>
      obtain ⟨d, rfl⟩ := Nat.exists_eq_add_one_of_ne_zero (n := d)
        (by simp only [TypeText.pieces, List.length_cons] at hd; omega)
      exact .bind (Reads.orElse (reads_lookup (typeOfWord?_int h)))
        ((repeats_stars hn k).reads_many.bind (reads_pure _ _))
  | array length element ih =>
      obtain ⟨d, rfl⟩ := Nat.exists_eq_add_one_of_ne_zero (n := d)
        (by simp only [TypeText.pieces, List.length_cons] at hd; omega)
      simp only [TypeText.pieces, List.length_cons] at hd
      have helement := ih h (refuses_mark (d := '*') (x := .mark ']')
        (n := List.replicate k (.mark '*') ++ n) rfl (by decide)) 0 (d := d)
        (by simp only [List.replicate_zero, List.nil_append]; omega)
      refine .bind ?_ ((repeats_stars hn k).reads_many.bind (reads_pure _ _))
      refine (refuses_word rfl rfl).bind.orElse_reads (.orElse ?_)
      exact reads_mark.bind <| reads_integer.bind <| reads_mark.bind <| helement.bind <|
        reads_mark.bind <| reads_pure _ _
  | vector length element ih =>
      obtain ⟨d, rfl⟩ := Nat.exists_eq_add_one_of_ne_zero (n := d)
        (by simp only [TypeText.pieces, List.length_cons] at hd; omega)
      simp only [TypeText.pieces, List.length_cons] at hd
      have helement := ih h (refuses_mark (d := '*') (x := .mark '>')
        (n := List.replicate k (.mark '*') ++ n) rfl (by decide)) 0 (d := d)
        (by simp only [List.replicate_zero, List.nil_append]; omega)
      refine .bind ?_ ((repeats_stars hn k).reads_many.bind (reads_pure _ _))
      refine (refuses_word rfl rfl).bind.orElse_reads
        ((refuses_mark rfl (by decide)).bind.orElse_reads ?_)
      exact reads_mark.bind <| reads_integer.bind <| reads_mark.bind <| helement.bind <|
        reads_mark.bind <| reads_pure _ _
  | pointer target ih => exact ih h hn (k + 1) hd

/-- A clean type is taken up to the last star. -/
theorem reads_type {t : TypeText} (h : t.Clean) (hn : (mark '*').Refuses n) :
    type.Reads (t.pieces n) t n :=
  fun s hs => reads_typeUpTo h hn 0 (Nat.le_succ_of_le hs.length_le) s hs

/-- A mark that is no bracket opens no type. -/
theorem refuses_type {c : Char} (hc : Symbol.isNameChar c = false)
    (hbracket : c ≠ '[' ∧ c ≠ '<') : type.Refuses (.mark c :: n) := by
  have hne : ∀ d, d ≠ c → (Piece.mark c).sign? ≠ some d := fun d hd hsome => by
    cases hsome
    exact hd rfl
  intro s hs
  exact (((refuses_word rfl hc).bind.orElse
    ((refuses_mark rfl (hne '[' hbracket.1.symm)).bind.orElse
      (refuses_mark rfl (hne '<' hbracket.2.symm)).bind)).bind :
        (typeUpTo (s.length + 1)).Refuses (.mark c :: n)) s hs

/-! ## Operands -/

/-- The piece of an operand. -/
def OperandText.piece : OperandText → Piece
  | .local name => .value name
  | .global name => .global name
  | .literal text => .literal text

/-- The pieces of an operand after its type, in front of `n`. -/
def TypedText.pieces (t : TypedText) (n : List Piece) : List Piece :=
  t.ty.pieces (t.value.piece :: n)

/-- The piece of a callee. -/
def CalleeText.piece : CalleeText → Piece
  | .global name => .global name
  | .local name => .value name

/-- The pieces of one arm of a phi, in front of `n`. -/
def ArmText.pieces (a : ArmText) (n : List Piece) : List Piece :=
  .mark '[' :: a.value.piece :: .mark ',' :: .value a.source :: .mark ']' :: n

/-- No operand starts with a sign other than those of names. -/
theorem OperandText.refuses_mark (o : OperandText) {c : Char} (hc : Symbol.isNameChar c = false)
    (hsigil : c ≠ '%' ∧ c ≠ '@') : (mark c).Refuses (o.piece :: n) := by
  refine Lexeme.refuses_mark hc fun hsign => ?_
  cases o with
  | «local» name =>
      cases hsign
      exact hsigil.1 rfl
  | global name =>
      cases hsign
      exact hsigil.2 rfl
  | literal text => cases hsign

/-- An operand is taken off its piece. -/
theorem OperandText.reads (o : OperandText) : operand.Reads (o.piece :: n) o n := by
  cases o with
  | «local» name => exact reads_localName.map.orElse
  | global name =>
      exact (refuses_localName (by simp [piece, Piece.sign?])).map.orElse_reads
        reads_globalName.map.orElse
  | literal text =>
      exact (refuses_localName (by simp [piece, Piece.sign?])).map.orElse_reads
        ((refuses_globalName (by simp [piece, Piece.sign?])).map.orElse_reads reads_literal.map)

/-- A typed operand is written in at least one piece. -/
theorem TypedText.length_pieces (t : TypedText) (n : List Piece) :
    n.length < (t.pieces n).length := by
  have := t.ty.length_pieces (t.value.piece :: n)
  rw [List.length_cons] at this
  exact Nat.lt_of_succ_lt this

/-- An arm is written in at least one piece. -/
theorem ArmText.length_pieces (a : ArmText) (n : List Piece) :
    n.length < (a.pieces n).length := by
  simp only [pieces, List.length_cons]
  omega

/-- A typed operand is taken off its pieces. -/
theorem reads_typed {t : TypedText} (h : t.ty.Clean) : typed.Reads (t.pieces n) t n :=
  (reads_type h (t.value.refuses_mark rfl (by decide))).bind <| t.value.reads.bind <|
    reads_pure _ _

/-- A typed operand behind a comma is taken with the comma. -/
theorem reads_nextTyped {t : TypedText} (h : t.ty.Clean) :
    nextTyped.Reads (.mark ',' :: t.pieces n) t n :=
  reads_mark.bind (reads_typed h)

/-- No star stands in front of a callee. -/
theorem CalleeText.refuses_star (c : CalleeText) : (mark '*').Refuses (c.piece :: n) := by
  cases c <;> exact refuses_mark rfl (by simp [piece, Piece.sign?])

/-- A callee is taken off its piece. -/
theorem reads_callee (c : CalleeText) :
    ((CalleeText.global <$> globalName) <|> (CalleeText.local <$> localName)).Reads
      (c.piece :: n) c n := by
  cases c with
  | global name => exact reads_globalName.map.orElse
  | «local» name =>
      exact (refuses_globalName (by simp [CalleeText.piece, Piece.sign?])).map.orElse_reads
        reads_localName.map

/-- A target is taken off its two pieces. -/
theorem reads_target {name : String} :
    target.Reads (.word "label" :: .value name :: n) name n :=
  reads_keyword.bind reads_localName

/-- An arm is taken off its pieces. -/
theorem reads_arm {a : ArmText} : arm.Reads (a.pieces n) a n :=
  reads_mark.bind <| a.value.reads.bind <| reads_mark.bind <| reads_localName.bind <|
    reads_mark.bind <| reads_pure _ _

/-- Values with commas between them are read up to what is no comma. -/
theorem reads_sepBy1 {α : Type} {p : Reader α} {front : α → List Piece → List Piece} {a : α}
    {as : List α} (hread : ∀ b ∈ a :: as, ∀ m, p.Reads (front b m) b m)
    (hfront : ∀ b m, m.length < (front b m).length) (hn : (mark ',').Refuses n) :
    (sepBy1 p (mark ',')).Reads (separated front (a :: as) n) (a :: as) n := by
  refine (hread a List.mem_cons_self _).bind (.bind (Repeats.reads_many ?_) (reads_pure _ _))
  refine repeats_foldr (fun b hb m => reads_mark.bind (hread b (List.mem_cons_of_mem a hb) m))
    (fun b m => ?_) hn.bind
  rw [List.length_cons]
  exact Nat.lt_succ_of_lt (hfront b m)

/-- A list that may be empty is read up to the bracket that closes it. -/
theorem reads_optional_sepBy1 {α : Type} {p : Reader α} {front : α → List Piece → List Piece}
    {as : List α} (hread : ∀ b ∈ as, ∀ m, p.Reads (front b m) b m)
    (hfront : ∀ b m, m.length < (front b m).length)
    (hnone : p.Refuses (.mark ')' :: n)) :
    ∃ o, (optional (sepBy1 p (mark ','))).Reads (separated front as (.mark ')' :: n)) o
      (.mark ')' :: n) ∧ o.getD [] = as := by
  cases as with
  | nil => exact ⟨none, hnone.bind.optional, rfl⟩
  | cons a as =>
      exact ⟨some (a :: as), (reads_sepBy1 hread hfront (refuses_mark rfl (by decide))).optional,
        rfl⟩

/-! ## Words without meaning -/

/-- No flags are taken where none are written. -/
theorem reads_flags (h : (oneOf flagWords).Refuses n) : flags.Reads n () n :=
  h.many.bind (reads_pure _ _)

/-- No attributes of a parameter are taken where none are written. -/
theorem reads_paramAttributes (h : (oneOf paramWords).Refuses n) : paramAttributes.Reads n () n :=
  h.many.bind (reads_pure _ _)

/-- No attributes of a function are taken where none are written. -/
theorem reads_functionAttributes
    (h : (attributeGroup <|> metadata <|> oneOf functionWords).Refuses n) :
    functionAttributes.Reads n () n :=
  h.many.bind (reads_pure _ _)

/-- No flag names a type. -/
theorem TypeText.Clean.refuses_flag {t : TypeText} (h : t.Clean) :
    (oneOf flagWords).Refuses (t.pieces n) :=
  h.refuses_oneOf (by decide)

/-- No attribute of a parameter names a type. -/
theorem TypeText.Clean.refuses_paramWord {t : TypeText} (h : t.Clean) :
    (oneOf paramWords).Refuses (t.pieces n) :=
  h.refuses_oneOf (by decide)

/-- No attribute of a parameter starts an operand. -/
theorem OperandText.refuses_paramWord (o : OperandText) :
    (oneOf paramWords).Refuses (o.piece :: n) := by
  cases o with
  | «local» name => exact (refuses_word rfl rfl).bind
  | global name => exact (refuses_word rfl rfl).bind
  | literal text =>
      -- an attribute is no literal word, and starts with neither a digit nor a sign
      have hletters : ∀ w ∈ paramWords, w.toList.head?.all (fun c => !c.isDigit && c != '-') := by
        decide
      refine refuses_oneOf_literal fun w hw => ⟨?_, fun ⟨c, rest, hc, hnumber⟩ => ?_⟩
      · revert w
        decide
      · have hletter := hletters w hw
        rw [hc, List.head?_cons, Option.all_some, Bool.and_eq_true, Bool.not_eq_true',
          bne_iff_ne] at hletter
        exact hnumber.elim (by simp [hletter.1]) hletter.2

/-- An argument is a typed operand without attributes. -/
theorem reads_argument {t : TypedText} (h : t.ty.Clean) : argument.Reads (t.pieces n) t n :=
  (reads_type h (t.value.refuses_mark rfl (by decide))).bind <|
    (reads_paramAttributes t.value.refuses_paramWord).bind <| t.value.reads.bind <|
    reads_pure _ _

/-! ## Statements -/

/-- The pieces of a statement, in front of `n`. -/
def Statement.pieces : Statement → List Piece → List Piece
  | .binary op lhs rhs, n => .word op.name :: lhs.pieces (.mark ',' :: rhs.piece :: n)
  | .compare (.int predicate) lhs rhs, n =>
    .word "icmp" :: .word predicate.name :: lhs.pieces (.mark ',' :: rhs.piece :: n)
  | .compare (.float predicate) lhs rhs, n =>
    .word "fcmp" :: .word predicate.name :: lhs.pieces (.mark ',' :: rhs.piece :: n)
  | .load ty address, n => .word "load" :: ty.pieces (.mark ',' :: address.pieces n)
  | .store value address, n => .word "store" :: value.pieces (.mark ',' :: address.pieces n)
  | .elementPtr source base indices, n =>
    .word "getelementptr" :: source.pieces (.mark ',' ::
      base.pieces (indices.foldr (fun t m => .mark ',' :: t.pieces m) n))
  | .cast op value target, n => .word op.name :: value.pieces (.word "to" :: target.pieces n)
  | .phi ty arms, n => .word "phi" :: ty.pieces (separated ArmText.pieces arms n)
  | .select cond onTrue onFalse, n =>
    .word "select" :: cond.pieces (.mark ',' :: onTrue.pieces (.mark ',' :: onFalse.pieces n))
  | .call retTy callee args, n =>
    .word "call" :: retTy.pieces (callee.piece :: .mark '(' ::
      separated TypedText.pieces args (.mark ')' :: n))
  | .alloca ty none, n => .word "alloca" :: ty.pieces n
  | .alloca ty (some count), n => .word "alloca" :: ty.pieces (.mark ',' :: count.pieces n)
  | .jump target, n => .word "br" :: .word "label" :: .value target :: n
  | .branch cond onTrue onFalse, n =>
    .word "br" :: cond.pieces (.mark ',' :: .word "label" :: .value onTrue :: .mark ',' ::
      .word "label" :: .value onFalse :: n)
  | .ret none, n => .word "ret" :: .word "void" :: n
  | .ret (some value), n => .word "ret" :: value.pieces n
  | .unreachable, n => .word "unreachable" :: n

/-- The types written in a statement. -/
def Statement.types : Statement → List TypeText
  | .binary _ lhs _ | .compare _ lhs _ => [lhs.ty]
  | .load ty address => [ty, address.ty]
  | .store value address => [value.ty, address.ty]
  | .elementPtr source base indices => source :: base.ty :: indices.map (·.ty)
  | .cast _ value target => [value.ty, target]
  | .phi ty _ => [ty]
  | .select cond onTrue onFalse => [cond.ty, onTrue.ty, onFalse.ty]
  | .call retTy _ args => retTy :: args.map (·.ty)
  | .alloca ty count => ty :: count.toList.map (·.ty)
  | .branch cond _ _ => [cond.ty]
  | .ret value => value.toList.map (·.ty)
  | .jump _ | .unreachable => []

/-- Whether a statement is a call, the one form that may have attributes at its end. -/
def Statement.isCall : Statement → Bool
  | .call _ _ _ => true
  | _ => false

/-- A statement that has a written form of its own. -/
structure Statement.Clean (t : Statement) : Prop where
  /-- The types are clean. -/
  types : ∀ ty ∈ t.types, ty.Clean
  /-- A phi has an arm. -/
  armed : t.Armed
  /-- The type of a returned value does not read as a return without one. -/
  returned : ∀ v, t = .ret (some v) → v.ty.startsVoid = false

/-- What may stand behind a statement: nothing that would go on with it. -/
structure Statement.EndsBefore (t : Statement) (n : List Piece) : Prop where
  /-- No star, which would go on with a type. -/
  star : (mark '*').Refuses n
  /-- No comma, which would go on with a list. -/
  comma : (mark ',').Refuses n
  /-- No attribute behind a call. -/
  attributes : t.isCall = true → (attributeGroup <|> metadata <|> oneOf functionWords).Refuses n

/-- The forms of a statement, each with the words that can open it. -/
def forms : List (List String × Reader Statement) :=
  [(BinaryOp.all.map (·.name), binary), (["icmp"], intCompare), (["fcmp"], floatCompare),
    (["load"], load), (["store"], store), (["getelementptr"], elementPtr),
    (CastOp.all.map (·.name), cast), (["phi"], phi), (["select"], select),
    ("call" :: flagWords, call), (["alloca"], alloca), (["br"], jump), (["br"], branch),
    (["ret"], retVoid), (["ret"], retValue), (["unreachable"], unreachable)]

/-- A statement is the first form that can be read. -/
theorem statement_apply (s : List Char) : statement s = forms.findSome? fun f => f.2 s := by
  simp only [statement, orElse_apply, forms, List.findSome?_cons, List.findSome?_nil]
  repeat' split
  all_goals simp_all

/-- The first form that does not refuse a text reads it. -/
theorem reads_firstForm {t n : List Piece} {a : Statement}
    {k l : List (List String × Reader Statement)} {f : List String × Reader Statement}
    (hforms : forms = k ++ f :: l) (hearlier : ∀ e ∈ k, e.2.Refuses t) (hread : f.2.Reads t a n) :
    statement.Reads t a n := by
  intro s hs
  obtain ⟨rest, hf, hrest⟩ := hread s hs
  refine ⟨rest, ?_, hrest⟩
  have hnone : k.findSome? (fun e => e.2 s) = none :=
    List.findSome?_eq_none_iff.mpr fun e he => hearlier e he s hs
  rw [statement_apply, hforms, List.findSome?_append, hnone, List.findSome?_cons, hf]
  rfl

/-- A statement fails where every form fails. -/
theorem refuses_statement {t : List Piece} (h : ∀ f ∈ forms, f.2.Refuses t) :
    statement.Refuses t := by
  intro s hs
  rw [statement_apply]
  exact List.findSome?_eq_none_iff.mpr fun f hf => h f hf s hs

/-- A form of a statement starts with one of `words`, and goes on with no colon. -/
structure OpensWith (words : List String) (p : Reader Statement) : Prop where
  /-- Another word does not open it. -/
  word : ∀ {w n}, w ∉ words → p.Refuses (.word w :: n)
  /-- What is no word does not open it. -/
  sign : ∀ {x c n}, x.sign? = some c → Symbol.isNameChar c = false → p.Refuses (x :: n)
  /-- A bare label does not open it, unless it is the one form that is a single word. -/
  colon : ∀ {w n}, w ≠ "unreachable" → p.Refuses (.word w :: .mark ':' :: n)

/-- A form behind a keyword opens with the keyword. -/
theorem opensWith_keyword {w : String} {k : Unit → Reader Statement}
    (hk : w ≠ "unreachable" → ∀ n, (k ()).Refuses (.mark ':' :: n)) :
    OpensWith [w] (keyword w >>= k) where
  word hv := (refuses_keyword (List.mem_singleton.not.mp hv)).bind
  sign hx hc := (refuses_word hx hc).bind.bind
  colon {v n} hv := by
    by_cases hvw : v = w
    · subst hvw
      exact reads_keyword.bind_refuses (hk hv n)
    · exact (refuses_keyword hvw).bind

/-- A form behind one of several words opens with those words. -/
theorem opensWith_lookup {α : Type} {all : List α} {name : α → String} {k : α → Reader Statement}
    (hk : ∀ a n, (k a).Refuses (.mark ':' :: n)) :
    OpensWith (all.map name) (lookup (fun text => all.find? (name · == text)) >>= k) where
  word hw := by
    refine Refuses.bind (refuses_lookup (List.find?_eq_none.mpr fun a ha hname => hw ?_))
    rw [← beq_iff_eq.mp hname]
    exact List.mem_map_of_mem ha
  sign hx hc := (refuses_word hx hc).bind.bind
  colon {w n} _ := by
    cases hfind : all.find? (name · == w) with
    | none => exact (refuses_lookup hfind).bind
    | some a => exact Reads.bind_refuses (reads_lookup hfind) (hk a n)

/-- A colon is no word. -/
theorem refuses_word_colon : word.Refuses (.mark ':' :: n) := refuses_word rfl rfl

/-- No flags are taken in front of a colon. -/
theorem reads_flags_colon : flags.Reads (.mark ':' :: n) () (.mark ':' :: n) :=
  reads_flags refuses_word_colon.bind

/-- A colon is no type. -/
theorem refuses_type_colon : type.Refuses (.mark ':' :: n) := refuses_type rfl (by decide)

/-- Flags before the opcode are part of a call. -/
theorem opensWith_call : OpensWith ("call" :: flagWords) call where
  word {w n} hw := by
    obtain ⟨hcall, hflag⟩ := not_or.mp (List.mem_cons.not.mp hw)
    exact (reads_flags (refuses_oneOf hflag)).bind_refuses (refuses_keyword hcall).bind
  sign hx hc := (reads_flags (refuses_word hx hc).bind).bind_refuses (refuses_word hx hc).bind.bind
  colon {w n} _ := by
    by_cases hflag : w ∈ flagWords
    · have hflags : flags.Reads (.word w :: .mark ':' :: n) () (.mark ':' :: n) :=
        (Repeats.next (reads_oneOf hflag) (Nat.lt_succ_self _)
          (.stop refuses_word_colon.bind)).reads_many.bind (reads_pure _ _)
      exact hflags.bind_refuses refuses_word_colon.bind.bind
    · refine (reads_flags (refuses_oneOf hflag)).bind_refuses ?_
      by_cases hcall : w = "call"
      · subst hcall
        exact reads_keyword.bind_refuses <| reads_flags_colon.bind_refuses <|
          (reads_paramAttributes refuses_word_colon.bind).bind_refuses refuses_type_colon.bind
      · exact (refuses_keyword hcall).bind

/-- Each form opens with one of the words it is listed with. -/
theorem opensWith_of_mem_forms {f : List String × Reader Statement} (hf : f ∈ forms) :
    OpensWith f.1 f.2 := by
  have htype : ∀ {α : Type} {k : TypeText → Reader α} (n : List Piece),
      (do flags; let ty ← type; k ty).Refuses (.mark ':' :: n) :=
    fun n => reads_flags_colon.bind_refuses refuses_type_colon.bind
  have htyped : ∀ {α : Type} {k : TypedText → Reader α} (n : List Piece),
      (do flags; let t ← typed; k t).Refuses (.mark ':' :: n) :=
    fun n => reads_flags_colon.bind_refuses refuses_type_colon.bind.bind
  have hword : ∀ {α β : Type} {m : String → Option α} {k : α → Reader β} (n : List Piece),
      (do flags; let a ← lookup m; k a).Refuses (.mark ':' :: n) :=
    fun n => reads_flags_colon.bind_refuses refuses_word_colon.bind.bind
  simp only [forms, List.mem_cons, List.not_mem_nil, or_false] at hf
  rcases hf with rfl | rfl | rfl | rfl | rfl | rfl | rfl | rfl | rfl | rfl | rfl | rfl | rfl | rfl |
    rfl | rfl
  · exact opensWith_lookup fun _ n => reads_flags_colon.bind_refuses refuses_type_colon.bind.bind
  · exact opensWith_keyword fun _ => hword
  · exact opensWith_keyword fun _ => hword
  · exact opensWith_keyword fun _ => htype
  · exact opensWith_keyword fun _ => htyped
  · exact opensWith_keyword fun _ => htype
  · exact opensWith_lookup fun _ => htyped
  · exact opensWith_keyword fun _ => htype
  · exact opensWith_keyword fun _ => htyped
  · exact opensWith_call
  · exact opensWith_keyword fun _ _ => refuses_type_colon.bind
  · exact opensWith_keyword fun _ _ => refuses_word_colon.bind.bind.bind
  · exact opensWith_keyword fun _ _ => refuses_type_colon.bind.bind
  · exact opensWith_keyword fun _ _ => refuses_word_colon.bind.bind
  · exact opensWith_keyword fun _ _ => refuses_type_colon.bind.bind
  · exact opensWith_keyword fun h => absurd rfl h

/-- The forms before one are refused on a word that opens none of them. -/
theorem refuses_earlier {t : List Piece} {w : String} {k : Nat}
    (hw : ∀ words ∈ (forms.map (·.1)).take k, w ∉ words) :
    ∀ e ∈ forms.take k, e.2.Refuses (.word w :: t) := by
  intro e he
  refine (opensWith_of_mem_forms (List.mem_of_mem_take he)).word (hw e.1 ?_)
  rw [← List.map_take]
  exact List.mem_map_of_mem he

section

variable {t : List Piece} {w : String} {a : Statement} {f : List String × Reader Statement}

/-- A text that starts with `w` is read by the first form that `w` can open. -/
theorem reads_opened (k : Nat) (hf : forms[k]? = some f)
    (hw : ∀ words ∈ (forms.map (·.1)).take k, w ∉ words) (hread : f.2.Reads (.word w :: t) a n) :
    statement.Reads (.word w :: t) a n := by
  obtain ⟨hk, hfk⟩ := List.getElem?_eq_some_iff.mp hf
  refine reads_firstForm (k := forms.take k) (l := forms.drop (k + 1)) ?_
    (refuses_earlier hw) hread
  rw [← hfk, List.getElem_cons_drop, List.take_append_drop]

/-- Where two forms open with `w`, the second reads what the first refuses. -/
theorem reads_opened_second (k : Nat) {e : List String × Reader Statement}
    (he : forms[k]? = some e) (hf : forms[k + 1]? = some f)
    (hw : ∀ words ∈ (forms.map (·.1)).take k, w ∉ words) (hrefuse : e.2.Refuses (.word w :: t))
    (hread : f.2.Reads (.word w :: t) a n) : statement.Reads (.word w :: t) a n := by
  obtain ⟨hk, hfk⟩ := List.getElem?_eq_some_iff.mp hf
  refine reads_firstForm (k := forms.take (k + 1)) (l := forms.drop (k + 2)) ?_ ?_ hread
  · rw [← hfk, List.getElem_cons_drop, List.take_append_drop]
  · intro e' he'
    rw [List.take_add_one, he] at he'
    rcases List.mem_append.mp he' with he' | he'
    · exact refuses_earlier hw e' he'
    · rw [Option.toList_some, List.mem_singleton] at he'
      rwa [he']

end

theorem ofName?_name_binaryOp (op : BinaryOp) : BinaryOp.ofName? op.name = some op := by
  cases op <;> rfl

theorem ofName?_name_intPredicate (p : IntPredicate) : IntPredicate.ofName? p.name = some p := by
  cases p <;> rfl

theorem ofName?_name_floatPredicate (p : FloatPredicate) :
    FloatPredicate.ofName? p.name = some p := by
  cases p <;> rfl

theorem ofName?_name_castOp (op : CastOp) : CastOp.ofName? op.name = some op := by
  cases op <;> rfl

/-! ### Each form is read back -/

section Forms

variable {ty target : TypeText} {lhs base value address cond onTrue onFalse : TypedText}
  {rhs : OperandText} {callee : CalleeText} {l indices args : List TypedText}
  {arms : List ArmText}

/-- Types that stand behind operands in a list are clean. -/
theorem clean_of_map (h : ∀ u ∈ l.map (·.ty), u.Clean) : ∀ t ∈ l, t.ty.Clean :=
  fun _ ht => h _ (List.mem_map_of_mem ht)

theorem reads_binary {op : BinaryOp} (h : (Statement.binary op lhs rhs).Clean) :
    binary.Reads ((Statement.binary op lhs rhs).pieces n) (.binary op lhs rhs) n := by
  have hlhs := h.types lhs.ty (by simp [Statement.types])
  exact .bind (reads_lookup (ofName?_name_binaryOp op)) <|
    (reads_flags hlhs.refuses_flag).bind <| (reads_typed hlhs).bind <| reads_mark.bind <|
    rhs.reads.bind <| reads_pure _ _

/-- The operands of a comparison, which follow its test. -/
theorem reads_operandPair (h : lhs.ty.Clean) (build : TypedText → OperandText → Statement) :
    (operandPair build).Reads (lhs.pieces (.mark ',' :: rhs.piece :: n)) (build lhs rhs) n :=
  (reads_typed h).bind <| reads_mark.bind <| rhs.reads.bind <| reads_pure _ _

theorem reads_intCompare {p : IntPredicate} (h : (Statement.compare (.int p) lhs rhs).Clean) :
    intCompare.Reads ((Statement.compare (.int p) lhs rhs).pieces n)
      (.compare (.int p) lhs rhs) n := by
  have hlhs := h.types lhs.ty (by simp [Statement.types])
  refine reads_keyword.bind <| (reads_flags (refuses_oneOf ?_)).bind <|
    .bind (reads_lookup (ofName?_name_intPredicate p)) (reads_operandPair hlhs _)
  cases p <;> decide

theorem reads_floatCompare {p : FloatPredicate}
    (h : (Statement.compare (.float p) lhs rhs).Clean) :
    floatCompare.Reads ((Statement.compare (.float p) lhs rhs).pieces n)
      (.compare (.float p) lhs rhs) n := by
  have hlhs := h.types lhs.ty (by simp [Statement.types])
  refine reads_keyword.bind <| (reads_flags (refuses_oneOf ?_)).bind <|
    .bind (reads_lookup (ofName?_name_floatPredicate p)) (reads_operandPair hlhs _)
  cases p <;> decide

theorem reads_load (h : (Statement.load ty address).Clean) :
    load.Reads ((Statement.load ty address).pieces n) (.load ty address) n := by
  have hty := h.types ty (by simp [Statement.types])
  have haddress := h.types address.ty (by simp [Statement.types])
  exact reads_keyword.bind <| (reads_flags hty.refuses_flag).bind <|
    (reads_type hty (refuses_mark rfl (by decide))).bind <| (reads_nextTyped haddress).bind <|
    reads_pure _ _

theorem reads_store (h : (Statement.store value address).Clean) :
    store.Reads ((Statement.store value address).pieces n) (.store value address) n := by
  have hvalue := h.types value.ty (by simp [Statement.types])
  have haddress := h.types address.ty (by simp [Statement.types])
  exact reads_keyword.bind <| (reads_flags hvalue.refuses_flag).bind <|
    (reads_typed hvalue).bind <| (reads_nextTyped haddress).bind <| reads_pure _ _

/-- The indices of an address computation are read up to what is no comma. -/
theorem reads_elementPtr (h : (Statement.elementPtr ty base indices).Clean)
    (hn : (mark ',').Refuses n) :
    elementPtr.Reads ((Statement.elementPtr ty base indices).pieces n)
      (.elementPtr ty base indices) n := by
  have hty := h.types ty (by simp [Statement.types])
  have hbase := h.types base.ty (by simp [Statement.types])
  have hindices := clean_of_map (l := indices) fun u hu => h.types u (by simp [Statement.types, hu])
  refine reads_keyword.bind <| (reads_flags hty.refuses_flag).bind <|
    (reads_type hty (refuses_mark rfl (by decide))).bind <| (reads_nextTyped hbase).bind <|
    .bind (repeats_foldr (fun t ht m => reads_nextTyped (hindices t ht)) (fun t m => ?_)
      hn.bind).reads_many <| reads_pure _ _
  exact Nat.lt_succ_of_lt (t.length_pieces m)

/-- The target of a conversion is read up to what is no star. -/
theorem reads_cast {op : CastOp} (h : (Statement.cast op value target).Clean)
    (hn : (mark '*').Refuses n) :
    cast.Reads ((Statement.cast op value target).pieces n) (.cast op value target) n := by
  have hvalue := h.types value.ty (by simp [Statement.types])
  have htarget := h.types target (by simp [Statement.types])
  exact .bind (reads_lookup (ofName?_name_castOp op)) <|
    (reads_flags hvalue.refuses_flag).bind <| (reads_typed hvalue).bind <|
    reads_keyword.bind <| (reads_type htarget hn).bind <| reads_pure _ _

/-- The arms of a phi are read up to what is no comma. -/
theorem reads_phi (h : (Statement.phi ty arms).Clean) (hn : (mark ',').Refuses n) :
    phi.Reads ((Statement.phi ty arms).pieces n) (.phi ty arms) n := by
  have hty := h.types ty (by simp [Statement.types])
  cases arms with
  | nil => exact absurd rfl (h.armed ty)
  | cons a arms =>
      exact reads_keyword.bind <| (reads_flags hty.refuses_flag).bind <|
        (reads_type hty (refuses_mark rfl (by decide))).bind <|
        .bind (reads_sepBy1 (fun _ _ _ => reads_arm) ArmText.length_pieces hn) <| reads_pure _ _

theorem reads_select (h : (Statement.select cond onTrue onFalse).Clean) :
    select.Reads ((Statement.select cond onTrue onFalse).pieces n)
      (.select cond onTrue onFalse) n := by
  have hcond := h.types cond.ty (by simp [Statement.types])
  have htrue := h.types onTrue.ty (by simp [Statement.types])
  have hfalse := h.types onFalse.ty (by simp [Statement.types])
  exact reads_keyword.bind <| (reads_flags hcond.refuses_flag).bind <|
    (reads_typed hcond).bind <| (reads_nextTyped htrue).bind <| (reads_nextTyped hfalse).bind <|
    reads_pure _ _

/-- A call is read up to what is no attribute. -/
theorem reads_call (h : (Statement.call ty callee args).Clean)
    (hn : (attributeGroup <|> metadata <|> oneOf functionWords).Refuses n) :
    call.Reads ((Statement.call ty callee args).pieces n) (.call ty callee args) n := by
  have hret := h.types ty (by simp [Statement.types])
  have hargs := clean_of_map (l := args) fun u hu => h.types u (by simp [Statement.types, hu])
  obtain ⟨o, hoptional, ho⟩ := reads_optional_sepBy1 (p := argument) (n := n)
    (fun t ht m => reads_argument (hargs t ht)) TypedText.length_pieces
    (refuses_type rfl (by decide)).bind
  refine (reads_flags (refuses_oneOf (by decide))).bind <| reads_keyword.bind <|
    (reads_flags hret.refuses_flag).bind <|
    (reads_paramAttributes hret.refuses_paramWord).bind <|
    (reads_type hret callee.refuses_star).bind <| (reads_callee callee).bind <|
    reads_mark.bind <| hoptional.bind <| reads_mark.bind <|
    (reads_functionAttributes hn).bind ?_
  rw [ho]
  exact reads_pure _ _

/-- A reservation of memory is read up to what is neither a star nor a comma. -/
theorem reads_alloca {count : Option TypedText} (h : (Statement.alloca ty count).Clean)
    (hstar : (mark '*').Refuses n) (hcomma : (mark ',').Refuses n) :
    alloca.Reads ((Statement.alloca ty count).pieces n) (.alloca ty count) n := by
  have hty := h.types ty (by simp [Statement.types])
  cases count with
  | none =>
      exact reads_keyword.bind <| (reads_type hty hstar).bind <|
        hcomma.bind.optional.bind <| reads_pure _ _
  | some count =>
      have hcount := h.types count.ty (by simp [Statement.types])
      exact reads_keyword.bind <| (reads_type hty (refuses_mark rfl (by decide))).bind <|
        (reads_nextTyped hcount).optional.bind <| reads_pure _ _

theorem reads_jump {label : String} :
    jump.Reads ((Statement.jump label).pieces n) (.jump label) n :=
  reads_keyword.bind <| reads_target.bind <| reads_pure _ _

/-- A condition is no label, so a branch to two labels is no branch to one. -/
theorem refuses_jump_branch {yes no : String} (h : (Statement.branch cond yes no).Clean) :
    jump.Refuses ((Statement.branch cond yes no).pieces n) :=
  have hcond := h.types cond.ty (by simp [Statement.types])
  reads_keyword.bind_refuses (hcond.refuses_keyword (by decide)).bind.bind

theorem reads_branch {yes no : String} (h : (Statement.branch cond yes no).Clean) :
    branch.Reads ((Statement.branch cond yes no).pieces n) (.branch cond yes no) n := by
  have hcond := h.types cond.ty (by simp [Statement.types])
  exact reads_keyword.bind <| (reads_typed hcond).bind <| reads_mark.bind <|
    reads_target.bind <| reads_mark.bind <| reads_target.bind <| reads_pure _ _

theorem reads_retVoid : retVoid.Reads ((Statement.ret none).pieces n) (.ret none) n :=
  reads_keyword.bind <| reads_keyword.bind <| reads_pure _ _

/-- A returned value does not start with the word `void`. -/
theorem refuses_retVoid_ret (h : (Statement.ret (some value)).Clean) :
    retVoid.Refuses ((Statement.ret (some value)).pieces n) :=
  have hvalue := h.types value.ty (by simp [Statement.types])
  reads_keyword.bind_refuses (hvalue.refuses_void (h.returned value rfl)).bind

theorem reads_retValue (h : (Statement.ret (some value)).Clean) :
    retValue.Reads ((Statement.ret (some value)).pieces n) (.ret (some value)) n := by
  have hvalue := h.types value.ty (by simp [Statement.types])
  exact reads_keyword.bind <| (reads_typed hvalue).bind <| reads_pure _ _

end Forms

/-- A clean statement is read back in front of what does not go on with it: by its own form, because
no earlier form opens with its first word or because that form refuses the rest. -/
theorem reads_statement {t : Statement} (h : t.Clean) (hn : t.EndsBefore n) :
    statement.Reads (t.pieces n) t n := by
  cases t with
  | binary op => exact reads_opened 0 rfl (by simp) (reads_binary h)
  | compare test =>
      cases test with
      | int p => exact reads_opened 1 rfl (by decide) (reads_intCompare h)
      | float p => exact reads_opened 2 rfl (by decide) (reads_floatCompare h)
  | load => exact reads_opened 3 rfl (by decide) (reads_load h)
  | store => exact reads_opened 4 rfl (by decide) (reads_store h)
  | elementPtr => exact reads_opened 5 rfl (by decide) (reads_elementPtr h hn.comma)
  | cast op => exact reads_opened 6 rfl (by cases op <;> decide) (reads_cast h hn.star)
  | phi => exact reads_opened 7 rfl (by decide) (reads_phi h hn.comma)
  | select => exact reads_opened 8 rfl (by decide) (reads_select h)
  | call => exact reads_opened 9 rfl (by decide) (reads_call h (hn.attributes rfl))
  | alloca ty count =>
      have hread := reads_alloca h hn.star hn.comma
      cases count <;> exact reads_opened 10 rfl (by decide) hread
  | jump => exact reads_opened 11 rfl (by decide) reads_jump
  | branch =>
      exact reads_opened_second 11 rfl rfl (by decide) (refuses_jump_branch h) (reads_branch h)
  | ret value =>
      cases value with
      | none => exact reads_opened 13 rfl (by decide) reads_retVoid
      | some value =>
          exact reads_opened_second 13 rfl rfl (by decide) (refuses_retVoid_ret h)
            (reads_retValue h)
  | unreachable =>
      exact reads_opened 15 rfl (by decide) (reads_keyword.bind (reads_pure _ _))

/-- A statement starts with a word that is no attribute. -/
theorem Statement.head (t : Statement) (n : List Piece) :
    ∃ w m, t.pieces n = .word w :: m ∧ w ∉ functionWords := by
  cases t with
  | binary op lhs rhs => exact ⟨op.name, _, rfl, by cases op <;> decide⟩
  | cast op value target => exact ⟨op.name, _, rfl, by cases op <;> decide⟩
  | compare test lhs rhs => cases test <;> exact ⟨_, _, rfl, by decide⟩
  | alloca ty count => cases count <;> exact ⟨_, _, rfl, by decide⟩
  | ret value => cases value <;> exact ⟨_, _, rfl, by decide⟩
  | _ => exact ⟨_, _, rfl, by decide⟩

/-! ### Pieces take room -/

/-- One more piece in front leaves no fewer. -/
theorem le_cons {x : Piece} {m : List Piece} (h : n.length ≤ m.length) :
    n.length ≤ (x :: m).length :=
  Nat.le_succ_of_le h

/-- A type adds pieces to those behind it. -/
theorem TypeText.le_pieces (t : TypeText) {m : List Piece} (h : n.length ≤ m.length) :
    n.length ≤ (t.pieces m).length :=
  Nat.le_trans h (Nat.le_of_lt (t.length_pieces m))

/-- A typed operand adds pieces to those behind it. -/
theorem TypedText.le_pieces (t : TypedText) {m : List Piece} (h : n.length ≤ m.length) :
    n.length ≤ (t.pieces m).length :=
  Nat.le_trans h (Nat.le_of_lt (t.length_pieces m))

/-- A list of what adds pieces adds pieces. -/
theorem length_foldr {α : Type} {g : α → List Piece → List Piece}
    (hfront : ∀ a m, m.length ≤ (g a m).length) (as : List α) (n : List Piece) :
    n.length ≤ (as.foldr g n).length := by
  induction as with
  | nil => exact Nat.le_refl _
  | cons a as ih => exact Nat.le_trans ih (hfront a _)

/-- A separated list of what adds pieces adds pieces. -/
theorem length_separated {α : Type} {g : α → List Piece → List Piece}
    (hfront : ∀ a m, m.length < (g a m).length) (as : List α) (n : List Piece) :
    n.length ≤ (separated g as n).length := by
  cases as with
  | nil => exact Nat.le_refl _
  | cons a as =>
      have hrest := length_foldr (g := fun a m => .mark ',' :: g a m)
        (fun a m => le_cons (Nat.le_of_lt (hfront a m))) as n
      exact Nat.le_trans hrest (Nat.le_of_lt (hfront a _))

/-- A statement takes at least one piece: its first word. -/
theorem Statement.length_pieces (t : Statement) (n : List Piece) :
    n.length < (t.pieces n).length := by
  have hn : n.length ≤ n.length := Nat.le_refl _
  cases t with
  | binary op lhs rhs => exact Nat.lt_succ_of_le (lhs.le_pieces (le_cons (le_cons hn)))
  | compare test lhs rhs =>
      cases test <;> exact Nat.lt_succ_of_le (le_cons (lhs.le_pieces (le_cons (le_cons hn))))
  | load ty address => exact Nat.lt_succ_of_le (ty.le_pieces (le_cons (address.le_pieces hn)))
  | store value address =>
      exact Nat.lt_succ_of_le (value.le_pieces (le_cons (address.le_pieces hn)))
  | elementPtr source base indices =>
      have hindices := length_foldr (g := fun t m => .mark ',' :: TypedText.pieces t m)
        (fun t _ => le_cons (t.le_pieces (Nat.le_refl _))) indices n
      exact Nat.lt_succ_of_le (source.le_pieces (le_cons (base.le_pieces hindices)))
  | cast op value target =>
      exact Nat.lt_succ_of_le (value.le_pieces (le_cons (target.le_pieces hn)))
  | phi ty arms =>
      exact Nat.lt_succ_of_le (ty.le_pieces (length_separated ArmText.length_pieces arms n))
  | select cond onTrue onFalse =>
      exact Nat.lt_succ_of_le (cond.le_pieces (le_cons (onTrue.le_pieces (le_cons
        (onFalse.le_pieces hn)))))
  | call retTy callee args =>
      have hargs := length_separated TypedText.length_pieces args (.mark ')' :: n)
      exact Nat.lt_succ_of_le (retTy.le_pieces (le_cons (le_cons
        (Nat.le_trans (le_cons hn) hargs))))
  | alloca ty count =>
      cases count with
      | none => exact Nat.lt_succ_of_le (ty.le_pieces hn)
      | some count => exact Nat.lt_succ_of_le (ty.le_pieces (le_cons (count.le_pieces hn)))
  | jump target => exact Nat.lt_succ_of_le (le_cons (le_cons hn))
  | branch cond onTrue onFalse =>
      exact Nat.lt_succ_of_le (cond.le_pieces (le_cons (le_cons (le_cons (le_cons (le_cons
        (le_cons hn)))))))
  | ret value =>
      cases value with
      | none => exact Nat.lt_succ_of_le (le_cons hn)
      | some value => exact Nat.lt_succ_of_le (value.le_pieces hn)
  | unreachable => exact Nat.lt_succ_self _

end Surface

end Dataflow
