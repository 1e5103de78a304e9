import Dataflow.Proofs.Text.Literals

/-!
# Texts as pieces

A text that a program writes is a sequence of pieces (words, marks, names, numbers, literals and
labels) with blanks between some of them. `Spells t s` says that text `s` consists of the pieces
`t`. A reader is told by the pieces it takes off the front (`Reader.Reads`) or by those it refuses
(`Reader.Refuses`), with one rule for each way to put readers together and one for each lexeme. What
is built on these rules speaks of pieces and not of characters.
-/

namespace Dataflow

namespace Lexeme

open Reader

/-! ## Pieces -/

/-- A piece of a text. -/
inductive Piece where
  /-- A word. -/
  | word (text : String)
  /-- A punctuation mark. -/
  | mark (c : Char)
  /-- The name of a value or a block after its sigil. -/
  | value (name : String)
  /-- The name of a function or a global after its sigil. -/
  | global (name : String)
  /-- The length of an array or a vector. -/
  | number (digits : String)
  /-- A literal. -/
  | literal (text : String)
  /-- The name of a block with the colon behind it. -/
  | label (name : String)
deriving DecidableEq, Repr

/-- A word: it has a character, and all of them may stand in a bare name. -/
def IsWord (text : String) : Prop := text.toList ≠ [] ∧ text.toList.all Symbol.isNameChar = true

/-- Whether a text is a word is decided by its characters. -/
instance (text : String) : Decidable (IsWord text) := inferInstanceAs (Decidable (_ ∧ _))

/-- A name that has a written form: it has a character and no double quote. -/
def IsName (name : String) : Prop := name.toList ≠ [] ∧ '"' ∉ name.toList

/-- Whether a text is a name is decided by its characters. -/
instance (name : String) : Decidable (IsName name) := inferInstanceAs (Decidable (_ ∧ _))

/-- A number without a sign. -/
def IsNumber (digits : String) : Prop :=
  digits.toList ≠ [] ∧ digits.toList.all Char.isDigit = true

namespace Piece

/-- The characters of a piece. -/
def spelling : Piece → List Char
  | word text => text.toList
  | mark c => [c]
  | value name => '%' :: (Symbol.text name).toList
  | global name => '@' :: (Symbol.text name).toList
  | number digits => digits.toList
  | literal text => text.toList
  | label name => (Symbol.text name).toList ++ [':']

/-- Whether a piece is what it says. -/
def Valid : Piece → Prop
  | word text => IsWord text
  | mark c => isBlank c = false ∧ c ≠ ';'
  | value name | global name | label name => IsName name
  | number digits => IsNumber digits
  | literal text => IsLiteral text

/-- Whether a piece ends in front of `rest`. -/
def Ends : Piece → List Char → Prop
  | mark _, _ | label _, _ => True
  | _, rest => Breaks rest

/-- The character that a piece starts with, where it is no character of a name. -/
def sign? : Piece → Option Char
  | mark c => some c
  | value _ => some '%'
  | global _ => some '@'
  | label name => if name.toList.all Symbol.isNameChar then none else some '"'
  | word _ | number _ | literal _ => none

end Piece

/-- Text `s` consists of the pieces `t`. -/
inductive Spells : List Piece → List Char → Prop where
  | nil {s : List Char} : skip false s = [] → Spells [] s
  | cons {x : Piece} {t : List Piece} {s r : List Char} : x.Valid →
      skip false s = x.spelling ++ r → x.Ends r → Spells t r → Spells (x :: t) s

/-! ## Blanks -/

variable {x : Piece} {t n : List Piece} {s rest : List Char} {c d : Char}
variable {w v name text : String} {α β : Type}

/-- Nothing is skipped in front of a character that is neither blank nor starts a comment. -/
theorem skip_cons (hblank : isBlank c = false) (hcomment : c ≠ ';') (s : List Char) :
    skip false (c :: s) = c :: s := by
  simp [skip, hblank, hcomment]

/-- A blank in front is skipped. -/
theorem skip_blank (hblank : isBlank c = true) (s : List Char) :
    skip false (c :: s) = skip false s := by
  simp [skip, hblank]

/-- Skipping makes no text longer. -/
theorem length_skip_le (inComment : Bool) (s : List Char) :
    (skip inComment s).length ≤ s.length := by
  induction s generalizing inComment with
  | nil => simp [skip]
  | cons c s ih =>
      rw [skip]
      split
      · exact Nat.le_succ_of_le (ih _)
      · split
        · exact Nat.le_succ_of_le (ih _)
        · split
          · exact Nat.le_succ_of_le (ih _)
          · exact Nat.le_refl _

/-- A character that may stand in a name is no blank, opens no comment and is no quote. -/
theorem not_blank_of_isNameChar (hc : Symbol.isNameChar c = true) :
    isBlank c = false ∧ c ≠ ';' ∧ c ≠ '"' := by
  refine ⟨?_, ?_, ?_⟩
  · by_contra hblank
    simp only [isBlank, Bool.not_eq_false, Bool.or_eq_true, beq_iff_eq] at hblank
    rcases hblank with ((rfl | rfl) | rfl) | rfl <;> exact absurd hc (by decide)
  · rintro rfl
    exact absurd hc (by decide)
  · rintro rfl
    exact absurd hc (by decide)

/-! ## How pieces start -/

/-- A word starts with a character of a name. -/
theorem IsWord.head (h : IsWord w) :
    ∃ c rest, w.toList = c :: rest ∧ Symbol.isNameChar c = true := by
  obtain ⟨c, rest, hc⟩ := List.exists_cons_of_ne_nil h.1
  exact ⟨c, rest, hc, List.all_eq_true.mp h.2 c (hc ▸ List.mem_cons_self)⟩

/-- Digits are characters of a word. -/
theorem IsNumber.isWord (h : IsNumber w) : IsWord w :=
  ⟨h.1, List.all_eq_true.mpr fun c hc => isNameChar_of_isDigit (List.all_eq_true.mp h.2 c hc)⟩

/-- A plain name is written as it is. -/
theorem toList_text_bare (h : name.toList.all Symbol.isNameChar = true) :
    (Symbol.text name).toList = name.toList := by
  rw [Symbol.text, if_pos h]

/-- Any other name is written in quotes. -/
theorem toList_text_quoted (h : ¬ name.toList.all Symbol.isNameChar = true) :
    (Symbol.text name).toList = '"' :: (name.toList ++ ['"']) := by
  rw [Symbol.text, if_neg h, String.toList_append, String.toList_append]
  rfl

namespace Piece

/-- A piece starts with its sign, or with a character of a name. -/
theorem Valid.head (h : x.Valid) : ∃ c rest, x.spelling = c :: rest ∧
    (x.sign? = some c ∨ x.sign? = none ∧ Symbol.isNameChar c = true) := by
  cases x with
  | word text =>
      obtain ⟨c, rest, hc, hname⟩ := h.head
      exact ⟨c, rest, hc, Or.inr ⟨rfl, hname⟩⟩
  | mark c => exact ⟨c, [], rfl, Or.inl rfl⟩
  | value name => exact ⟨'%', _, rfl, Or.inl rfl⟩
  | global name => exact ⟨'@', _, rfl, Or.inl rfl⟩
  | number digits =>
      obtain ⟨c, rest, hc, hname⟩ := IsWord.head h.isWord
      exact ⟨c, rest, hc, Or.inr ⟨rfl, hname⟩⟩
  | literal text =>
      obtain ⟨c, rest, hc, hname⟩ := IsLiteral.head h
      exact ⟨c, rest, hc, Or.inr ⟨rfl, hname⟩⟩
  | label name =>
      by_cases hbare : name.toList.all Symbol.isNameChar = true
      · obtain ⟨c, rest, hc, hname⟩ := IsWord.head ⟨h.1, hbare⟩
        refine ⟨c, rest ++ [':'], ?_, Or.inr ⟨if_pos hbare, hname⟩⟩
        rw [spelling, toList_text_bare hbare, hc, List.cons_append]
      · refine ⟨'"', name.toList ++ ['"'] ++ [':'], ?_, Or.inl (if_neg hbare)⟩
        rw [spelling, toList_text_quoted hbare, List.cons_append]

/-- No piece starts with a blank or a comment. -/
theorem Valid.skip (h : x.Valid) (rest : List Char) :
    skip false (x.spelling ++ rest) = x.spelling ++ rest := by
  obtain ⟨c, tail, hc, hsign | ⟨_, hname⟩⟩ := h.head
  · rw [hc, List.cons_append]
    have hsolid : isBlank c = false ∧ c ≠ ';' := by
      cases x with
      | mark d =>
          cases hsign
          exact h
      | value name | global name =>
          cases hsign
          decide
      | label name =>
          rw [sign?] at hsign
          split at hsign <;> cases hsign
          decide
      | word text | number digits | literal text => cases hsign
    exact skip_cons hsolid.1 hsolid.2 _
  · rw [hc, List.cons_append]
    obtain ⟨hblank, hcomment, _⟩ := not_blank_of_isNameChar hname
    exact skip_cons hblank hcomment _

end Piece

/-! ## Writing pieces -/

/-- Blanks do not count. -/
theorem Spells.blank (hblank : isBlank c = true) (h : Spells t s) : Spells t (c :: s) := by
  cases h with
  | nil hs => exact .nil ((skip_blank hblank s).trans hs)
  | cons hx hs hend hrest => exact .cons hx ((skip_blank hblank s).trans hs) hend hrest

/-- A piece in front of a text. -/
theorem Spells.piece (hx : x.Valid) (hend : x.Ends s) (h : Spells t s) :
    Spells (x :: t) (x.spelling ++ s) :=
  .cons hx (hx.skip s) hend h

/-- Every piece takes a character. -/
theorem Spells.length_le (h : Spells t s) : t.length ≤ s.length := by
  induction h with
  | nil => exact Nat.zero_le _
  | @cons x t s rest hx hs _ _ ih =>
      obtain ⟨c, tail, hc, _⟩ := hx.head
      have hskip := length_skip_le false s
      rw [hs, hc, List.cons_append, List.length_cons, List.length_append] at hskip
      rw [List.length_cons]
      omega

/-- A label that may stand bare is a word and a colon. -/
theorem Spells.word_of_label (hbare : name.toList.all Symbol.isNameChar = true)
    (h : Spells (.label name :: n) s) : Spells (.word name :: .mark ':' :: n) s := by
  cases h with
  | @cons _ _ _ rest hx hs _ hrest =>
      refine .cons (r := ':' :: rest) ⟨hx.1, hbare⟩ ?_ ?_ ?_
      · rw [hs]
        simp [Piece.spelling, toList_text_bare hbare]
      · intro c hc
        cases hc
        decide
      · exact .piece (x := .mark ':') ⟨rfl, by decide⟩ trivial hrest

end Lexeme

namespace Reader

open Lexeme

variable {α β : Type} {p q : Reader α} {k : α → Reader β} {g : α → β} {a b : α}
variable {t u n : List Piece}

/-! ## Readers on pieces -/

/-- Off the pieces `t` the reader takes `a`, and it leaves the pieces `n`. -/
def Reads (p : Reader α) (t : List Piece) (a : α) (n : List Piece) : Prop :=
  ∀ s, Spells t s → ∃ rest, p s = some (a, rest) ∧ Spells n rest

/-- The reader fails on the pieces `t`. -/
def Refuses (p : Reader α) (t : List Piece) : Prop := ∀ s, Spells t s → p s = none

theorem reads_pure (a : α) (n : List Piece) : (pure a : Reader α).Reads n a n :=
  fun s hs => ⟨s, rfl, hs⟩

/-- Readers in sequence take their pieces in sequence. -/
theorem Reads.bind {b : β} (hp : p.Reads t a u) (hk : (k a).Reads u b n) :
    (p >>= k).Reads t b n := by
  intro s hs
  obtain ⟨s', hps, hs'⟩ := hp s hs
  rw [bind_apply, hps]
  exact hk s' hs'

/-- A function of the value takes the same pieces. -/
theorem Reads.map (hp : p.Reads t a n) : (g <$> p).Reads t (g a) n := by
  rw [map_eq_pure_bind]
  exact hp.bind (reads_pure _ _)

/-- A choice takes what its first reader takes. -/
theorem Reads.orElse (hp : p.Reads t a n) : (p <|> q).Reads t a n := by
  intro s hs
  obtain ⟨s', hps, hs'⟩ := hp s hs
  exact ⟨s', by rw [orElse_apply, hps]; rfl, hs'⟩

/-- A sequence fails where its first reader fails. -/
theorem Refuses.bind (hp : p.Refuses t) : (p >>= k).Refuses t := by
  intro s hs
  rw [bind_apply, hp s hs]
  rfl

/-- A function of the value fails where the reader fails. -/
theorem Refuses.map (hp : p.Refuses t) : (g <$> p).Refuses t := by
  rw [map_eq_pure_bind]
  exact hp.bind

/-- A sequence fails where its second reader fails on what the first leaves. -/
theorem Reads.bind_refuses (hp : p.Reads t a u) (hk : (k a).Refuses u) : (p >>= k).Refuses t := by
  intro s hs
  obtain ⟨s', hps, hs'⟩ := hp s hs
  rw [bind_apply, hps]
  exact hk s' hs'

/-- Where the first choice fails, the second counts. -/
theorem Refuses.orElse_reads (hp : p.Refuses t) (hq : q.Reads t a n) : (p <|> q).Reads t a n := by
  intro s hs
  rw [orElse_apply, hp s hs]
  exact hq s hs

/-- A choice fails where both readers fail. -/
theorem Refuses.orElse (hp : p.Refuses t) (hq : q.Refuses t) : (p <|> q).Refuses t := by
  intro s hs
  rw [orElse_apply, hp s hs]
  exact hq s hs

/-- An option takes what is there. -/
theorem Reads.optional (hp : p.Reads t a n) : (optional p).Reads t (some a) n := hp.map.orElse

/-- An option takes nothing where the reader fails. -/
theorem Refuses.optional (hp : p.Refuses t) : (optional p).Reads t none t :=
  hp.map.orElse_reads (reads_pure _ _)

/-! ## Repetition -/

/-- Off the pieces `t` the reader takes one value after the other, until it fails on `n`. -/
inductive Repeats (p : Reader α) : List Piece → List α → List Piece → Prop where
  | stop {n : List Piece} : p.Refuses n → Repeats p n [] n
  | next {t u n : List Piece} {a : α} {as : List α} : p.Reads t a u → u.length < t.length →
      Repeats p u as n → Repeats p t (a :: as) n

/-- Each value takes a piece, so the length of the text is no bound on their number. -/
theorem Repeats.reads_many {as : List α} (h : Repeats p t as n) : (many p).Reads t as n := by
  have hupTo : ∀ bound s, t.length ≤ bound → Spells t s →
      ∃ rest, manyUpTo p bound s = (as, rest) ∧ Spells n rest := by
    induction h with
    | stop hstop =>
        intro bound s _ hs
        refine ⟨s, ?_, hs⟩
        cases bound with
        | zero => rfl
        | succ bound => rw [manyUpTo, hstop s hs]
    | next hread hless _ ih =>
        intro bound s hbound hs
        obtain ⟨bound, rfl⟩ := Nat.exists_eq_add_one_of_ne_zero (n := bound) (by omega)
        obtain ⟨s', hps, hs'⟩ := hread s hs
        obtain ⟨rest, hmany, hrest⟩ := ih bound s' (by omega) hs'
        exact ⟨rest, by rw [manyUpTo, hps]; simp only [hmany], hrest⟩
  intro s hs
  obtain ⟨rest, hmany, hrest⟩ := hupTo s.length s hs.length_le hs
  exact ⟨rest, by rw [many, hmany], hrest⟩

/-- A repetition of a reader that fails takes nothing. -/
theorem Refuses.many (hp : p.Refuses t) : (many p).Reads t [] t := (Repeats.stop hp).reads_many

/-- A repetition takes one value and then as many as it can. -/
theorem Reads.many1 {as : List α} (hp : p.Reads t a u) (h : Repeats p u as n) :
    (many1 p).Reads t (a :: as) n :=
  hp.bind (h.reads_many.bind (reads_pure _ _))

section

variable {front : α → List Piece → List Piece} {as : List α}

/-- Values that each stand in front of the next. -/
theorem repeats_foldr (hread : ∀ a ∈ as, ∀ m, p.Reads (front a m) a m)
    (hfront : ∀ a m, m.length < (front a m).length) (hstop : p.Refuses n) :
    Repeats p (as.foldr front n) as n := by
  induction as with
  | nil => exact .stop hstop
  | cons a as ih =>
      exact .next (hread a List.mem_cons_self _) (hfront a _)
        (ih fun b hb => hread b (List.mem_cons_of_mem a hb))

/-- The pieces of values with commas between them, in front of `n`. -/
def separated (front : α → List Piece → List Piece) : List α → List Piece → List Piece
  | [], n => n
  | a :: as, n => front a (as.foldr (fun a m => .mark ',' :: front a m) n)

end

end Reader

namespace Lexeme

open Reader

variable {x : Piece} {t n : List Piece} {c d : Char} {w v name text : String} {words : List String}
variable {α β : Type} {p : Reader α} {a : α}

/-! ## Lexemes -/

/-- A lexeme takes a piece when it takes the spelling of the piece in front of any text that ends
it. -/
theorem reads_lexeme
    (h : x.Valid → ∀ rest, x.Ends rest → p (x.spelling ++ rest) = some (a, rest)) :
    (lexeme p).Reads (x :: n) a n := by
  intro s hs
  cases hs with
  | @cons _ _ _ rest hx hskip hend hrest =>
      refine ⟨rest, ?_, hrest⟩
      change p (skip false s) = _
      rw [hskip, h hx rest hend]

/-- A lexeme fails on a piece when it fails on its spelling in front of any text that ends it. -/
theorem refuses_lexeme (h : x.Valid → ∀ rest, x.Ends rest → p (x.spelling ++ rest) = none) :
    (lexeme p).Refuses (x :: n) := by
  intro s hs
  cases hs with
  | @cons _ _ _ rest hx hskip hend hrest =>
      change p (skip false s) = _
      rw [hskip, h hx rest hend]

/-- A lexeme that needs a character fails at the end of the text. -/
theorem refuses_lexeme_nil (h : p [] = none) : (lexeme p).Refuses [] := by
  intro s hs
  cases hs with
  | nil hskip =>
      change p (skip false s) = _
      rw [hskip, h]

/-! ### Marks -/

/-- A character in front is taken. -/
theorem char_cons (c : Char) (rest : List Char) : char c (c :: rest) = some ((), rest) := by
  simp [char]

/-- A mark takes its own piece. -/
theorem reads_mark : (mark c).Reads (.mark c :: n) () n :=
  reads_lexeme fun _ rest _ => char_cons c rest

/-- A reader that asks for a mark refuses a piece that starts otherwise. -/
theorem refuses_char {k : Unit → Reader β} (hd : Symbol.isNameChar d = false)
    (hx : x.sign? ≠ some d) : (lexeme (char d >>= k)).Refuses (x :: n) := by
  refine refuses_lexeme fun hvalid rest _ => ?_
  obtain ⟨c, tail, hc, hsign⟩ := hvalid.head
  have hne : c ≠ d := by
    rintro rfl
    rcases hsign with hsign | ⟨_, hname⟩
    · exact hx hsign
    · rw [hd] at hname
      cases hname
  rw [hc, List.cons_append, bind_apply, char, if_neg hne]
  rfl

/-- A mark fails on a piece that starts with another character. -/
theorem refuses_mark (hd : Symbol.isNameChar d = false) (hx : x.sign? ≠ some d) :
    (mark d).Refuses (x :: n) := by
  have h := refuses_char (n := n) (k := pure) hd hx
  rwa [bind_pure] at h

/-! ### Words -/

/-- A bare name is taken up to the first character that is none of a name. -/
theorem bareName_append {rest : List Char} (hw : IsWord w)
    (hrest : ∀ c ∈ rest.head?, Symbol.isNameChar c = false) :
    bareName (w.toList ++ rest) = some (w, rest) := run1_text hw.1 hw.2 hrest

/-- A bare name is not taken off a text that starts otherwise. -/
theorem bareName_eq_none {rest : List Char} (hc : Symbol.isNameChar c = false) :
    bareName (c :: rest) = none := by
  simp [bareName, run1, hc]

theorem reads_word : word.Reads (.word w :: n) w n :=
  reads_lexeme fun hw _ hend => bareName_append hw fun c hc => (hend c hc).1

theorem refuses_word (hx : x.sign? = some c) (hc : Symbol.isNameChar c = false) :
    word.Refuses (x :: n) := by
  refine refuses_lexeme fun hvalid rest _ => ?_
  obtain ⟨d, tail, hd, hsign | ⟨hsign, _⟩⟩ := hvalid.head
  · rw [hx] at hsign
    cases hsign
    rw [hd, List.cons_append, bareName_eq_none hc]
  · rw [hx] at hsign
    cases hsign

theorem refuses_word_nil : word.Refuses [] := refuses_lexeme_nil rfl

/-- A condition that holds takes nothing. -/
theorem reads_guard {P : Prop} [Decidable P] (h : P) : (guard P : Reader Unit).Reads n () n := by
  rw [guard_eq, if_pos h]
  exact reads_pure () n

/-- A condition that fails is refused everywhere. -/
theorem refuses_guard {P : Prop} [Decidable P] (h : ¬ P) : (guard P : Reader Unit).Refuses n := by
  rw [guard_eq, if_neg h]
  exact fun _ _ => rfl

/-- A keyword takes the word it is. -/
theorem reads_keyword : (keyword w).Reads (.word w :: n) () n := reads_word.bind (reads_guard rfl)

/-- A keyword fails on another word. -/
theorem refuses_keyword (h : v ≠ w) : (keyword w).Refuses (.word v :: n) :=
  reads_word.bind_refuses (refuses_guard h)

/-- One of several words is taken. -/
theorem reads_oneOf (h : w ∈ words) : (oneOf words).Reads (.word w :: n) () n :=
  reads_word.bind (reads_guard h)

/-- A word that is not among them is refused. -/
theorem refuses_oneOf (h : w ∉ words) : (oneOf words).Refuses (.word w :: n) :=
  reads_word.bind_refuses (refuses_guard h)

/-- A word with a meaning is taken for it. -/
theorem reads_lookup {meaning : String → Option α} (h : meaning w = some a) :
    (lookup meaning).Reads (.word w :: n) a n := by
  refine reads_word.bind fun s hs => ⟨s, ?_, hs⟩
  rw [ofOption, h]
  rfl

/-- A word without a meaning is refused. -/
theorem refuses_lookup {meaning : String → Option α} (h : meaning w = none) :
    (lookup meaning).Refuses (.word w :: n) := by
  refine reads_word.bind_refuses fun s _ => ?_
  rw [ofOption, h]
  rfl

/-! ### Names -/

/-- A quoted name is read up to the next double quote. -/
theorem quotedName_append (hw : '"' ∉ w.toList) (rest : List Char) :
    quotedName ('"' :: (w.toList ++ '"' :: rest)) = some (w, rest) := by
  have hall : ∀ c ∈ w.toList, (fun c => decide (c ≠ '"')) c = true := by
    intro c hc
    simp only [ne_eq, decide_eq_true_eq]
    rintro rfl
    exact hw hc
  have htake : (w.toList ++ '"' :: rest).takeWhile (fun c => decide (c ≠ '"')) = w.toList := by
    rw [List.takeWhile_append_of_pos hall]
    simp
  have hdrop : (w.toList ++ '"' :: rest).dropWhile (fun c => decide (c ≠ '"')) = '"' :: rest := by
    rw [List.dropWhile_append_of_pos hall]
    simp
  rw [quotedName, bind_apply, char_cons]
  simp only [Option.bind_some]
  rw [bind_apply]
  simp only [Option.bind_some]
  rw [htake, hdrop, String.ofList_toList, bind_apply, char_cons]
  rfl

/-- A name is read back as it was written, in quotes or bare. -/
theorem name_append {rest : List Char} (h : IsName w)
    (hrest : ∀ c ∈ rest.head?, Symbol.isNameChar c = false) :
    Lexeme.name ((Symbol.text w).toList ++ rest) = some (w, rest) := by
  by_cases hbare : w.toList.all Symbol.isNameChar = true
  · have hw : IsWord w := ⟨h.1, hbare⟩
    obtain ⟨c, tail, hc, hname⟩ := hw.head
    have hquoted : quotedName (w.toList ++ rest) = none := by
      rw [quotedName, bind_apply, hc, List.cons_append, char,
        if_neg (not_blank_of_isNameChar hname).2.2]
      rfl
    rw [toList_text_bare hbare, Lexeme.name, orElse_apply, hquoted, bareName_append hw hrest]
    rfl
  · rw [toList_text_quoted hbare, List.cons_append, List.append_assoc, Lexeme.name, orElse_apply,
      List.singleton_append, quotedName_append h.2]
    rfl

theorem reads_localName : localName.Reads (.value name :: n) name n := by
  refine reads_lexeme fun hvalid rest hend => ?_
  rw [Piece.spelling, List.cons_append, bind_apply, char_cons]
  exact name_append hvalid fun c hc => (hend c hc).1

theorem refuses_localName (hx : x.sign? ≠ some '%') : localName.Refuses (x :: n) :=
  refuses_char rfl hx

theorem reads_globalName : globalName.Reads (.global name :: n) name n := by
  refine reads_lexeme fun hvalid rest hend => ?_
  rw [Piece.spelling, List.cons_append, bind_apply, char_cons]
  exact name_append hvalid fun c hc => (hend c hc).1

theorem refuses_globalName (hx : x.sign? ≠ some '@') : globalName.Refuses (x :: n) :=
  refuses_char rfl hx

theorem reads_label : label.Reads (.label name :: n) name n := by
  refine reads_lexeme fun hvalid rest _ => ?_
  have hcolon : ∀ c ∈ (':' :: rest).head?, Symbol.isNameChar c = false := by
    intro c hc
    cases hc
    rfl
  rw [Piece.spelling, List.append_assoc, List.singleton_append, bind_apply,
    name_append hvalid hcolon]
  simp only [Option.bind_some]
  rw [bind_apply, char_cons]
  rfl

/-- A mark that is no double quote opens no label. -/
theorem refuses_label (hc : Symbol.isNameChar c = false) (hquote : c ≠ '"') :
    label.Refuses (.mark c :: n) := by
  refine refuses_lexeme fun _ rest _ => ?_
  rw [Piece.spelling, List.singleton_append, bind_apply, Lexeme.name, orElse_apply, quotedName,
    bind_apply, char, if_neg hquote, bareName_eq_none hc]
  rfl

/-- A label that may stand bare is refused where a word and a colon are. -/
theorem refuses_bare_label (hbare : name.toList.all Symbol.isNameChar = true)
    (h : p.Refuses (.word name :: .mark ':' :: n)) : p.Refuses (.label name :: n) :=
  fun s hs => h s (hs.word_of_label hbare)

/-! ### Numbers and literals -/

theorem reads_integer : integer.Reads (.number text :: n) text n := by
  refine reads_lexeme fun hvalid rest hend => ?_
  obtain ⟨c, tail, hc⟩ := List.exists_cons_of_ne_nil hvalid.1
  have hdigit : c.isDigit = true := List.all_eq_true.mp hvalid.2 c (hc ▸ List.mem_cons_self)
  have hminus : minus (text.toList ++ rest) = some ("", text.toList ++ rest) := by
    have hne : c ≠ '-' := by
      rintro rfl
      exact absurd hdigit (by decide)
    rw [minus, orElse_apply, bind_apply, hc, List.cons_append, char, if_neg hne]
    rfl
  have hstop : ∀ d ∈ rest.head?, d.isDigit = false := by
    intro d hd
    cases hdig : d.isDigit with
    | false => rfl
    | true => rw [← (hend d hd).1, isNameChar_of_isDigit hdig]
  have hdigits : digits (text.toList ++ rest) = some (text, rest) :=
    run1_text hvalid.1 hvalid.2 hstop
  rw [Piece.spelling, bind_apply, hminus]
  simp only [Option.bind_some]
  rw [bind_apply, hdigits]
  exact congrArg (fun t => some (t, rest)) String.empty_append

theorem reads_literal : literal.Reads (.literal text :: n) text n := by
  have h : (lexeme literalToken).Reads (.literal text :: n) text n :=
    reads_lexeme fun hvalid rest hend => IsLiteral.append hvalid hend
  exact h

/-- A word that is no literal and no number is not read off a literal. -/
theorem refuses_oneOf_literal (hwords : ∀ w ∈ words, w ∉ literalWords ∧ ¬ NumberLike w) :
    (oneOf words).Refuses (.literal text :: n) := by
  have h : (lexeme (do
      let found ← bareName
      guard (found ∈ words) : Reader Unit)).Refuses (.literal text :: n) := by
    refine refuses_lexeme fun hvalid rest hend => ?_
    have hstop : ∀ c ∈ rest.head?, Symbol.isNameChar c = false := fun c hc => (hend c hc).1
    obtain ⟨c, tail, hc, hname⟩ := IsLiteral.head hvalid
    have hfound : bareName text.toList =
        some (String.ofList (c :: tail.takeWhile Symbol.isNameChar),
          tail.dropWhile Symbol.isNameChar) := by
      rw [bareName, run1, hc]
      simp [hname]
    have hnot : String.ofList (c :: tail.takeWhile Symbol.isNameChar) ∉ words := by
      intro hmem
      obtain ⟨hword, hnumber⟩ := hwords _ hmem
      rcases IsLiteral.cases hvalid with ⟨d, more, hd, hlike⟩ | hliteral
      · rw [hc] at hd
        cases hd
        exact hnumber ⟨c, _, String.toList_ofList, hlike⟩
      · have hall : (c :: tail).all Symbol.isNameChar = true := by
          have hwhole : ∀ w ∈ literalWords, w.toList.all Symbol.isNameChar = true := by decide
          exact hc ▸ hwhole text hliteral
        rw [List.all_cons, Bool.and_eq_true] at hall
        rw [List.takeWhile_eq_self_iff.mpr (List.all_eq_true.mp hall.2), ← hc,
          String.ofList_toList] at hword
        exact hword hliteral
    rw [Piece.spelling, bind_apply, bareName, run1_append hstop, ← bareName, hfound]
    rw [Option.map_some, Option.bind_some, guard_eq, if_neg hnot]
  exact h

end Lexeme

end Dataflow
