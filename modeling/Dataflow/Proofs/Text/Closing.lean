import Dataflow.Proofs.Text.ReadLiterals
import Dataflow.Text.Grammar

/-!
# Readers in front of a closing brace

A brace that closes a function stands outside comments and quoted names, and only the reader of the
whole function takes it. So every other reader stops in front of it, and what it reads, or that it
fails, does not depend on what follows the brace: it is `Reader.Settled`. There is one rule for each
way to put readers together, and one line for each reader of the grammar. A function brings its
brace along, so it is read in the same way whatever follows it (`Surface.encloses_function`).
-/

namespace Dataflow

open Reader Lexeme

/-! ## Where characters stand -/

/-- What a character can stand in. -/
inductive Standing where
  | code | comment | quotes
deriving DecidableEq

/-- Where the character after `c` stands. -/
def Standing.after : Standing → Char → Standing
  | code, c => if c = ';' then comment else if c = '"' then quotes else code
  | comment, c => if c = '\n' then code else comment
  | quotes, c => if c = '"' then code else quotes

/-- Some closing brace of a text stands in the code, if the text starts where it says. -/
def Closes : Standing → List Char → Prop
  | _, [] => False
  | standing, c :: s => standing = .code ∧ c = '\x7d' ∨ Closes (standing.after c) s

/-- A character that changes nothing about where the next one stands, and does not close. -/
def Ordinary (c : Char) : Prop := c ≠ ';' ∧ c ≠ '"' ∧ c ≠ '\x7d'

/-- Whether a character is ordinary is decided by comparing it. -/
instance (c : Char) : Decidable (Ordinary c) := inferInstanceAs (Decidable (_ ∧ _))

section Standing

variable {c : Char} {s : List Char}

/-- An ordinary character in front changes nothing about what closes. -/
theorem closes_cons (hc : Ordinary c) : Closes .code (c :: s) ↔ Closes .code s := by
  obtain ⟨hcomment, hquote, hbrace⟩ := hc
  simp [Closes, Standing.after, hcomment, hquote, hbrace]

/-- Neither does a string of ordinary characters. -/
theorem closes_append {w : List Char} (hw : ∀ c ∈ w, Ordinary c) :
    Closes .code (w ++ s) ↔ Closes .code s := by
  induction w with
  | nil => rfl
  | cons c w ih =>
      rw [List.cons_append, closes_cons (hw c List.mem_cons_self),
        ih fun d hd => hw d (List.mem_cons_of_mem c hd)]

/-- A double quote opens quotes. -/
theorem closes_quote : Closes .code ('"' :: s) ↔ Closes .quotes s := by
  simp [Closes, Standing.after]

/-- Inside quotes, the code goes on after the next double quote. -/
theorem closes_quoted {w : List Char} (hw : '"' ∉ w) :
    Closes .quotes (w ++ '"' :: s) ↔ Closes .code s := by
  induction w with
  | nil => simp [Closes, Standing.after]
  | cons c w ih =>
      rw [List.mem_cons, not_or] at hw
      simp [Closes, Standing.after, Ne.symm hw.1, ih hw.2]

/-- Quotes in front of a closing brace are closed. -/
theorem Closes.quoted (h : Closes .quotes s) : ∃ w r, s = w ++ '"' :: r ∧ '"' ∉ w := by
  induction s with
  | nil => exact h.elim
  | cons c s ih =>
      by_cases hc : c = '"'
      · exact ⟨[], s, by rw [hc]; rfl, by simp⟩
      · obtain ⟨w, r, rfl, hw⟩ := ih (by simpa [Closes, Standing.after, hc] using h)
        exact ⟨c :: w, r, rfl, by simp [hw, Ne.symm hc]⟩

/-- Passing over blanks passes over no closing brace. -/
theorem closes_skip (inComment : Bool) (s : List Char) :
    Closes .code (skip inComment s) ↔ Closes (if inComment then .comment else .code) s := by
  induction s generalizing inComment with
  | nil => simp [skip, Closes]
  | cons c s ih =>
      cases inComment with
      | true =>
          rw [skip, if_pos rfl, ih]
          by_cases hc : c = '\n' <;> simp [Closes, Standing.after, hc]
      | false =>
          rw [skip, if_neg Bool.false_ne_true]
          split
          · rename_i hblank
            have hc : Ordinary c := by
              simp only [isBlank, Bool.or_eq_true, beq_iff_eq] at hblank
              rcases hblank with ((rfl | rfl) | rfl) | rfl <;> decide
            simp [ih, closes_cons hc]
          · split
            · rename_i hc
              subst hc
              rw [ih]
              simp [Closes, Standing.after]
            · simp

/-- Where something is left past blanks, more can follow. -/
theorem skip_append {inComment : Bool} (h : skip inComment s ≠ []) (t : List Char) :
    skip inComment (s ++ t) = skip inComment s ++ t := by
  induction s generalizing inComment with
  | nil => exact absurd rfl h
  | cons c s ih =>
      rw [List.cons_append, skip]
      rw [skip] at h ⊢
      split
      · rw [if_pos ‹_›] at h
        exact ih h
      · rw [if_neg ‹_›] at h
        split
        · rw [if_pos ‹_›] at h
          exact ih h
        · rw [if_neg ‹_›] at h
          split
          · rw [if_pos ‹_›] at h
            exact ih h
          · rfl

/-- What closes has a brace. -/
theorem Closes.mem {standing : Standing} (h : Closes standing s) : '\x7d' ∈ s := by
  induction s generalizing standing with
  | nil => exact h.elim
  | cons c s ih =>
      obtain ⟨_, rfl⟩ | h := h
      · exact List.mem_cons_self
      · exact List.mem_cons_of_mem c (ih h)

/-- So it is not empty. -/
theorem Closes.ne_nil {standing : Standing} (h : Closes standing s) : s ≠ [] :=
  List.ne_nil_of_mem h.mem

end Standing

namespace Reader

/-! ## Readers that stop in front of the brace -/

/-- In front of a closing brace the reader does not depend on what follows the brace, which it does
not take; it takes at least `k` characters. -/
structure Settled {α : Type} (k : Nat) (p : Reader α) : Prop where
  /-- What follows the brace is left. -/
  append {s} : Closes .code s → ∀ t, p (s ++ t) = (p s).map fun r => (r.1, r.2 ++ t)
  /-- The brace is left. -/
  closes {s a r} : p s = some (a, r) → (Closes .code r ↔ Closes .code s)
  /-- Something is taken. -/
  short {s a r} : p s = some (a, r) → r.length + k ≤ s.length

/-- The reader takes a closing brace and does not look behind it. -/
structure Encloses {α : Type} (p : Reader α) : Prop where
  /-- There is a brace. -/
  closes {s a r} : p s = some (a, r) → Closes .code s
  /-- What follows the brace is left. -/
  append {s a r} : p s = some (a, r) → ∀ t, p (s ++ t) = some (a, r ++ t)
  /-- The brace is taken. -/
  short {s a r} : p s = some (a, r) → r.length < s.length

variable {α β : Type} {j k : Nat} {p q : Reader α} {f : α → Reader β} {s r : List Char}

/-- In front of a brace a failure stays one, whatever follows the text. -/
theorem Settled.append_none (h : Settled k p) (hs : Closes .code s) (hp : p s = none)
    (t : List Char) : p (s ++ t) = none := by
  rw [h.append hs, hp]
  rfl

/-- In front of a brace a result stays the same, and what follows the text is left behind the
rest. -/
theorem Settled.append_some (h : Settled k p) (hs : Closes .code s) {a : α}
    (hp : p s = some (a, r)) (t : List Char) : p (s ++ t) = some (a, r ++ t) := by
  rw [h.append hs, hp]
  rfl

/-- A reader that takes more characters takes fewer. -/
theorem Settled.mono (h : Settled k p) (hj : j ≤ k) : Settled j p where
  append := h.append
  closes := h.closes
  short hp := (Nat.add_le_add_left hj _).trans (h.short hp)

/-- A reader that gives a value without reading is settled. -/
theorem settled_pure (a : α) : Settled 0 (pure a) where
  append _ _ := rfl
  closes h := by
    cases h
    rfl
  short h := by
    cases h
    exact Nat.le_refl _

/-- A reader that always fails is settled. -/
theorem settled_none : Settled k (fun _ => none : Reader α) where
  append _ _ := rfl
  closes h := by cases h
  short h := by cases h

/-- A value that may be missing is settled, as no text is looked at. -/
theorem settled_ofOption (a : Option α) : Settled 0 (ofOption a) := by
  cases a with
  | none => exact settled_none
  | some a => exact settled_pure a

/-- A test that looks at no text is settled. -/
theorem settled_guard (c : Prop) [Decidable c] : Settled 0 (guard c : Reader Unit) := by
  rw [guard_eq]
  split
  · exact settled_pure ()
  · exact settled_none

/-- One reader and then another: together they take what both take. -/
theorem Settled.bind_add (hp : Settled k p) (hf : ∀ a, Settled j (f a)) :
    Settled (k + j) (p >>= f) where
  append {s} hs t := by
    rw [bind_apply, bind_apply, hp.append hs]
    cases h : p s with
    | none => rfl
    | some r => exact (hf r.1).append ((hp.closes h).mpr hs) t
  closes h := by
    obtain ⟨⟨a, u⟩, hu, hr⟩ := Option.bind_eq_some_iff.mp h
    exact ((hf a).closes hr).trans (hp.closes hu)
  short h := by
    obtain ⟨⟨a, u⟩, hu, hr⟩ := Option.bind_eq_some_iff.mp h
    have hfirst := hp.short hu
    have hsecond := (hf a).short hr
    omega

/-- Readers one after the other are settled if both are, and take at least what the first takes. -/
theorem Settled.bind (hp : Settled k p) (hf : ∀ a, Settled j (f a)) : Settled k (p >>= f) :=
  (hp.bind_add hf).mono (Nat.le_add_right k j)

/-- They take at least what the second takes as well. -/
theorem Settled.bind_later (hp : Settled j p) (hf : ∀ a, Settled k (f a)) :
    Settled k (p >>= f) :=
  (hp.bind_add hf).mono (Nat.le_add_left k j)

/-- What comes after a reader only sees what the reader leaves. -/
theorem Settled.bind_congr {g : α → Reader β} (hp : Settled k p)
    (h : ∀ a r, r.length + k ≤ s.length → f a r = g a r) : (p >>= f) s = (p >>= g) s := by
  rw [bind_apply, bind_apply]
  cases hs : p s with
  | none => rfl
  | some u => exact h u.1 u.2 (hp.short hs)

/-- A reader is settled whatever its result is made into. -/
theorem Settled.map {g : α → β} (hp : Settled k p) : Settled k (g <$> p) := by
  rw [map_eq_pure_bind]
  exact hp.bind fun a => settled_pure (g a)

/-- Of two readers the second is tried where the first fails, which does not depend on what
follows. -/
theorem Settled.orElse (hp : Settled k p) (hq : Settled k q) : Settled k (p <|> q) where
  append {s} hs t := by
    rw [orElse_apply, orElse_apply, hp.append hs]
    cases h : p s with
    | none => exact hq.append hs t
    | some r => rfl
  closes {s a r} h := by
    rw [orElse_apply] at h
    cases hs : p s with
    | none =>
        rw [hs] at h
        exact hq.closes h
    | some b =>
        rw [hs] at h
        cases h
        exact hp.closes hs
  short {s a r} h := by
    rw [orElse_apply] at h
    cases hs : p s with
    | none =>
        rw [hs] at h
        exact hq.short h
    | some b =>
        rw [hs] at h
        cases h
        exact hp.short hs

/-- A reader that may be left out is settled and may take nothing. -/
theorem Settled.optional (hp : Settled k p) : Settled 0 (optional p) :=
  (hp.map.mono (Nat.zero_le k)).orElse (settled_pure none)

/-- A closing brace may come later. -/
theorem Settled.encloses (hp : Settled k p) (hf : ∀ a, Encloses (f a)) : Encloses (p >>= f) where
  closes h := by
    obtain ⟨⟨a, u⟩, hu, hr⟩ := Option.bind_eq_some_iff.mp h
    exact (hp.closes hu).mp ((hf a).closes hr)
  append h t := by
    obtain ⟨⟨a, u⟩, hu, hr⟩ := Option.bind_eq_some_iff.mp h
    rw [bind_apply, hp.append_some ((hp.closes hu).mp ((hf a).closes hr)) hu]
    exact (hf a).append hr t
  short h := by
    obtain ⟨⟨a, u⟩, hu, hr⟩ := Option.bind_eq_some_iff.mp h
    exact ((hf a).short hr).trans_le (Nat.le_of_add_right_le (hp.short hu))

/-! ### Repetition -/

/-- A reader that takes something is repeated in the same way whatever follows the brace, if the
bounds on how often do not fall short of the characters in front of it. -/
theorem Settled.manyUpTo (hp : Settled 1 p) (hs : Closes .code s) (t : List Char)
    {bound bound' : Nat} (hbound : s.length ≤ bound) (hbound' : s.length ≤ bound') :
    Reader.manyUpTo p bound' (s ++ t) =
      ((Reader.manyUpTo p bound s).1, (Reader.manyUpTo p bound s).2 ++ t) := by
  induction bound generalizing s bound' with
  | zero => exact absurd (List.length_eq_zero_iff.mp (Nat.le_zero.mp hbound)) hs.ne_nil
  | succ bound ih =>
      obtain ⟨bound', rfl⟩ := Nat.exists_eq_add_one_of_ne_zero (n := bound')
        (Nat.ne_of_gt ((List.length_pos_iff.mpr hs.ne_nil).trans_le hbound'))
      rw [Reader.manyUpTo, Reader.manyUpTo]
      cases hr : p s with
      | none => rw [hp.append_none hs hr]
      | some r =>
          have hshort := hp.short (a := r.1) (r := r.2) hr
          rw [hp.append_some hs (a := r.1) (r := r.2) hr]
          simp only [ih ((hp.closes hr).mpr hs) (by omega) (show r.2.length ≤ bound' by omega)]

/-- What is left when a reader has been repeated. -/
theorem Settled.manyUpTo_rest (hp : Settled k p) (bound : Nat) (s : List Char) :
    (Closes .code (Reader.manyUpTo p bound s).2 ↔ Closes .code s) ∧
      (Reader.manyUpTo p bound s).2.length ≤ s.length := by
  induction bound generalizing s with
  | zero => exact ⟨.rfl, Nat.le_refl _⟩
  | succ bound ih =>
      rw [Reader.manyUpTo]
      cases hr : p s with
      | none => exact ⟨.rfl, Nat.le_refl _⟩
      | some r =>
          obtain ⟨hcloses, hshort⟩ := ih r.2
          exact ⟨hcloses.trans (hp.closes hr),
            hshort.trans (Nat.le_of_add_right_le (hp.short (a := r.1) (r := r.2) hr))⟩

/-- Repetition stops in front of the brace, because the repeated reader does and takes something. -/
theorem Settled.many (hp : Settled 1 p) : Settled 0 (many p) where
  append hs t := congrArg some
    (hp.manyUpTo hs t (Nat.le_refl _) (by rw [List.length_append]; exact Nat.le_add_right _ _))
  closes {s a r} h := by
    obtain rfl : (Reader.manyUpTo p s.length s).2 = r := congrArg Prod.snd (Option.some.inj h)
    exact (hp.manyUpTo_rest _ _).1
  short {s a r} h := by
    obtain rfl : (Reader.manyUpTo p s.length s).2 = r := congrArg Prod.snd (Option.some.inj h)
    exact (hp.manyUpTo_rest _ _).2

/-- So does repetition at least once. -/
theorem Settled.many1 (hp : Settled 1 p) : Settled 1 (many1 p) :=
  hp.bind fun a => hp.many.bind fun as => settled_pure (a :: as)

/-- And so does a list with separators. -/
theorem Settled.sepBy1 {separator : Reader Unit} (hp : Settled 1 p)
    (hseparator : Settled 1 separator) : Settled 1 (sepBy1 p separator) :=
  hp.bind fun a => (hseparator.bind fun _ => hp).many.bind fun as => settled_pure (a :: as)

/-! ### Characters -/

/-- A character that is ordinary is no brace, so reading it stops in front of one. -/
theorem settled_char {c : Char} (hc : Ordinary c) : Settled 1 (char c) where
  append {s} hs t := by
    cases s with
    | nil => exact hs.elim
    | cons d s =>
        rw [List.cons_append, char, char]
        split <;> rfl
  closes h := by rw [char_eq_some.mp h, closes_cons hc]
  short h := by
    rw [char_eq_some.mp h]
    exact Nat.le_refl _

/-- A run of ordinary characters stops in front of a brace. -/
theorem settled_run1 {g : Char → Bool} (hg : ∀ c, g c = true → Ordinary c) :
    Settled 1 (run1 g) where
  append {s} hs t := by
    -- the run stops at the brace
    obtain ⟨w, u, rfl⟩ := List.append_of_mem hs.mem
    have hbrace : g '\x7d' = false :=
      Bool.eq_false_iff.mpr fun htrue => absurd (hg '\x7d' htrue) (by decide)
    have hstop : ∀ v : List Char, ∀ c ∈ ('\x7d' :: v).head?, g c = false := by simpa using hbrace
    rw [List.append_assoc, List.cons_append, run1_append (hstop _), run1_append (hstop _),
      Option.map_map]
    simp [Function.comp_def]
  closes h := by
    obtain ⟨rfl, _, hall, _⟩ := run1_eq_some.mp h
    exact (closes_append fun c hc => hg c (List.all_eq_true.mp hall c hc)).symm
  short h := by
    obtain ⟨rfl, hne, _, _⟩ := run1_eq_some.mp h
    rw [List.length_append, Nat.add_comm]
    exact Nat.add_le_add_right (List.length_pos_iff.mpr hne) _

end Reader

namespace Lexeme

/-! ## Lexemes -/

/-- Blanks and comments stand in front of a brace or hide it. -/
theorem settled_blanks : Settled 0 blanks where
  append {s} hs t := by
    have hleft : skip false s ≠ [] := ((closes_skip false s).mpr hs).ne_nil
    rw [blanks, skip_append hleft]
    rfl
  closes {s a r} h := by
    cases h
    exact closes_skip false s
  short {s a r} h := by
    cases h
    exact length_skip_le false s

/-- A lexeme is settled, since the blanks before it are. -/
theorem settled_lexeme {α : Type} {k : Nat} {p : Reader α} (hp : Settled k p) :
    Settled k (lexeme p) :=
  settled_blanks.bind_later fun _ => hp

/-- The characters of names are ordinary. -/
theorem ordinary_of_isNameChar {c : Char} (h : Symbol.isNameChar c = true) : Ordinary c := by
  refine ⟨?_, ?_, ?_⟩ <;> rintro rfl <;> exact absurd h (by decide)

/-- A bare name stops in front of a brace. -/
theorem settled_bareName : Settled 1 bareName := settled_run1 fun _ => ordinary_of_isNameChar

/-- A quoted name goes to its second quote, so a brace inside it closes nothing. -/
theorem settled_quotedName : Settled 1 quotedName where
  append {s} hs t := by
    cases s with
    | nil => exact hs.elim
    | cons c s =>
        by_cases hc : c = '"'
        · subst hc
          obtain ⟨w, r, rfl, hw⟩ := (closes_quote.mp hs).quoted
          have hname : '"' ∉ (String.ofList w).toList := by rwa [String.toList_ofList]
          have hread := quotedName_append hname
          rw [String.toList_ofList] at hread
          rw [hread, List.cons_append, List.append_assoc, List.cons_append, hread]
          rfl
        · rw [List.cons_append, quotedName, bind_apply, bind_apply, char, char, if_neg hc,
            if_neg hc]
          rfl
  closes {s w r} h := by
    obtain ⟨rfl, hw⟩ := quotedName_eq_some.mp h
    rw [List.cons_append, List.append_assoc, List.singleton_append, closes_quote, closes_quoted hw]
  short {s w r} h := by
    obtain ⟨rfl, _⟩ := quotedName_eq_some.mp h
    simp only [List.length_append, List.length_cons]
    omega

/-- A name is bare or quoted. -/
theorem settled_name : Settled 1 name := settled_quotedName.orElse settled_bareName

/-- A mark other than a brace is settled. -/
theorem settled_mark {c : Char} (hc : Ordinary c) : Settled 1 (mark c) :=
  settled_lexeme (settled_char hc)

/-- The mark that closes a function. -/
theorem encloses_brace {α : Type} (a : α) : Encloses (mark '\x7d' >>= fun _ => pure a) := by
  have hskip : ∀ {s b r}, (mark '\x7d' >>= fun _ => pure a) s = some (b, r) →
      b = a ∧ skip false s = '\x7d' :: r := by
    intro s b r h
    obtain ⟨⟨_, u⟩, hu, hr⟩ := Option.bind_eq_some_iff.mp h
    cases hr
    exact ⟨rfl, char_eq_some.mp hu⟩
  refine ⟨fun {s b r} h => ?_, fun {s b r} h t => ?_, fun {s b r} h => ?_⟩
  · exact (closes_skip false s).mp ((hskip h).2 ▸ .inl ⟨rfl, rfl⟩)
  · obtain ⟨rfl, hs⟩ := hskip h
    have hmark : mark '\x7d' (s ++ t) = some ((), r ++ t) := by
      change char '\x7d' (skip false (s ++ t)) = _
      rw [skip_append (by rw [hs]; exact List.cons_ne_nil _ _), hs]
      exact char_cons _ _
    rw [bind_apply, hmark]
    rfl
  · have hle := length_skip_le false s
    rwa [(hskip h).2] at hle

/-- A word stops in front of a brace. -/
theorem settled_word : Settled 1 word := settled_lexeme settled_bareName

/-- So does a keyword, which is a word. -/
theorem settled_keyword (w : String) : Settled 1 (keyword w) :=
  settled_word.bind fun _ => settled_guard _

/-- So does any of a list of words. -/
theorem settled_oneOf (words : List String) : Settled 1 (oneOf words) :=
  settled_word.bind fun _ => settled_guard _

/-- So does a word that has a meaning. -/
theorem settled_lookup {α : Type} (meaning : String → Option α) : Settled 1 (lookup meaning) :=
  settled_word.bind fun _ => settled_ofOption _

/-- A local name is a mark and a name. -/
theorem settled_localName : Settled 1 localName :=
  settled_lexeme ((settled_char (by decide)).bind fun _ => settled_name)

/-- A global name is a mark and a name. -/
theorem settled_globalName : Settled 1 globalName :=
  settled_lexeme ((settled_char (by decide)).bind fun _ => settled_name)

theorem settled_label : Settled 1 label :=
  settled_lexeme (settled_name.bind fun _ => (settled_char (by decide)).bind fun _ =>
    settled_pure _)

/-! ### Literals -/

/-- A run of digits stops in front of a brace. -/
theorem settled_digits : Settled 1 digits :=
  settled_run1 fun _ hc => ordinary_of_isNameChar (isNameChar_of_isDigit hc)

/-- A sign may be left out. -/
theorem settled_minus : Settled 0 minus :=
  (((settled_char (by decide)).bind fun _ => settled_pure _).mono (Nat.zero_le 1)).orElse
    (settled_pure _)

/-- An integer is a sign and digits. -/
theorem settled_integer : Settled 1 integer :=
  settled_lexeme (settled_minus.bind_later fun _ => settled_digits.bind fun _ => settled_pure _)

/-- A bit pattern is a prefix and digits. -/
theorem settled_bitPattern : Settled 1 bitPattern :=
  (settled_char (by decide)).bind fun _ => (settled_char (by decide)).bind fun _ =>
    (settled_run1 fun _ hc => ordinary_of_isNameChar (isNameChar_of_isHexDigit hc)).bind fun _ =>
    settled_pure _

theorem settled_exponent : Settled 1 exponent :=
  (((settled_char (by decide)).bind fun _ => settled_pure _).orElse
    ((settled_char (by decide)).bind fun _ => settled_pure _)).bind fun _ =>
  ((((settled_char (by decide)).bind fun _ => settled_pure _).mono (Nat.zero_le 1)).orElse
    settled_minus).bind fun _ => settled_digits.bind fun _ => settled_pure _

theorem settled_decimal : Settled 1 decimal :=
  settled_minus.bind_later fun _ => settled_digits.bind fun _ =>
    (settled_char (by decide)).bind fun _ =>
    ((settled_digits.mono (Nat.zero_le 1)).orElse (settled_pure _)).bind fun _ =>
    ((settled_exponent.mono (Nat.zero_le 1)).orElse (settled_pure _)).bind fun _ => settled_pure _

theorem settled_scientific : Settled 1 scientific :=
  settled_minus.bind_later fun _ => settled_digits.bind fun _ => settled_exponent.bind fun _ =>
    settled_pure _

/-- A literal is a number or a word. -/
theorem settled_literal : Settled 1 literal :=
  (settled_lexeme (settled_bitPattern.orElse (settled_decimal.orElse settled_scientific))).orElse
    (settled_integer.orElse (settled_word.bind fun _ => (settled_guard _).bind fun _ =>
      settled_pure _))

/-! ### Words without meaning for data flow -/

/-- A gap has a character at least. -/
theorem settled_gap : Settled 1 gap := by
  refine (settled_run1 fun c hc => ?_).bind fun _ => settled_pure _
  simp only [Bool.or_eq_true, beq_iff_eq] at hc
  rcases hc with rfl | rfl <;> decide

/-- Metadata is an exclamation mark and what belongs to it. -/
theorem settled_metadata : Settled 1 metadata :=
  settled_lexeme ((settled_char (by decide)).bind fun _ => settled_bareName.bind fun _ =>
    settled_gap.bind fun _ => (settled_char (by decide)).bind fun _ =>
    settled_bareName.bind fun _ => settled_pure _)

theorem settled_alignment : Settled 1 alignment :=
  (settled_keyword _).bind fun _ => settled_gap.bind fun _ => settled_digits.bind fun _ =>
    settled_pure _

theorem settled_attributeGroup : Settled 1 attributeGroup :=
  settled_lexeme ((settled_char (by decide)).bind fun _ => settled_digits.bind fun _ =>
    settled_pure _)

end Lexeme

namespace Surface

/-! ## The grammar -/

/-- Flags may be left out. -/
theorem settled_flags : Settled 0 flags := (settled_oneOf _).many.bind fun _ => settled_pure _

/-- The attributes of a parameter may be left out. -/
theorem settled_paramAttributes : Settled 0 paramAttributes :=
  (settled_oneOf _).many.bind fun _ => settled_pure _

/-- Those of a function may be left out. -/
theorem settled_functionAttributes : Settled 0 functionAttributes :=
  (settled_attributeGroup.orElse (settled_metadata.orElse (settled_oneOf _))).many.bind fun _ =>
    settled_pure _

/-- What trails a statement starts with a comma. -/
theorem settled_trailer : Settled 1 trailer :=
  (settled_mark (by decide)).bind fun _ => settled_alignment.orElse settled_metadata

/-! ### Types -/

/-- A type in brackets of which the reader of the elements is given. -/
def bracketed (opening closing : Char) (build : String → TypeText → TypeText)
    (element : Reader TypeText) : Reader TypeText := do
  mark opening
  let length ← integer
  mark 'x'
  let element ← element
  mark closing
  return build length element

/-- A type in brackets is settled if its element is. -/
theorem settled_bracketed {opening closing : Char} (hopening : Ordinary opening)
    (hclosing : Ordinary closing) (build : String → TypeText → TypeText) {k : Nat}
    {element : Reader TypeText} (h : Settled k element) :
    Settled 1 (bracketed opening closing build element) :=
  (settled_mark hopening).bind fun _ => settled_integer.bind fun _ =>
    (settled_mark (by decide)).bind fun _ => h.bind fun _ => (settled_mark hclosing).bind fun _ =>
    settled_pure _

/-- One more level of depth allows one more level of brackets. -/
theorem typeUpTo_succ (depth : Nat) : typeUpTo (depth + 1) = (do
    let base ← lookup typeOfWord? <|> bracketed '[' ']' .array (typeUpTo depth) <|>
      bracketed '<' '>' .vector (typeUpTo depth)
    let stars ← many (mark '*')
    return stars.foldl (fun t _ => .pointer t) base) := rfl

/-- A type of bounded depth is settled, by induction on the depth. -/
theorem settled_typeUpTo (depth : Nat) : Settled 1 (typeUpTo depth) := by
  induction depth with
  | zero => exact settled_none
  | succ depth ih =>
      rw [typeUpTo_succ]
      exact ((settled_lookup _).orElse ((settled_bracketed (by decide) (by decide) _ ih).orElse
        (settled_bracketed (by decide) (by decide) _ ih))).bind fun _ =>
        (settled_mark (by decide)).many.bind fun _ => settled_pure _

/-- What is read between brackets is shorter, so the reader of the elements may be another one that
agrees on shorter texts. -/
theorem bracketed_congr {opening closing : Char} (hopening : Ordinary opening)
    (build : String → TypeText → TypeText) {element element' : Reader TypeText} {s : List Char}
    (h : ∀ r, r.length < s.length → element r = element' r) :
    bracketed opening closing build element s = bracketed opening closing build element' s := by
  refine (settled_mark hopening).bind_congr fun _ r hr => settled_integer.bind_congr fun _ u hu =>
    (settled_mark (by decide)).bind_congr fun _ v hv => ?_
  rw [bind_apply, bind_apply, h v (by omega)]

/-- Every depth that is greater than the text is long is deep enough. -/
theorem typeUpTo_congr {depth depth' : Nat} {s : List Char} (h : s.length < depth)
    (h' : s.length < depth') : typeUpTo depth s = typeUpTo depth' s := by
  induction depth generalizing depth' s with
  | zero => exact absurd h (Nat.not_lt_zero _)
  | succ depth ih =>
      obtain ⟨depth', rfl⟩ := Nat.exists_eq_add_one_of_ne_zero (Nat.ne_zero_of_lt h')
      have hinner : ∀ r : List Char, r.length < s.length → typeUpTo depth r = typeUpTo depth' r :=
        fun r hr => ih (by omega) (by omega)
      rw [typeUpTo_succ, typeUpTo_succ, bind_apply, bind_apply, orElse_apply, orElse_apply,
        orElse_apply, orElse_apply, bracketed_congr (by decide) _ hinner,
        bracketed_congr (by decide) _ hinner]

/-- A type is settled, although its depth is taken from the length of the text: what is behind the
brace only adds to the depth. -/
theorem settled_type : Settled 1 type where
  append {s} hs t := by
    rw [type, (settled_typeUpTo _).append hs, type, typeUpTo_congr (s := s) _ (Nat.lt_succ_self _)]
    rw [List.length_append]
    exact Nat.lt_succ_of_le (Nat.le_add_right _ _)
  closes h := (settled_typeUpTo _).closes h
  short h := (settled_typeUpTo _).short h

/-! ### Instructions -/

/-- An operand is a name or a literal. -/
theorem settled_operand : Settled 1 operand :=
  settled_localName.map.orElse (settled_globalName.map.orElse settled_literal.map)

/-- An operand with its type is settled. -/
theorem settled_typed : Settled 1 typed :=
  settled_type.bind fun _ => settled_operand.bind fun _ => settled_pure _

theorem settled_nextTyped : Settled 1 nextTyped :=
  (settled_mark (by decide)).bind fun _ => settled_typed

theorem settled_target : Settled 1 target :=
  (settled_keyword _).bind fun _ => settled_localName

/-- Two operands with a comma between them are settled. -/
theorem settled_operandPair (build : TypedText → OperandText → Statement) :
    Settled 1 (operandPair build) :=
  settled_typed.bind fun _ => (settled_mark (by decide)).bind fun _ => settled_operand.bind fun _ =>
    settled_pure _

theorem settled_binary : Settled 1 binary :=
  (settled_lookup _).bind fun _ => settled_flags.bind fun _ => settled_operandPair _

theorem settled_intCompare : Settled 1 intCompare :=
  (settled_keyword _).bind fun _ => settled_flags.bind fun _ => (settled_lookup _).bind fun _ =>
    settled_operandPair _

theorem settled_floatCompare : Settled 1 floatCompare :=
  (settled_keyword _).bind fun _ => settled_flags.bind fun _ => (settled_lookup _).bind fun _ =>
    settled_operandPair _

theorem settled_load : Settled 1 load :=
  (settled_keyword _).bind fun _ => settled_flags.bind fun _ => settled_type.bind fun _ =>
    settled_nextTyped.bind fun _ => settled_pure _

theorem settled_store : Settled 1 store :=
  (settled_keyword _).bind fun _ => settled_flags.bind fun _ => settled_typed.bind fun _ =>
    settled_nextTyped.bind fun _ => settled_pure _

theorem settled_elementPtr : Settled 1 elementPtr :=
  (settled_keyword _).bind fun _ => settled_flags.bind fun _ => settled_type.bind fun _ =>
    settled_nextTyped.bind fun _ => settled_nextTyped.many.bind fun _ => settled_pure _

theorem settled_cast : Settled 1 cast :=
  (settled_lookup _).bind fun _ => settled_flags.bind fun _ => settled_typed.bind fun _ =>
    (settled_keyword _).bind fun _ => settled_type.bind fun _ => settled_pure _

/-- An arm of a phi stands in brackets and is settled. -/
theorem settled_arm : Settled 1 arm :=
  (settled_mark (by decide)).bind fun _ => settled_operand.bind fun _ =>
    (settled_mark (by decide)).bind fun _ => settled_localName.bind fun _ =>
    (settled_mark (by decide)).bind fun _ => settled_pure _

theorem settled_phi : Settled 1 phi :=
  (settled_keyword _).bind fun _ => settled_flags.bind fun _ => settled_type.bind fun _ =>
    (settled_arm.sepBy1 (settled_mark (by decide))).bind fun _ => settled_pure _

theorem settled_select : Settled 1 select :=
  (settled_keyword _).bind fun _ => settled_flags.bind fun _ => settled_typed.bind fun _ =>
    settled_nextTyped.bind fun _ => settled_nextTyped.bind fun _ => settled_pure _

theorem settled_argument : Settled 1 argument :=
  settled_type.bind fun _ => settled_paramAttributes.bind fun _ => settled_operand.bind fun _ =>
    settled_pure _

/-- A call goes on to its last attribute, but not past a brace. -/
theorem settled_call : Settled 1 call :=
  settled_flags.bind_later fun _ => (settled_keyword _).bind fun _ => settled_flags.bind fun _ =>
    settled_paramAttributes.bind fun _ => settled_type.bind fun _ =>
    (settled_globalName.map.orElse settled_localName.map).bind fun _ =>
    (settled_mark (by decide)).bind fun _ =>
    (settled_argument.sepBy1 (settled_mark (by decide))).optional.bind fun _ =>
    (settled_mark (by decide)).bind fun _ => settled_functionAttributes.bind fun _ =>
    settled_pure _

theorem settled_alloca : Settled 1 alloca :=
  (settled_keyword _).bind fun _ => settled_type.bind fun _ =>
    settled_nextTyped.optional.bind fun _ => settled_pure _

theorem settled_jump : Settled 1 jump :=
  (settled_keyword _).bind fun _ => settled_target.bind fun _ => settled_pure _

theorem settled_branch : Settled 1 branch :=
  (settled_keyword _).bind fun _ => settled_typed.bind fun _ =>
    (settled_mark (by decide)).bind fun _ => settled_target.bind fun _ =>
    (settled_mark (by decide)).bind fun _ => settled_target.bind fun _ => settled_pure _

theorem settled_retVoid : Settled 1 retVoid :=
  (settled_keyword _).bind fun _ => (settled_keyword _).bind fun _ => settled_pure _

theorem settled_retValue : Settled 1 retValue :=
  (settled_keyword _).bind fun _ => settled_typed.bind fun _ => settled_pure _

theorem settled_unreachable : Settled 1 unreachable :=
  (settled_keyword _).bind fun _ => settled_pure _

/-- A statement is settled, because every form is. -/
theorem settled_statement : Settled 1 statement :=
  settled_binary.orElse <| settled_intCompare.orElse <| settled_floatCompare.orElse <|
  settled_load.orElse <| settled_store.orElse <| settled_elementPtr.orElse <|
  settled_cast.orElse <| settled_phi.orElse <| settled_select.orElse <| settled_call.orElse <|
  settled_alloca.orElse <| settled_jump.orElse <| settled_branch.orElse <|
  settled_retVoid.orElse <| settled_retValue.orElse settled_unreachable

/-- A line is a statement with a name before it or without one, and what trails it. -/
theorem settled_line : Settled 1 line :=
  (settled_localName.bind fun _ => (settled_mark (by decide)).bind fun _ =>
    settled_pure _).optional.bind_later fun _ =>
  settled_statement.bind fun _ => settled_trailer.many.bind fun _ => settled_pure _

/-! ### Functions -/

/-- A block is a label and lines, and at least one line. -/
theorem settled_block : Settled 1 block :=
  settled_label.optional.bind_later fun _ => settled_line.many1.bind fun _ => settled_pure _

/-- A parameter is settled. -/
theorem settled_param : Settled 1 param :=
  settled_type.bind fun _ => settled_paramAttributes.bind fun _ =>
    settled_localName.optional.bind fun _ => settled_pure _

/-- A function takes the brace that closes it and does not look behind it. -/
theorem encloses_function : Encloses function :=
  (settled_keyword _).encloses fun _ => (settled_oneOf _).many.encloses fun _ =>
    settled_type.encloses fun _ => settled_globalName.encloses fun _ =>
    (settled_mark (by decide)).encloses fun _ =>
    (settled_param.sepBy1 (settled_mark (by decide))).optional.encloses fun _ =>
    (settled_mark (by decide)).encloses fun _ => settled_functionAttributes.encloses fun _ =>
    (settled_mark (by decide)).encloses fun _ => settled_block.many1.encloses fun _ =>
    encloses_brace _

end Surface

end Dataflow
