import Dataflow.Text.Build
import Dataflow.Proofs.Text.Agreement
import Dataflow.Proofs.Text.ReadTrees

/-!
# Pairs of lexemes

The parts that hold no other part but a name, beside the readers of lexemes. The text of such a pair
is what the reader gives, or the word it looks up, so the words of the grammar are the words of the
tables; a name is what is left without sigil and quotes (`Reader.agrees_localName`). What means
nothing for data flow leaves pairs that a cursor passes over (`Pair.Noise`).
-/

namespace Dataflow

open Lexeme Pattern

namespace Pair

/-- Pairs that mean nothing for data flow and hold no other pair. -/
def Noise (ts : List Pair) : Prop := ∀ t ∈ ts, t.part.isNoise = true ∧ t.children = []

theorem noise_nil : Noise [] := fun _ ht => by cases ht

/-- Noise stays noise with more noise behind it. -/
theorem Noise.append {ts us : List Pair} (ht : Noise ts) (hu : Noise us) : Noise (ts ++ us) :=
  fun t h => (List.mem_append.mp h).elim (ht t) (hu t)

/-- Noise means nothing. -/
theorem Noise.meaningful {ts : List Pair} (h : Noise ts) : meaningful ts = [] :=
  List.filter_eq_nil_iff.mpr fun t ht => by simp [(h t ht).1]

end Pair

namespace Reader

variable {α : Type} {n d : Nat} {x : Part} {s rest : List Char}

/-! ## Parts that are one lexeme -/

/-- What was taken from a text is the part in front of the rest. -/
theorem taken_append (before rest : List Char) :
    taken (before ++ rest) rest = String.ofList before := by
  simp [taken]

/-- A reader that starts past blanks and gives what it takes. -/
structure Spelled (p : Reader String) : Prop where
  /-- It starts past blanks. -/
  past (s : List Char) : p (skip false s) = p s
  /-- It takes something and gives it. -/
  text {s : List Char} {w : String} {rest : List Char} : p s = some (w, rest) →
    w.toList ≠ [] ∧ skip false s = w.toList ++ rest

/-- A reader that gives the word it takes leaves less past blanks. -/
theorem Spelled.weight_lt {p : Reader String} (h : Spelled p) {w : String}
    (hp : p s = some (w, rest)) : weight rest + 1 ≤ weight s := by
  obtain ⟨hne, hs⟩ := h.text hp
  rw [weight, weight, hs, List.length_append]
  have := List.length_pos_iff.mpr hne
  have := weight_le rest
  rw [weight] at this
  omega

/-- A token gives one pair, of the text it takes. -/
theorem leaf_apply {r : Reader Unit} (hx : x.pattern = token r) (d : Nat) (s : List Char) :
    (Pattern.part x).pairs (Part.take (d + 1)) s =
      (r s).map fun u => ([.mk x (taken s u.2) []], u.2) := by
  rw [part_apply, hx, Pattern.pairs, bind_apply]
  cases r s <;> rfl

/-- Where a lexeme is looked at, a part that is one lexeme has its word for its text. -/
theorem Spelled.agrees_of {p : Reader String} (h : Spelled p) {r : Reader Unit}
    (hx : x.pattern = token r) (hd : 0 < d) (meaning : String → Option α)
    (hr : ∀ s, r s = (p s).bind fun u => (meaning u.1).map fun _ => ((), u.2)) :
    Agrees (fun a ts => ∃ w, meaning w = some a ∧ ts = [.mk x w []]) 1 n
      (p >>= fun w => ofOption (meaning w)) ((Pattern.part x).pairs (Part.take d)) := by
  obtain ⟨d, rfl⟩ := Nat.exists_eq_add_one_of_ne_zero (n := d) (by omega)
  intro s _
  rw [leaf_apply hx, hr, h.past, bind_apply]
  cases hp : p s with
  | none => exact .inl ⟨rfl, rfl⟩
  | some u =>
      obtain ⟨w, rest⟩ := u
      have htext : taken (skip false s) rest = w := by
        rw [(h.text hp).2, taken_append, String.ofList_toList]
      cases ha : meaning w with
      | none =>
          refine .inl ⟨?_, ?_⟩ <;> simp [ofOption, ha]
      | some a =>
          refine .inr ⟨a, rest, [.mk x w []], rest, ?_, ?_, ⟨w, ha, rfl⟩, rfl, h.weight_lt hp⟩
          · simp [ofOption, ha]
          · simp [ha, htext]

/-- A reader that gives the word it takes agrees with the token of that word. -/
theorem Spelled.agrees {p : Reader String} (h : Spelled p) (hx : x.pattern = passing p)
    (hd : 0 < d) :
    Agrees (fun w ts => ts = [.mk x w []]) 1 n p ((Pattern.part x).pairs (Part.take d)) := by
  have hag := h.agrees_of (n := n) hx hd some fun s => by
    rw [bind_apply]
    rfl
  have hp : (p >>= fun w => ofOption (some w)) = p := bind_pure p
  rw [hp] at hag
  refine hag.imp fun w ts hts => ?_
  obtain ⟨v, hv, rfl⟩ := hts
  rw [Option.some.inj hv]

/-- A word is given as it is taken. -/
theorem spelled_word : Spelled word where
  past s := congrArg bareName (skip_skip false s)
  text h := by
    obtain ⟨hs, hne, _⟩ := run1_eq_some.mp h
    exact ⟨hne, hs⟩

/-- A table has a meaning for the words that a part can be, and for no others. -/
theorem agrees_lookup {words : List String} (hx : x.pattern = wordOf words) (hd : 0 < d)
    {meaning : String → Option α} (hw : ∀ w, w ∈ words ↔ (meaning w).isSome = true) :
    Agrees (fun a ts => ∃ w, meaning w = some a ∧ ts = [.mk x w []]) 1 n (lookup meaning)
      ((Pattern.part x).pairs (Part.take d)) := by
  refine spelled_word.agrees_of hx hd meaning fun s => ?_
  rw [oneOf, bind_apply]
  congr 1
  funext u
  by_cases hu : u.1 ∈ words
  · obtain ⟨a, ha⟩ := Option.isSome_iff_exists.mp ((hw u.1).mp hu)
    rw [guard_eq, if_pos hu, ha]
    rfl
  · have hnone : meaning u.1 = none := by
      rw [← Option.not_isSome_iff_eq_none]
      exact fun h => hu ((hw u.1).mpr h)
    rw [guard_eq, if_neg hu, hnone]
    rfl

/-- A guard before a value is the value where the guard holds. -/
theorem guard_then (c : Prop) [Decidable c] (a : α) :
    ((guard c : Reader Unit) >>= fun _ => pure a) = ofOption (if c then some a else none) := by
  by_cases hc : c
  · rw [guard_eq, if_pos hc, if_pos hc]
    rfl
  · rw [guard_eq, if_neg hc, if_neg hc]
    rfl

/-- A test is a value that is missing where the test fails. -/
theorem guard_eq_ofOption (c : Prop) [Decidable c] :
    (guard c : Reader Unit) = ofOption (if c then some () else none) :=
  (bind_pure (guard c : Reader Unit)).symm.trans (guard_then c ())

/-- Reading one of some words is looking it up among them. -/
theorem oneOf_eq (words : List String) :
    oneOf words = lookup fun w => if w ∈ words then some () else none :=
  congrArg (word >>= ·) (funext fun w => guard_eq_ofOption (w ∈ words))

/-- A keyword is one of a list with one word. -/
theorem keyword_eq (w : String) : keyword w = oneOf [w] := by
  refine congrArg (word >>= ·) (funext fun found => ?_)
  by_cases hfound : found = w
  · rw [guard_eq, guard_eq, if_pos hfound, if_pos (List.mem_singleton.mpr hfound)]
  · rw [guard_eq, guard_eq, if_neg hfound,
      if_neg fun hmem => hfound (List.mem_singleton.mp hmem)]

/-- A word without meaning. -/
theorem agrees_oneOf {words : List String} (hx : x.pattern = wordOf words)
    (hnoise : x.isNoise = true) (hd : 0 < d) :
    Agrees (fun _ ts => Pair.Noise ts) 1 n (oneOf words)
      ((Pattern.part x).pairs (Part.take d)) := by
  rw [oneOf_eq]
  refine (agrees_lookup hx hd fun w => by by_cases hw : w ∈ words <;> simp [hw]).imp ?_
  rintro _ ts ⟨w, _, rfl⟩ t ht
  rw [List.mem_singleton.mp ht]
  exact ⟨hnoise, rfl⟩

/-- A keyword agrees with a token that is noise. -/
theorem agrees_keyword {w : String} (hx : x.pattern = wordOf [w]) (hnoise : x.isNoise = true)
    (hd : 0 < d) :
    Agrees (fun _ ts => Pair.Noise ts) 1 n (keyword w) ((Pattern.part x).pairs (Part.take d)) := by
  rw [keyword_eq]
  exact agrees_oneOf hx hnoise hd

/-! ## Names -/

/-- No quotes are dropped where there are none. -/
theorem dropWhile_quote {l : List Char} (h : '"' ∉ l) : l.dropWhile (· = '"') = l := by
  cases l with
  | nil => rfl
  | cons c l =>
      have hc : c ≠ '"' := fun hc => h (hc ▸ List.mem_cons_self)
      simp [hc]

/-- A bare name has no quotes to trim. -/
theorem trimQuotes_bare {w : String} (h : '"' ∉ w.toList) : Pair.trimQuotes w = w := by
  rw [Pair.trimQuotes, dropWhile_quote h, dropWhile_quote (by simpa using h), List.reverse_reverse,
    String.ofList_toList]

/-- The quotes around a name are trimmed, and no others. -/
theorem trimQuotes_quoted {w : String} (h : '"' ∉ w.toList) :
    Pair.trimQuotes (String.ofList ('"' :: (w.toList ++ ['"']))) = w := by
  have hfront : ('"' :: (w.toList ++ ['"'])).dropWhile (· = '"') =
      (w.toList ++ ['"']).dropWhile (· = '"') := by simp
  have hback : ('"' :: w.toList.reverse).dropWhile (· = '"') = w.toList.reverse := by
    rw [List.dropWhile_cons_of_pos (by simp), dropWhile_quote (by simpa using h)]
  rw [Pair.trimQuotes, String.toList_ofList, hfront]
  cases hw : w.toList with
  | nil => rw [← String.ofList_toList (s := w), hw]; rfl
  | cons c l =>
      have hc : c ≠ '"' := fun hc => h (hw ▸ hc ▸ List.mem_cons_self)
      rw [List.cons_append, List.dropWhile_cons_of_neg (by simpa using hc), ← List.cons_append,
        ← hw, List.reverse_append, List.reverse_singleton, List.singleton_append, hback,
        List.reverse_reverse, String.ofList_toList]

/-- A name has one pair, whose text is the name with or without quotes. -/
theorem name_pairs (d : Nat) (s : List Char) :
    name s = none ∧ anyName.pairs (Part.take (d + 1)) s = none ∨
      ∃ w rest t, name s = some (w, rest) ∧ anyName.pairs (Part.take (d + 1)) s = some ([t], rest) ∧
        Pair.trimQuotes t.text = w ∧ rest.length ≤ s.length := by
  have hpairs : anyName.pairs (Part.take (d + 1)) s =
      ((quotedName s).map fun u => ([Pair.mk .quoted (taken s u.2) []], u.2)).orElse fun _ =>
        (bareName s).map fun u => ([.mk .name (taken s u.2) []], u.2) := by
    rw [anyName, Pattern.pairs, orElse_apply, leaf_apply (x := .quoted) rfl,
      leaf_apply (x := .name) rfl, bind_apply, bind_apply]
    cases quotedName s <;> cases bareName s <;> rfl
  rw [name, orElse_apply, hpairs]
  cases hquoted : quotedName s with
  | some u =>
      obtain ⟨w, rest⟩ := u
      obtain ⟨rfl, hw⟩ := quotedName_eq_some.mp hquoted
      refine .inr ⟨w, rest, .mk .quoted _ [], rfl, rfl, ?_, ?_⟩
      · rw [Pair.text, taken_append, trimQuotes_quoted hw]
      · rw [List.length_append]
        exact Nat.le_add_left _ _
  | none =>
      cases hbare : bareName s with
      | none => exact .inl ⟨rfl, rfl⟩
      | some u =>
          obtain ⟨w, rest⟩ := u
          obtain ⟨rfl, _, hall, _⟩ := run1_eq_some.mp hbare
          refine .inr ⟨w, rest, .mk .name _ [], rfl, rfl, ?_, by simp⟩
          rw [Pair.text, taken_append, String.ofList_toList, trimQuotes_bare (IsWord.unquoted hall)]

/-- A local or a global is one pair that holds its name. -/
theorem agrees_sigil {c : Char} (hx : x.pattern = joined (sign c) anyName) (hd : 2 < d) :
    Agrees (fun w ts => ∃ t, ts = [t] ∧ t.part = x ∧ t.ident = w) 1 n
      (lexeme (do char c; name)) ((Pattern.part x).pairs (Part.take d)) := by
  obtain ⟨d, rfl⟩ := Nat.exists_eq_add_one_of_ne_zero (n := d) (by omega)
  obtain ⟨d, rfl⟩ := Nat.exists_eq_add_one_of_ne_zero (n := d) (by omega)
  intro s _
  have hp : (lexeme (do char c; name)) s = (char c (skip false s)).bind fun u => name u.2 := rfl
  have hq : (joined (sign c) anyName).pairs (Part.take (d + 1)) (skip false s) =
      (char c (skip false s)).bind fun u => anyName.pairs (Part.take (d + 1)) u.2 := by
    have hmark : mark c (skip false s) = char c (skip false s) := congrArg (char c) (skip_skip _ s)
    rw [Pattern.pairs, bind_apply, sign, Pattern.pairs, bind_apply, hmark]
    cases char c (skip false s) with
    | none => rfl
    | some u => exact congrFun (bind_pure (anyName.pairs (Part.take (d + 1)))) u.2
  rw [part_apply, hx, hp, hq]
  cases hc : char c (skip false s) with
  | none => exact .inl ⟨rfl, rfl⟩
  | some u =>
      obtain ⟨_, t⟩ := u
      have ht := char_eq_some.mp hc
      obtain ⟨hname, hnames⟩ | ⟨w, rest, v, hname, hnames, hw, hless⟩ := name_pairs d t
      · exact .inl ⟨hname, by rw [Option.bind_some, hnames]; rfl⟩
      · refine .inr ⟨w, rest, _, rest, hname, by rw [Option.bind_some, hnames]; rfl,
          ⟨.mk x _ [v], rfl, rfl, hw⟩, rfl, ?_⟩
        have hweight : weight s = t.length + 1 := by rw [weight, ht, List.length_cons]
        have := weight_le rest
        omega

/-- A local name agrees with its pair, whose identifier is the name. -/
theorem agrees_localName (hd : 2 < d) :
    Agrees (fun w ts => ∃ t, ts = [t] ∧ t.part = .local ∧ t.ident = w) 1 n localName
      ((Pattern.part .local).pairs (Part.take d)) := agrees_sigil rfl hd

/-- So does a global name. -/
theorem agrees_globalName (hd : 2 < d) :
    Agrees (fun w ts => ∃ t, ts = [t] ∧ t.part = .global ∧ t.ident = w) 1 n globalName
      ((Pattern.part .global).pairs (Part.take d)) := agrees_sigil rfl hd

/-- The label of a block is one pair that holds its name. -/
theorem agrees_label (hd : 2 < d) :
    Agrees (fun w ts => ∃ t, ts = [t] ∧ t.part = .label ∧ t.ident = w) 1 n Lexeme.label
      ((Pattern.part .label).pairs (Part.take d)) := by
  obtain ⟨d, rfl⟩ := Nat.exists_eq_add_one_of_ne_zero (n := d) (by omega)
  obtain ⟨d, rfl⟩ := Nat.exists_eq_add_one_of_ne_zero (n := d) (by omega)
  intro s _
  have hp : Lexeme.label s = (name (skip false s)).bind fun u =>
      (char ':' u.2).bind fun v => some (u.1, v.2) := rfl
  have hq : (joined anyName (token (char ':'))).pairs (Part.take (d + 1)) (skip false s) =
      (anyName.pairs (Part.take (d + 1)) (skip false s)).bind fun u =>
        (char ':' u.2).bind fun v => some (u.1, v.2) := by
    rw [Pattern.pairs, bind_apply]
    congr 1
    funext u
    rw [bind_apply, Pattern.pairs, bind_apply]
    cases char ':' u.2 with
    | none => rfl
    | some v => exact congrArg (fun ts => some (ts, v.2)) (List.append_nil u.1)
  rw [part_apply, show Part.label.pattern = joined anyName (token (char ':')) from rfl, hp, hq]
  obtain ⟨hname, hnames⟩ | ⟨w, rest, v, hname, hnames, hw, hless⟩ := name_pairs d (skip false s)
  · rw [hname, hnames]
    exact .inl ⟨rfl, rfl⟩
  · rw [hname, hnames, Option.bind_some, Option.bind_some]
    cases hc : char ':' rest with
    | none => exact .inl ⟨rfl, rfl⟩
    | some u =>
        obtain ⟨_, t⟩ := u
        refine .inr ⟨w, t, _, t, rfl, rfl, ⟨.mk .label _ [v], rfl, rfl, hw⟩, rfl, ?_⟩
        have hrest : rest.length = t.length + 1 := by
          rw [char_eq_some.mp hc, List.length_cons]
        have hweight : weight s = (skip false s).length := rfl
        have := weight_le t
        omega

/-! ## Numbers and literals -/

/-- A lexeme gives the word it takes if its token gives exactly what it takes, and something. -/
theorem spelled_lexeme {p : Reader String} (hp : p.Exact [])
    (hne : ∀ {s w rest}, p s = some (w, rest) → w.toList ≠ []) : Spelled (lexeme p) where
  past s := congrArg p (skip_skip false s)
  text {s w rest} h := by
    change p (skip false s) = some (w, rest) at h
    exact ⟨hne h, by simpa using hp _ _ _ h⟩

/-- A whole number starts with a digit or a minus sign. -/
theorem integer_gives : integer.Gives NumberLike :=
  gives_bind fun _ => minus_gives.bind fun sign hsign => digits_gives.bind fun whole hwhole =>
    gives_pure (by simpa using numberLike_append hsign hwhole "")

/-- An integer is given as it is taken. -/
theorem spelled_integer : Spelled integer := by
  have hexact : (do
      let sign ← minus
      let whole ← digits
      return sign ++ whole).Exact [] :=
    exact_minus.bind fun sign => exact_digits.bind fun whole => exact_pure (by simp)
  refine spelled_lexeme hexact fun {s w rest} h => ?_
  have hgives : (do
      let sign ← minus
      let whole ← digits
      return sign ++ whole).Gives fun w => w.toList ≠ [] :=
    gives_bind fun sign => digits_gives.bind fun whole hwhole => gives_pure (by
      obtain ⟨c, rest, hc, _⟩ := hwhole
      simp [hc])
  exact hgives s w rest h

/-- So is a decimal number. -/
theorem spelled_float : Spelled float := by
  refine spelled_lexeme (exact_bitPattern.orElse (exact_decimal.orElse exact_scientific))
    fun {s w rest} h => ?_
  have hbits : bitPattern.Gives fun w => w.toList ≠ [] :=
    gives_bind fun _ => gives_bind fun _ => gives_bind fun bits => gives_pure (by simp)
  have hdecimal : decimal.Gives fun w => w.toList ≠ [] :=
    gives_bind fun sign => gives_bind fun whole => gives_bind fun _ => gives_bind fun fraction =>
      gives_bind fun power => gives_pure (by simp)
  have hscientific : scientific.Gives fun w => w.toList ≠ [] :=
    gives_bind fun sign => digits_gives.bind fun whole hwhole => gives_bind fun power =>
      gives_pure (by
        obtain ⟨c, rest, hc, _⟩ := hwhole
        simp [hc])
  exact hbits.orElse (hdecimal.orElse hscientific) s w rest h

/-- A word if it is one of `words`. -/
def among (words : List String) (w : String) : Option String := if w ∈ words then some w else none

/-- A word of two lists is one of the first or else of the second. -/
theorem among_append (words more : List String) (w : String) :
    among (words ++ more) w = (among words w).orElse fun _ => among more w := by
  by_cases hw : w ∈ words <;> simp [among, hw]

/-- A word is looked up once it is taken. -/
theorem lookup_apply (meaning : String → Option α) (s : List Char) :
    lookup meaning s = (word s).bind fun u => (meaning u.1).map fun a => (a, u.2) := rfl

/-- What one of two tables has is read by the first that has it. -/
theorem lookup_orElse {meaning f g : String → Option α}
    (h : ∀ w, meaning w = (f w).orElse fun _ => g w) :
    lookup meaning = (lookup f <|> lookup g) := by
  funext s
  rw [orElse_apply, lookup_apply, lookup_apply, lookup_apply]
  cases word s with
  | none => rfl
  | some u =>
      simp only [Option.bind_some, h]
      cases f u.1 <;> rfl

/-- The words among the literals are truth values, the null pointer and the undefined ones. -/
theorem literalWord_eq : literalWord = (lookup (among ["true", "false"]) <|>
    lookup (among ["null"]) <|> lookup (among ["undef", "poison", "zeroinitializer"])) := by
  have hall : literalWord = lookup (among literalWords) :=
    congrArg (word >>= ·) (funext fun w => guard_then (w ∈ literalWords) w)
  have hnull : lookup (among ["null", "undef", "poison", "zeroinitializer"]) =
      (lookup (among ["null"]) <|> lookup (among ["undef", "poison", "zeroinitializer"])) :=
    lookup_orElse (among_append ["null"] _)
  rw [hall, ← hnull]
  exact lookup_orElse (among_append ["true", "false"] _)

/-- One of a list of words agrees with its token. -/
theorem agrees_among {words : List String} (hx : x.pattern = wordOf words) (hd : 0 < d) :
    Agrees (fun w ts => ts = [.mk x w []]) 1 n (lookup (among words))
      ((Pattern.part x).pairs (Part.take d)) := by
  refine (agrees_lookup hx hd fun w => by by_cases hw : w ∈ words <;> simp [among, hw]).imp ?_
  rintro w ts ⟨v, hv, rfl⟩
  rw [among] at hv
  split at hv <;> cases hv
  rfl

/-- A literal is one pair, whose text is the literal. -/
theorem agrees_literal (hd : 0 < d) :
    Agrees (fun w ts => ∃ t, ts = [t] ∧ t.part ≠ .local ∧ t.part ≠ .global ∧ t.text = w) 1 n literal
      ((firstOf (part .floatLiteral) [part .intLiteral, part .boolLiteral, part .nullLiteral,
        part .undefLiteral]).pairs (Part.take d)) := by
  have hone : ∀ {x : Part} {w : String} {ts : List Pair}, x ≠ .local → x ≠ .global →
      ts = [.mk x w []] → ∃ t, ts = [t] ∧ t.part ≠ .local ∧ t.part ≠ .global ∧ t.text = w :=
    fun hl hg hts => ⟨_, hts, hl, hg, rfl⟩
  rw [literal, literalWord_eq]
  refine .either ((spelled_float.agrees rfl hd).imp ?_) <|
    .either ((spelled_integer.agrees rfl hd).imp ?_) <| .either ((agrees_among rfl hd).imp ?_) <|
    .either ((agrees_among rfl hd).imp ?_) ((agrees_among rfl hd).imp ?_)
  all_goals exact fun w ts => hone (by decide) (by decide)

/-! ## Words that are types -/

/-- The integer type that a word names. -/
def intWord? (w : String) : Option Surface.TypeText :=
  match w.toList with
  | 'i' :: d :: ds =>
    if (d :: ds).all Char.isDigit then some (.int (String.ofList (d :: ds))) else none
  | _ => none

/-- The type that a word names if it is one of `words`. -/
def namedWord? (words : List String) (w : String) : Option Surface.TypeText :=
  if w ∈ words then Surface.typeOfWord? w else none

/-- The words that are floats. -/
def floatWords : List String := ["half", "bfloat", "float", "double", "fp128", "x86_fp80"]

/-- A word that reads as an integer type is one. -/
theorem typeOfWord?_of_intWord? {w : String} {τ : Surface.TypeText} (h : intWord? w = some τ) :
    Surface.typeOfWord? w = some τ := by
  rw [intWord?] at h
  split at h
  · rename_i hw
    delta Surface.typeOfWord?
    rw [hw]
    exact h
  · cases h

/-- Any other word that names a type is one of three kinds. -/
theorem named_of_typeOfWord? {w : String} {τ : Surface.TypeText}
    (h : Surface.typeOfWord? w = some τ) (hint : intWord? w = none) :
    w ∈ floatWords ∨ w = "ptr" ∨ w = "void" := by
  unfold Surface.typeOfWord? at h
  split at h
  · rename_i hw
    rw [intWord?, hw] at hint
    cases h.symm.trans hint
  · split at h <;> first | decide | cases h

/-- A word that is a type is an integer type, a float, `ptr` or `void`. -/
theorem typeOfWord?_eq (w : String) : Surface.typeOfWord? w = (intWord? w).orElse fun _ =>
    (namedWord? floatWords w).orElse fun _ => (namedWord? ["ptr"] w).orElse fun _ =>
      namedWord? ["void"] w := by
  cases hint : intWord? w with
  | some τ => exact typeOfWord?_of_intWord? hint
  | none =>
      rw [Option.orElse_none]
      cases htype : Surface.typeOfWord? w with
      | none => simp [namedWord?, htype]
      | some τ =>
          obtain hword | rfl | rfl := named_of_typeOfWord? htype hint
          · rw [namedWord?, if_pos hword, htype]
            rfl
          · simp [namedWord?, floatWords, htype]
          · simp [namedWord?, floatWords, htype]

/-- The integer types are the words that are types and start with an `i`. -/
theorem isSome_intWord? (w : String) : (intWord? w).isSome =
    (w.startsWith "i" && Surface.typeOfWord? w != none) := by
  cases hint : intWord? w with
  | some τ =>
      have hstart : w.startsWith "i" = true := by
        rw [intWord?] at hint
        split at hint
        · rename_i hw
          simp [hw]
        · cases hint
      simp [hstart, typeOfWord?_of_intWord? hint]
  | none =>
      symm
      simp only [Option.isSome_none, Bool.and_eq_false_iff]
      cases htype : Surface.typeOfWord? w with
      | none => exact .inr rfl
      | some τ =>
          refine .inl ?_
          have hword := named_of_typeOfWord? htype hint
          simp only [floatWords, List.mem_cons, List.not_mem_nil, or_false, or_assoc] at hword
          rcases hword with rfl | rfl | rfl | rfl | rfl | rfl | rfl | rfl <;> simp

/-- The words for floating types name types. -/
theorem isSome_floatWords : ∀ w ∈ floatWords, (Surface.typeOfWord? w).isSome = true := by
  intro w hw
  simp only [floatWords, List.mem_cons, List.not_mem_nil, or_false] at hw
  rcases hw with rfl | rfl | rfl | rfl | rfl | rfl <;> rfl

/-- A word that is a type is a pair whose text is the word. -/
theorem agrees_namedWord {words : List String} (hx : x.pattern = wordOf words) (hd : 0 < d)
    (hw : ∀ w ∈ words, (Surface.typeOfWord? w).isSome = true) :
    Agrees (fun ty ts => ∃ w ∈ words, Surface.typeOfWord? w = some ty ∧ ts = [.mk x w []]) 1 n
      (lookup (namedWord? words)) ((Pattern.part x).pairs (Part.take d)) := by
  refine (agrees_lookup hx hd fun w => ?_).imp ?_
  · by_cases hmem : w ∈ words
    · simp [namedWord?, hmem, hw w hmem]
    · simp [namedWord?, hmem]
  · rintro ty ts ⟨w, hty, rfl⟩
    rw [namedWord?] at hty
    split at hty
    · exact ⟨w, ‹_›, hty, rfl⟩
    · cases hty

/-- An integer type agrees with its token. -/
theorem agrees_intWord (hd : 0 < d) :
    Agrees (fun ty ts => ∃ w, intWord? w = some ty ∧ ts = [.mk .intType w []]) 1 n
      (lookup intWord?) ((Pattern.part .intType).pairs (Part.take d)) := by
  refine spelled_word.agrees_of rfl hd intWord? fun s => ?_
  rw [bind_apply, bind_apply]
  cases word s with
  | none => rfl
  | some u =>
      rw [Option.bind_some, Option.bind_some, guard_eq_ofOption, ← isSome_intWord?]
      cases intWord? u.1 <;> rfl

/-! ## Words that are operators -/

/-- A word names a member of a list just if it is found by the name. -/
theorem mem_names (all : List α) (name : α → String) (w : String) :
    w ∈ all.map name ↔ (all.find? (name · == w)).isSome = true := by
  simp [List.find?_isSome]

/-- The words of the grammar for operations are those that the table has. -/
theorem mem_binaryWords (w : String) : w ∈ binaryWords ↔ (BinaryOp.ofName? w).isSome = true :=
  mem_names BinaryOp.all BinaryOp.name w

/-- The words for integer predicates are their names. -/
theorem mem_intPredicateWords (w : String) :
    w ∈ intPredicateWords ↔ (IntPredicate.ofName? w).isSome = true :=
  mem_names IntPredicate.all IntPredicate.name w

/-- The words for float predicates are their names. -/
theorem mem_floatPredicateWords (w : String) :
    w ∈ floatPredicateWords ↔ (FloatPredicate.ofName? w).isSome = true :=
  mem_names FloatPredicate.all FloatPredicate.name w

/-- The words for conversions are their names. -/
theorem mem_castWords (w : String) : w ∈ castWords ↔ (CastOp.ofName? w).isSome = true :=
  mem_names CastOp.all CastOp.name w

/-! ## What means nothing for data flow -/

/-- A reader takes something if both alternatives do. -/
theorem Takes.orElse {p q : Reader α} (hp : Takes p) (hq : Takes q) : Takes (p <|> q) where
  past s := by rw [orElse_apply, orElse_apply, hp.past, hq.past]
  short {s a rest} h := by
    rw [orElse_apply] at h
    cases hps : p s with
    | none =>
        rw [hps] at h
        exact hq.short h
    | some u =>
        rw [hps] at h
        cases h
        exact hp.short hps

/-- A reader that takes something does so whatever follows it. -/
theorem Takes.bind {β : Type} {p : Reader α} {k : α → Reader β} (hp : Takes p)
    (hk : ∀ a, (k a).Cuts) : Takes (p >>= k) where
  past s := by rw [bind_apply, bind_apply, hp.past]
  short {s a rest} h := by
    rw [bind_apply, Option.bind_eq_some_iff] at h
    obtain ⟨⟨b, t⟩, hb, ht⟩ := h
    exact ((hk b).suffix ht).length_le.trans_lt (hp.short hb)

/-- A word takes something. -/
theorem takes_word : Takes word where
  past := spelled_word.past
  short {s a rest} h := by
    obtain ⟨hne, hs⟩ := spelled_word.text h
    rw [weight, hs, List.length_append]
    have := List.length_pos_iff.mpr hne
    omega

theorem takes_oneOf (words : List String) : Takes (oneOf words) :=
  takes_word.bind fun _ => cuts_guard _

theorem cuts_gap : gap.Cuts := (cuts_run1 _).bind fun _ => cuts_pure _

/-- Metadata takes something. -/
theorem takes_metadata : Takes Lexeme.metadata :=
  takes_lexeme_char fun h => (Cuts.suffix ((cuts_run1 _).bind fun _ => cuts_gap.bind fun _ =>
    (cuts_char _).bind fun _ => (cuts_run1 _).bind fun _ => cuts_pure _) h).length_le

theorem takes_attributeGroup : Takes attributeGroup :=
  takes_lexeme_char fun h => (Cuts.suffix ((cuts_run1 _).bind fun _ => cuts_pure _) h).length_le

theorem takes_alignment : Takes Lexeme.alignment := by
  unfold Lexeme.alignment
  rw [keyword_eq]
  exact (takes_oneOf _).bind fun _ => cuts_gap.bind fun _ => (cuts_run1 _).bind fun _ => cuts_pure _

/-- Readers of what means nothing for data flow leave pairs that mean nothing. -/
theorem Takes.agrees_noise {p : Reader Unit} (h : Takes p) (hx : x.pattern = token p)
    (hnoise : x.isNoise = true) (hd : 0 < d) :
    Agrees (fun _ ts => Pair.Noise ts) 1 n p ((Pattern.part x).pairs (Part.take d)) := by
  obtain ⟨d, rfl⟩ := Nat.exists_eq_add_one_of_ne_zero (n := d) (by omega)
  intro s _
  rw [leaf_apply hx, h.past]
  cases hp : p s with
  | none => exact .inl ⟨rfl, rfl⟩
  | some u =>
      refine .inr ⟨(), u.2, _, u.2, rfl, rfl, ?_, rfl, h.weight_lt hp⟩
      intro t ht
      rw [List.mem_singleton.mp ht]
      exact ⟨hnoise, rfl⟩

/-- Repeated, too. -/
theorem Agrees.many_noise {p : Reader Unit} {q : Pattern}
    (h : Agrees (fun _ ts => Pair.Noise ts) 1 n p (q.pairs (Part.take d))) :
    Agrees (fun _ ts => Pair.Noise ts) 0 n (Reader.many p) ((repeated q).pairs (Part.take d)) :=
  h.many.imp fun _ ts hts => by
    obtain ⟨tss, hall, rfl⟩ := hts
    induction hall with
    | nil => exact Pair.noise_nil
    | cons hus _ ih => exact hus.append ih

/-- Flags agree with pairs that are noise. -/
theorem agrees_flags (hd : 0 < d) :
    Agrees (fun _ ts => Pair.Noise ts) 0 n Surface.flags (Pattern.flags.pairs (Part.take d)) :=
  ((takes_oneOf _).agrees_noise rfl rfl hd).many_noise.last fun _ _ hts => hts

/-- So do the attributes of a parameter. -/
theorem agrees_paramAttributes (hd : 0 < d) :
    Agrees (fun _ ts => Pair.Noise ts) 0 n Surface.paramAttributes
      ((repeated (part .paramAttribute)).pairs (Part.take d)) :=
  ((takes_oneOf _).agrees_noise rfl rfl hd).many_noise.last fun _ _ hts => hts

/-- So do the attributes of a function. -/
theorem agrees_functionAttributes (hd : 0 < d) :
    Agrees (fun _ ts => Pair.Noise ts) 0 n Surface.functionAttributes
      ((repeated (part .functionAttribute)).pairs (Part.take d)) :=
  ((takes_attributeGroup.orElse (takes_metadata.orElse (takes_oneOf _))).agrees_noise rfl rfl
    hd).many_noise.last fun _ _ hts => hts

/-- So do words for linkage. -/
theorem agrees_linkage (hd : 0 < d) :
    Agrees (fun _ ts => Pair.Noise ts) 0 n (many (oneOf Surface.linkageWords))
      ((repeated (part .linkage)).pairs (Part.take d)) :=
  ((takes_oneOf _).agrees_noise rfl rfl hd).many_noise

/-- So does what trails a statement. -/
theorem agrees_trailers (hd : 0 < d) :
    Agrees (fun _ ts => Pair.Noise ts) 0 n (many Surface.trailer)
      ((repeated (chain (sign ',') (either (part .alignment) (part .metadata)))).pairs
        (Part.take d)) :=
  (Agrees.mark ((takes_alignment.agrees_noise rfl rfl hd).either
    (takes_metadata.agrees_noise rfl rfl hd))).many_noise

end Reader

end Dataflow
