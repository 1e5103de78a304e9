import Dataflow.Proofs.Text.Reading
import Mathlib.Data.List.TakeWhile

/-!
# Literals and what follows them

A literal is read to its end and no further: `literal_append` says that a literal in front of a text
that breaks it off is read as it is. The readers inside a literal only ask for characters that may
continue one, so they read the same in front of such a text as at the end of the input
(`Reader.Stable`), and what they give is what they took (`Reader.Exact`).
-/

namespace Dataflow

namespace Reader

variable {α β : Type} {p q : Reader α} {k : α → Reader β} {s rest : List Char}

/-- Readers one after the other: the second goes on with the rest of the first. -/
theorem bind_apply (p : Reader α) (k : α → Reader β) (s : List Char) :
    (p >>= k) s = (p s).bind fun r => k r.1 r.2 := rfl

/-- The second of two readers is tried where the first fails. -/
theorem orElse_apply (p q : Reader α) (s : List Char) :
    (p <|> q) s = (p s).orElse fun _ => q s := rfl

/-! ## Readers that do not look past a break -/

/-- A text that does not go on with a character of a word, a number or a literal. -/
def Breaks (s : List Char) : Prop := ∀ c ∈ s.head?, Symbol.isNameChar c = false ∧ c ≠ '+'

/-- A text that breaks off what is in front of it is left alone, whether the reader succeeds or
fails. -/
def Stable (p : Reader α) : Prop :=
  ∀ s rest, Breaks rest → p (s ++ rest) = (p s).map fun r => (r.1, r.2 ++ rest)

/-- A reader that reads nothing is stable. -/
theorem stable_pure (a : α) : (pure a : Reader α).Stable := fun _ _ _ => rfl

/-- Stable readers one after the other are stable. -/
theorem Stable.bind (hp : p.Stable) (hk : ∀ a, (k a).Stable) : (p >>= k).Stable := by
  intro s rest hbreaks
  rw [bind_apply, bind_apply, hp s rest hbreaks]
  cases p s with
  | none => rfl
  | some r => exact hk r.1 r.2 rest hbreaks

/-- Stable readers are stable as alternatives. -/
theorem Stable.orElse (hp : p.Stable) (hq : q.Stable) : (p <|> q).Stable := by
  intro s rest hbreaks
  rw [orElse_apply, orElse_apply, hp s rest hbreaks]
  cases p s with
  | none => exact hq s rest hbreaks
  | some r => rfl

/-- A test passes or fails without reading. -/
theorem guard_eq (c : Prop) [Decidable c] :
    (guard c : Reader Unit) = if c then pure () else fun _ => none := rfl

/-- A test reads nothing, so it is stable. -/
theorem stable_guard (c : Prop) [Decidable c] : (guard c : Reader Unit).Stable := by
  intro s rest _
  by_cases hc : c
  · rw [guard_eq, if_pos hc]
    rfl
  · rw [guard_eq, if_neg hc]
    rfl

/-- Reading a character of a name or a plus is stable. -/
theorem stable_char {c : Char} (hc : Symbol.isNameChar c = true ∨ c = '+') :
    (char c).Stable := by
  intro s rest hbreaks
  cases s with
  | nil =>
      cases rest with
      | nil => rfl
      | cons d rest =>
          have hd : d ≠ c := by
            rintro rfl
            obtain ⟨hname, hplus⟩ := hbreaks d rfl
            rcases hc with hc | hc
            · rw [hname] at hc
              cases hc
            · exact hplus hc
          simp [char, hd]
  | cons d s =>
      simp only [List.cons_append, char]
      split <;> rfl

/-- A text whose first character does not belong to a run stops the run. -/
theorem takeWhile_append_stop {f : Char → Bool} (hrest : ∀ c ∈ rest.head?, f c = false)
    (s : List Char) : (s ++ rest).takeWhile f = s.takeWhile f := by
  rw [List.takeWhile_append]
  split
  · rename_i hall
    have hstop : rest.takeWhile f = [] := by
      cases rest with
      | nil => rfl
      | cons d rest => simp [hrest d rfl]
    rw [hstop, List.append_nil, (s.takeWhile_prefix f).eq_of_length hall]
  · rfl

/-- Dropping stops where the rest would stop it. -/
theorem dropWhile_append_stop {f : Char → Bool} (hrest : ∀ c ∈ rest.head?, f c = false)
    (s : List Char) : (s ++ rest).dropWhile f = s.dropWhile f ++ rest := by
  rw [List.dropWhile_append]
  split
  · rename_i hempty
    have hstop : rest.dropWhile f = rest := by
      cases rest with
      | nil => rfl
      | cons d rest => simp [hrest d rfl]
    rw [hstop, List.isEmpty_iff.mp hempty, List.nil_append]
  · rfl

/-- A run stops where the rest would stop it. -/
theorem run1_append {f : Char → Bool} (hrest : ∀ c ∈ rest.head?, f c = false) (s : List Char) :
    run1 f (s ++ rest) = (run1 f s).map fun r => (r.1, r.2 ++ rest) := by
  rw [run1, run1, takeWhile_append_stop hrest, dropWhile_append_stop hrest]
  cases s.takeWhile f <;> rfl

/-- A run is read to its end. -/
theorem run1_text {f : Char → Bool} {text : String} (hne : text.toList ≠ [])
    (hall : text.toList.all f = true) (hrest : ∀ c ∈ rest.head?, f c = false) :
    run1 f (text.toList ++ rest) = some (text, rest) := by
  have hwhole : run1 f text.toList = some (text, []) := by
    rw [run1, List.takeWhile_eq_self_iff.mpr (List.all_eq_true.mp hall),
      List.dropWhile_eq_nil_iff.mpr (List.all_eq_true.mp hall)]
    cases htext : text.toList with
    | nil => exact absurd htext hne
    | cons c cs =>
        simp only
        rw [← htext, String.ofList_toList]
  rw [run1_append hrest, hwhole]
  rfl

/-- A run of characters of names is stable. -/
theorem stable_run1 {f : Char → Bool} (hf : ∀ c, f c = true → Symbol.isNameChar c = true) :
    (run1 f).Stable := by
  intro s rest hbreaks
  refine run1_append (fun c hc => ?_) s
  cases hfc : f c with
  | false => rfl
  | true => rw [← (hbreaks c hc).1, hf c hfc]

/-! ## Readers that give what they took -/

/-- After the characters `before`, the text that `p` gives is what was taken so far. -/
def Exact (before : List Char) (p : Reader String) : Prop :=
  ∀ s x rest, p s = some (x, rest) → before ++ s = x.toList ++ rest

variable {before : List Char} {t : Reader String} {f : String → Reader String}

/-- What was read so far is the result. -/
theorem exact_pure {x : String} (h : x.toList = before) :
    (pure x : Reader String).Exact before := by
  intro s y rest hx
  cases hx
  rw [h]

/-- A reader that gives the text it takes adds it to what was read so far. -/
theorem Exact.bind (ht : t.Exact []) (hf : ∀ x, (f x).Exact (before ++ x.toList)) :
    (t >>= f).Exact before := by
  intro s y rest hy
  obtain ⟨⟨x, s'⟩, hx, hy⟩ := Option.bind_eq_some_iff.mp hy
  have htook : s = x.toList ++ s' := ht s x s' hx
  rw [htook, ← List.append_assoc]
  exact hf x s' y rest hy

/-- A character is added to what was read so far. -/
theorem exact_char {c : Char} {f : Unit → Reader String} (hf : (f ()).Exact (before ++ [c])) :
    (char c >>= f).Exact before := by
  intro s y rest hy
  obtain ⟨⟨u, s'⟩, hc, hk⟩ := Option.bind_eq_some_iff.mp hy
  cases s with
  | nil => cases hc
  | cons d s =>
      simp only [char] at hc
      split at hc
      · rename_i hd
        cases hc
        subst hd
        have htook := hf s' y rest hk
        rwa [List.append_assoc] at htook
      · cases hc

/-- A test adds nothing. -/
theorem exact_guard {c : Prop} [Decidable c] {f : Unit → Reader String}
    (hf : (f ()).Exact before) : ((guard c : Reader Unit) >>= f).Exact before := by
  intro s y rest hy
  by_cases hc : c
  · rw [guard_eq, if_pos hc] at hy
    exact hf s y rest hy
  · rw [guard_eq, if_neg hc] at hy
    cases hy

/-- Either alternative gives what it takes. -/
theorem Exact.orElse {t u : Reader String} (ht : t.Exact before) (hu : u.Exact before) :
    (t <|> u).Exact before := by
  intro s x rest hx
  rw [orElse_apply] at hx
  cases hts : t s with
  | none =>
      rw [hts] at hx
      exact hu s x rest hx
  | some r =>
      rw [hts] at hx
      cases hx
      exact ht s x rest hts

/-- A run gives what it takes. -/
theorem exact_run1 {f : Char → Bool} : (run1 f).Exact [] := by
  intro s x rest hx
  rw [run1] at hx
  split at hx
  · cases hx
  · rename_i c cs htake
    cases hx
    rw [String.toList_ofList, ← htake, List.takeWhile_append_dropWhile, List.nil_append]

end Reader

namespace Lexeme

open Reader

/-! ## Literals -/

/-- Takes a literal. -/
def literalToken : Reader String :=
  (bitPattern <|> decimal <|> scientific)
    <|> (do
      let sign ← minus
      let whole ← digits
      return sign ++ whole)
    <|> (do
      let found ← bareName
      guard (found ∈ literalWords)
      return found)

/-- A literal is a token past blanks. -/
theorem literal_eq (s : List Char) : literal s = literalToken (skip false s) := rfl

/-- Digits are characters of names. -/
theorem isNameChar_of_isDigit {c : Char} (hc : c.isDigit = true) : Symbol.isNameChar c = true := by
  simp [Symbol.isNameChar, Char.isAlphanum, hc]

/-- So are hexadecimal digits. -/
theorem isNameChar_of_isHexDigit {c : Char} (hc : isHexDigit c = true) :
    Symbol.isNameChar c = true := by
  simp only [isHexDigit, Bool.or_eq_true, Bool.and_eq_true, decide_eq_true_eq, Char.le_def,
    UInt32.le_iff_toNat_le] at hc
  have hbounds : 'a'.val.toNat = 97 ∧ 'f'.val.toNat = 102 ∧ 'A'.val.toNat = 65 ∧
      'F'.val.toNat = 70 ∧ 'z'.val.toNat = 122 ∧ 'Z'.val.toNat = 90 := by decide
  have hranges : c.isAlphanum = (decide ('A'.val ≤ c.val ∧ c.val ≤ 'Z'.val) ||
      (decide ('a'.val ≤ c.val) && decide (c.val ≤ 'z'.val)) || c.isDigit) := rfl
  suffices h : c.isAlphanum = true by simp [Symbol.isNameChar, h]
  simp only [hranges, Bool.or_eq_true, Bool.and_eq_true, decide_eq_true_eq, UInt32.le_iff_toNat_le]
  rcases hc with (hc | hc) | hc
  · exact Or.inr hc
  · omega
  · omega

/-- A minus sign is taken or not, whatever follows a break. -/
theorem stable_minus : minus.Stable :=
  ((stable_char (by decide)).bind fun _ => stable_pure _).orElse (stable_pure _)

/-- A run of digits ends at a break. -/
theorem stable_digits : digits.Stable := stable_run1 fun _ => isNameChar_of_isDigit

/-- An exponent ends at a break. -/
theorem stable_exponent : exponent.Stable := by
  refine .bind (.orElse ?_ ?_) fun _ => .bind (.orElse ?_ stable_minus) fun _ =>
    stable_digits.bind fun _ => stable_pure _
  all_goals exact (stable_char (by decide)).bind fun _ => stable_pure _

/-- A literal takes characters of names and plus signs only, so it is stable. -/
theorem stable_literalToken : literalToken.Stable := by
  have hbits : bitPattern.Stable :=
    (stable_char (by decide)).bind fun _ => (stable_char (by decide)).bind fun _ =>
      (stable_run1 fun _ => isNameChar_of_isHexDigit).bind fun _ => stable_pure _
  have hdecimal : decimal.Stable :=
    stable_minus.bind fun _ => stable_digits.bind fun _ => (stable_char (by decide)).bind fun _ =>
      (stable_digits.orElse (stable_pure _)).bind fun _ =>
        (stable_exponent.orElse (stable_pure _)).bind fun _ => stable_pure _
  have hscientific : scientific.Stable :=
    stable_minus.bind fun _ => stable_digits.bind fun _ => stable_exponent.bind fun _ =>
      stable_pure _
  exact (hbits.orElse (hdecimal.orElse hscientific)).orElse
    ((stable_minus.bind fun _ => stable_digits.bind fun _ => stable_pure _).orElse
      ((stable_run1 fun _ hc => hc).bind fun _ => (stable_guard _).bind fun _ => stable_pure _))

/-- A minus sign is given as it is taken. -/
theorem exact_minus : minus.Exact [] :=
  .orElse (exact_char (exact_pure rfl)) (exact_pure rfl)

/-- Digits are given as they are taken. -/
theorem exact_digits : digits.Exact [] := exact_run1

/-- An exponent is given as it is taken. -/
theorem exact_exponent : exponent.Exact [] := by
  refine .bind (.orElse (exact_char (exact_pure rfl)) (exact_char (exact_pure rfl))) fun letter =>
    .bind (.orElse (exact_char (exact_pure rfl)) exact_minus) fun sign =>
    exact_digits.bind fun power => exact_pure ?_
  simp

/-- A bit pattern is given as it is taken. -/
theorem exact_bitPattern : bitPattern.Exact [] := by
  refine exact_char <| exact_char <| exact_run1.bind fun bits => exact_pure ?_
  simp

/-- A decimal is given as it is taken. -/
theorem exact_decimal : decimal.Exact [] := by
  refine exact_minus.bind fun sign => exact_digits.bind fun whole => exact_char <|
    .bind (exact_digits.orElse (exact_pure rfl)) fun fraction =>
    .bind (exact_exponent.orElse (exact_pure rfl)) fun power => exact_pure ?_
  simp

/-- A number in scientific form is given as it is taken. -/
theorem exact_scientific : scientific.Exact [] := by
  refine exact_minus.bind fun sign => exact_digits.bind fun whole =>
    exact_exponent.bind fun power => exact_pure ?_
  simp

/-- A literal gives exactly the text it takes. -/
theorem exact_literalToken : literalToken.Exact [] := by
  refine .orElse (exact_bitPattern.orElse (exact_decimal.orElse exact_scientific)) (.orElse ?_ ?_)
  · refine exact_minus.bind fun sign => exact_digits.bind fun whole => exact_pure ?_
    simp
  · exact exact_run1.bind fun found => exact_guard (exact_pure (by simp))

/-- A literal as the grammar has it. -/
def IsLiteral (text : String) : Prop := literal text.toList = some (text, [])

/-- Whether a text is a literal is decided by reading it. -/
instance (text : String) : Decidable (IsLiteral text) := decEq _ _

/-- A text starts as a number does. -/
def NumberLike (text : String) : Prop :=
  ∃ c rest, text.toList = c :: rest ∧ (c.isDigit = true ∨ c = '-')

/-- A sign is a minus or nothing. -/
theorem minus_gives : minus.Gives fun sign => sign = "-" ∨ sign = "" :=
  .orElse (gives_bind fun _ => gives_pure (Or.inl rfl)) (gives_pure (Or.inr rfl))

/-- Digits start with a digit. -/
theorem digits_gives : digits.Gives fun whole =>
    ∃ c rest, whole.toList = c :: rest ∧ c.isDigit = true := by
  intro s whole rest h
  simp only [digits, run1] at h
  split at h
  · cases h
  · rename_i c cs htake
    cases h
    refine ⟨c, cs, String.toList_ofList, ?_⟩
    exact List.mem_takeWhile_imp (htake ▸ List.mem_cons_self : c ∈ s.takeWhile Char.isDigit)

/-- What has a sign and digits in front is like a number. -/
theorem numberLike_append {sign whole : String} (hsign : sign = "-" ∨ sign = "")
    (hwhole : ∃ c rest, whole.toList = c :: rest ∧ c.isDigit = true) (more : String) :
    NumberLike (sign ++ whole ++ more) := by
  obtain ⟨c, rest, hc, hdigit⟩ := hwhole
  rcases hsign with rfl | rfl
  · exact ⟨'-', whole.toList ++ more.toList, by simp, Or.inr rfl⟩
  · exact ⟨c, rest ++ more.toList, by simp [hc], Or.inl hdigit⟩

/-- A literal starts as a number does or is one of a few words. -/
theorem literalToken_gives :
    literalToken.Gives fun text => NumberLike text ∨ text ∈ literalWords := by
  refine .orElse (.orElse ?bits (.orElse ?decimal ?scientific)) (.orElse ?whole ?word)
  case bits =>
    refine gives_bind fun _ => gives_bind fun _ => gives_bind fun bits => gives_pure (Or.inl ?_)
    exact ⟨'0', 'x' :: bits.toList, by simp, Or.inl rfl⟩
  case decimal =>
    refine minus_gives.bind fun sign hsign => digits_gives.bind fun whole hwhole => ?_
    refine gives_bind fun _ => gives_bind fun fraction => gives_bind fun power =>
      gives_pure (Or.inl ?_)
    simpa [String.append_assoc] using numberLike_append hsign hwhole ("." ++ fraction ++ power)
  case scientific =>
    refine minus_gives.bind fun sign hsign => digits_gives.bind fun whole hwhole => ?_
    exact gives_bind fun power => gives_pure (Or.inl (numberLike_append hsign hwhole power))
  case whole =>
    refine minus_gives.bind fun sign hsign => digits_gives.bind fun whole hwhole => ?_
    refine gives_pure (Or.inl ?_)
    simpa using numberLike_append hsign hwhole ""
  case word =>
    refine gives_bind fun found => ?_
    intro s text rest h
    by_cases hmem : found ∈ literalWords
    · rw [guard_eq, if_pos hmem] at h
      cases h
      exact Or.inr hmem
    · rw [guard_eq, if_neg hmem] at h
      cases h

/-- What starts as a literal does starts with a character that may stand in a name. -/
theorem literal_head {text : String} (h : NumberLike text ∨ text ∈ literalWords) :
    ∃ c rest, text.toList = c :: rest ∧ Symbol.isNameChar c = true := by
  rcases h with ⟨c, rest, hc, hdigit | rfl⟩ | hword
  · exact ⟨c, rest, hc, isNameChar_of_isDigit hdigit⟩
  · exact ⟨'-', rest, hc, rfl⟩
  · simp only [literalWords, List.mem_cons, List.not_mem_nil, or_false] at hword
    rcases hword with rfl | rfl | rfl | rfl | rfl | rfl <;> exact ⟨_, _, rfl, rfl⟩

section

variable {text : String} (h : IsLiteral text)

include h

/-- A literal has no blank in front. -/
theorem IsLiteral.token : literalToken text.toList = some (text, []) := by
  rw [IsLiteral, literal_eq] at h
  have htook := exact_literalToken _ _ _ h
  rw [List.nil_append, List.append_nil] at htook
  rwa [htook] at h

/-- A literal is like a number, or one of the words for a constant. -/
theorem IsLiteral.cases : NumberLike text ∨ text ∈ literalWords :=
  literalToken_gives _ _ _ h.token

/-- A literal in front of a break is read as it is. -/
theorem IsLiteral.append {rest : List Char} (hrest : Breaks rest) :
    literalToken (text.toList ++ rest) = some (text, rest) := by
  rw [stable_literalToken _ _ hrest, h.token]
  rfl

/-- The first character of a literal may stand in a name. -/
theorem IsLiteral.head : ∃ c rest, text.toList = c :: rest ∧ Symbol.isNameChar c = true :=
  literal_head h.cases

end

end Lexeme

end Dataflow
