import Dataflow.Proofs.Text.Pieces

/-!
# Literals that were read

What is read as a literal is a literal (`Lexeme.literal_gives`), wherever it stood: read alone, its
characters give the same. Where a reader stops inside a text it must not depend on what it leaves
(`Reader.Cuts`), and a form that failed on the longer text must fail on the shorter one
(`Reader.Persists`). The readers that a literal starts with go as far as they can (`Reader.Sharp`),
so what fails behind them fails also at the end of a text.
-/

namespace Dataflow

namespace Reader

variable {α β : Type} {p q : Reader α} {k : α → Reader β}

/-! ## Readers that stop inside a text -/

/-- A reader takes characters off the front, and where it stops inside a text it does not depend on
what it leaves. -/
structure Cuts (p : Reader α) : Prop where
  /-- What is left is an end of the text. -/
  suffix : ∀ {s a r}, p s = some (a, r) → r <:+ s
  /-- Where all of `rest` is left, the same is read without it. -/
  cut : ∀ {s rest a r}, p (s ++ rest) = some (a, r ++ rest) → p s = some (a, r)

/-- A reader that fails on a text fails on a shorter one. -/
def Persists (p : Reader α) : Prop := ∀ s rest, p (s ++ rest) = none → p s = none

/-- A reader whose end can be seen: one that goes on into `rest` leaves nothing where `rest` is
missing. -/
structure Sharp (p : Reader α) : Prop extends Cuts p where
  /-- It fails on a text that is shorter than one it fails on. -/
  persists : p.Persists
  /-- It leaves nothing where it could go on. -/
  exhausts : ∀ {s rest a r b t}, p (s ++ rest) = some (a, r) → r.length < rest.length →
    p s = some (b, t) → t = []

/-- A reader of at most one character. -/
structure Single (p : Reader α) : Prop extends Cuts p where
  /-- It fails on a text that is shorter than one it fails on. -/
  persists : p.Persists
  /-- It takes at most one character. -/
  short : ∀ {s a r}, p s = some (a, r) → s.length ≤ r.length + 1

theorem cuts_pure (a : α) : (pure a : Reader α).Cuts where
  suffix h := by
    cases h
    exact List.suffix_rfl
  cut h := by
    obtain ⟨rfl, hrest⟩ := Prod.mk.inj (Option.some.inj h)
    rw [List.append_cancel_right hrest]
    rfl

theorem cuts_guard (c : Prop) [Decidable c] : (guard c : Reader Unit).Cuts := by
  by_cases hc : c
  · rw [guard_eq, if_pos hc]
    exact cuts_pure ()
  · rw [guard_eq, if_neg hc]
    constructor <;> intros <;> contradiction

/-- A character is taken off a text that starts with it, and from no other. -/
theorem char_eq_some {c : Char} {s r : List Char} {u : Unit} :
    char c s = some (u, r) ↔ s = c :: r := by
  cases s with
  | nil => simp [char]
  | cons d s =>
      rw [char, List.cons.injEq]
      split <;> simp [*]

/-- A character may be cut from what follows. -/
theorem cuts_char (c : Char) : (char c).Cuts where
  suffix h := ⟨[c], (char_eq_some.mp h).symm⟩
  cut {s rest a r} h := by
    rw [char_eq_some, ← List.cons_append] at h
    exact char_eq_some.mpr (List.append_cancel_right h)

/-- What a run takes and where it stops. -/
theorem run1_eq_some {f : Char → Bool} {s r : List Char} {x : String} :
    run1 f s = some (x, r) ↔ s = x.toList ++ r ∧ x.toList ≠ [] ∧ x.toList.all f = true ∧
      ∀ c ∈ r.head?, f c = false := by
  refine ⟨fun h => ?_, fun ⟨hs, hne, hall, hstop⟩ => hs ▸ run1_text hne hall hstop⟩
  have hs := exact_run1 s x r h
  rw [run1] at h
  split at h
  · cases h
  · rename_i c cs htake
    cases h
    refine ⟨hs, by simp, ?_, fun d hd => ?_⟩
    · rw [String.toList_ofList, ← htake]
      exact List.all_takeWhile
    · have hstop := List.head?_dropWhile_not f s
      rw [hd] at hstop
      exact hstop

/-- A run of characters may be cut from what follows. -/
theorem cuts_run1 (f : Char → Bool) : (run1 f).Cuts where
  suffix {s x r} h := ⟨x.toList, (run1_eq_some.mp h).1.symm⟩
  cut {s rest x r} h := by
    obtain ⟨hs, hne, hall, hstop⟩ := run1_eq_some.mp h
    rw [← List.append_assoc] at hs
    refine run1_eq_some.mpr ⟨List.append_cancel_right hs, hne, hall, fun c hc => hstop c ?_⟩
    cases r with
    | nil => cases hc
    | cons d r => exact hc

/-- Readers in sequence may be cut when each may. -/
theorem Cuts.bind (hp : p.Cuts) (hk : ∀ a, (k a).Cuts) : (p >>= k).Cuts where
  suffix h := by
    obtain ⟨⟨a, t⟩, hpt, hkt⟩ := Option.bind_eq_some_iff.mp h
    exact ((hk a).suffix hkt).trans (hp.suffix hpt)
  cut {s rest b r} h := by
    obtain ⟨⟨a, t⟩, hpt, hkt⟩ := Option.bind_eq_some_iff.mp h
    obtain ⟨t, rfl⟩ := ((List.suffix_append r rest).trans ((hk a).suffix hkt))
    rw [bind_apply, hp.cut hpt]
    exact (hk a).cut hkt

/-- A choice may be cut when its first reader also fails on shorter texts. -/
theorem Cuts.orElse (hp : p.Cuts) (hpersists : p.Persists) (hq : q.Cuts) : (p <|> q).Cuts where
  suffix {s a r} h := by
    rw [orElse_apply] at h
    cases hps : p s with
    | none =>
        rw [hps] at h
        exact hq.suffix h
    | some b =>
        rw [hps] at h
        cases h
        exact hp.suffix hps
  cut {s rest a r} h := by
    rw [orElse_apply] at h ⊢
    cases hps : p (s ++ rest) with
    | none =>
        rw [hps] at h
        rw [hpersists s rest hps]
        exact hq.cut h
    | some b =>
        rw [hps] at h
        cases h
        rw [hp.cut hps]
        rfl

/-! ### Failing -/

/-- A text that does not start with a character still does not when it is cut. -/
theorem persists_char (c : Char) : (char c).Persists := by
  intro s rest h
  cases s with
  | nil => rfl
  | cons d s =>
      rw [List.cons_append, char] at h
      rw [char]
      split at h
      · cases h
      · exact if_neg ‹_›

/-- A text that starts no run still starts none when it is cut. -/
theorem persists_run1 (f : Char → Bool) : (run1 f).Persists := by
  intro s rest h
  rw [Option.eq_none_iff_forall_ne_some]
  rintro ⟨x, r⟩ hx
  obtain ⟨rfl, hne, hall, _⟩ := run1_eq_some.mp hx
  obtain ⟨c, cs, hc⟩ := List.exists_cons_of_ne_nil hne
  have hfc : f c = true := List.all_eq_true.mp hall c (hc ▸ List.mem_cons_self)
  rw [hc, List.cons_append, List.cons_append, run1, List.takeWhile_cons_of_pos hfc] at h
  cases h

/-- A choice fails on shorter texts when both its readers do. -/
theorem Persists.orElse (hp : p.Persists) (hq : q.Persists) : (p <|> q).Persists := by
  intro s rest h
  rw [orElse_apply] at h ⊢
  cases hps : p (s ++ rest) with
  | none =>
      rw [hps] at h
      rw [hp s rest hps]
      exact hq s rest h
  | some a =>
      rw [hps] at h
      cases h

/-- A choice with a value to fall back on never fails. -/
theorem orElse_pure_ne_none (a : α) (s : List Char) : (p <|> pure a) s ≠ none := by
  rw [orElse_apply]
  cases p s <;> exact Option.some_ne_none _

/-- A sequence of readers that do not fail does not fail. -/
theorem bind_ne_none {s : List Char} (hp : p s ≠ none) (hk : ∀ a t, k a t ≠ none) :
    (p >>= k) s ≠ none := by
  obtain ⟨⟨a, t⟩, ha⟩ := Option.ne_none_iff_exists'.mp hp
  rw [bind_apply, ha]
  exact hk a t

/-- What always goes on fails where its first part does. -/
theorem Persists.bind_total (hp : p.Persists) (hk : ∀ a s, k a s ≠ none) : (p >>= k).Persists := by
  intro s rest h
  rw [bind_apply, Option.bind_eq_none_iff] at h
  have hnone : p (s ++ rest) = none := by
    rw [Option.eq_none_iff_forall_ne_some]
    exact fun r hr => hk r.1 r.2 (h r hr)
  rw [bind_apply, hp s rest hnone]
  rfl

/-- What needs a character after its first part fails on a shorter text. -/
theorem Sharp.persists_bind (hp : p.Sharp) (hk : ∀ a, (k a).Persists) (hnil : ∀ a, k a [] = none) :
    (p >>= k).Persists := by
  intro s rest h
  rw [bind_apply] at h ⊢
  cases hrest : p (s ++ rest) with
  | none =>
      rw [hp.persists s rest hrest]
      rfl
  | some r =>
      obtain ⟨a, r⟩ := r
      rw [hrest] at h
      rcases Nat.lt_or_ge r.length rest.length with hlt | hle
      · cases hs : p s with
        | none => rfl
        | some t =>
            obtain ⟨b, t⟩ := t
            obtain rfl : t = [] := hp.exhausts hrest hlt hs
            exact hnil b
      · obtain ⟨t, rfl⟩ := List.suffix_of_suffix_length_le (List.suffix_append s rest)
          (hp.suffix hrest) hle
        rw [hp.cut hrest]
        exact hk a _ rest h

/-- The end of a run can be seen. -/
theorem sharp_run1 (f : Char → Bool) : (run1 f).Sharp where
  toCuts := cuts_run1 f
  persists := persists_run1 f
  exhausts {s rest x r y t} h hlt hs := by
    obtain ⟨hboth, _, hall, _⟩ := run1_eq_some.mp h
    obtain ⟨rfl, _, _, hstop⟩ := run1_eq_some.mp hs
    cases t with
    | nil => rfl
    | cons d t =>
        -- the longer run takes the character at which the shorter one stopped
        have hlengths := congrArg List.length hboth
        have hstart : y.toList ++ d :: t <+: x.toList := by
          refine List.prefix_of_prefix_length_le (List.prefix_append _ rest)
            (hboth ▸ List.prefix_append _ r) ?_
          simp only [List.length_append] at hlengths ⊢
          omega
        have hd : f d = true := List.all_eq_true.mp hall d (hstart.subset (by simp))
        rw [hstop d rfl] at hd
        cases hd

theorem single_pure (a : α) : (pure a : Reader α).Single where
  toCuts := cuts_pure a
  persists _ _ h := by cases h
  short h := by
    cases h
    exact Nat.le_succ _

theorem single_char (c : Char) : (char c).Single where
  toCuts := cuts_char c
  persists := persists_char c
  short h := by
    rw [char_eq_some.mp h]
    exact Nat.le_refl _

/-- Taking a character and giving a value. -/
theorem Single.bind_pure {g : α → β} (hp : p.Single) : (do let a ← p; return g a).Single where
  toCuts := hp.toCuts.bind fun _ => cuts_pure _
  persists := hp.persists.bind_total fun _ _ => Option.some_ne_none _
  short h := by
    obtain ⟨⟨a, t⟩, ha, ht⟩ := Option.bind_eq_some_iff.mp h
    cases ht
    exact hp.short ha

/-- A choice takes at most one character when both readers do. -/
theorem Single.orElse (hp : p.Single) (hq : q.Single) : (p <|> q).Single where
  toCuts := hp.toCuts.orElse hp.persists hq.toCuts
  persists := hp.persists.orElse hq.persists
  short {s a r} h := by
    rw [orElse_apply] at h
    cases hps : p s with
    | none =>
        rw [hps] at h
        exact hq.short h
    | some b =>
        rw [hps] at h
        cases h
        exact hp.short hps

/-- The end of a reader of one character can be seen. -/
theorem Single.sharp (hp : p.Single) : p.Sharp where
  toCuts := hp.toCuts
  persists := hp.persists
  exhausts {s rest a r b t} h hlt hs := by
    have hlength := hp.short h
    rw [List.length_append] at hlength
    obtain rfl : s = [] := List.length_eq_zero_iff.mp (by omega)
    exact List.suffix_nil.mp (hp.suffix hs)

end Reader

namespace Lexeme

open Reader

/-- What a quoted name takes and where it stops. -/
theorem quotedName_eq_some {s rest : List Char} {w : String} :
    quotedName s = some (w, rest) ↔
      s = '"' :: (w.toList ++ ['"']) ++ rest ∧ '"' ∉ w.toList := by
  constructor
  · intro h
    rw [quotedName, bind_apply, Option.bind_eq_some_iff] at h
    obtain ⟨⟨_, t⟩, hopen, h⟩ := h
    obtain rfl := char_eq_some.mp hopen
    rw [bind_apply, Option.bind_some, bind_apply, Option.bind_eq_some_iff] at h
    obtain ⟨⟨_, u⟩, hclose, h⟩ := h
    cases h
    have hrest := char_eq_some.mp hclose
    refine ⟨?_, fun hmem => ?_⟩
    · rw [String.toList_ofList, List.cons_append, List.append_assoc, List.singleton_append,
        ← hrest, List.takeWhile_append_dropWhile]
    · rw [String.toList_ofList] at hmem
      exact absurd (List.mem_takeWhile_imp hmem) (by decide)
  · rintro ⟨rfl, hw⟩
    simpa using quotedName_append hw rest

/-! ## Literals that were read -/

theorem single_minus : minus.Single := (single_char '-').bind_pure.orElse (single_pure "")

/-- The end of a run of digits can be seen. -/
theorem sharp_digits : digits.Sharp := sharp_run1 _

theorem single_letter :
    ((do char 'e'; return "e") <|> (do char 'E'; return "E") : Reader String).Single :=
  (single_char 'e').bind_pure.orElse (single_char 'E').bind_pure

theorem single_sign : ((do char '+'; return "+") <|> minus : Reader String).Single :=
  (single_char '+').bind_pure.orElse single_minus

/-- An exponent may be cut from what follows. -/
theorem cuts_exponent : exponent.Cuts :=
  single_letter.toCuts.bind fun _ => single_sign.toCuts.bind fun _ =>
    sharp_digits.toCuts.bind fun _ => cuts_pure _

/-- No exponent starts when a text is cut. -/
theorem persists_exponent : exponent.Persists :=
  single_letter.sharp.persists_bind (fun _ => single_sign.sharp.persists_bind
    (fun _ => sharp_digits.persists.bind_total fun _ _ => Option.some_ne_none _) fun _ => rfl)
    fun _ => rfl

/-- A sign and digits, and what comes after them. -/
theorem persists_number {k : String → String → Reader String}
    (hk : ∀ sign whole, (k sign whole).Persists) (hnil : ∀ sign whole, k sign whole [] = none) :
    (do let sign ← minus; let whole ← digits; k sign whole).Persists :=
  single_minus.sharp.persists_bind
    (fun sign => sharp_digits.persists_bind (hk sign) (hnil sign)) fun _ => rfl

/-- A literal may be cut from what follows. -/
theorem cuts_literalToken : literalToken.Cuts := by
  have hbits : bitPattern.Cuts := (cuts_char _).bind fun _ => (cuts_char _).bind fun _ =>
    (cuts_run1 _).bind fun _ => cuts_pure _
  have hbits' : bitPattern.Persists := (single_char _).sharp.persists_bind
    (fun _ => (single_char _).sharp.persists_bind
      (fun _ => (sharp_run1 _).persists.bind_total fun _ _ => Option.some_ne_none _) fun _ => rfl)
    fun _ => rfl
  have hdecimal : decimal.Cuts := single_minus.toCuts.bind fun _ =>
    sharp_digits.toCuts.bind fun _ => (cuts_char _).bind fun _ =>
      (sharp_digits.toCuts.orElse sharp_digits.persists (cuts_pure _)).bind fun _ =>
      (cuts_exponent.orElse persists_exponent (cuts_pure _)).bind fun _ => cuts_pure _
  have hdecimal' : decimal.Persists := persists_number (fun _ _ =>
    (persists_char _).bind_total fun _ _ => bind_ne_none (orElse_pure_ne_none _ _) fun _ _ =>
      bind_ne_none (orElse_pure_ne_none _ _) fun _ _ => Option.some_ne_none _) fun _ _ => rfl
  have hscientific : scientific.Cuts := single_minus.toCuts.bind fun _ =>
    sharp_digits.toCuts.bind fun _ => cuts_exponent.bind fun _ => cuts_pure _
  have hscientific' : scientific.Persists := persists_number (fun _ _ =>
    persists_exponent.bind_total fun _ _ => Option.some_ne_none _) fun _ _ => rfl
  refine .orElse (hbits.orElse hbits' (hdecimal.orElse hdecimal' hscientific))
    (hbits'.orElse (hdecimal'.orElse hscientific')) (.orElse ?_ ?_ ?_)
  · exact single_minus.toCuts.bind fun _ => sharp_digits.toCuts.bind fun _ => cuts_pure _
  · exact single_minus.sharp.persists_bind
      (fun _ => sharp_digits.persists.bind_total fun _ _ => Option.some_ne_none _) fun _ => rfl
  · exact (cuts_run1 _).bind fun _ => (cuts_guard _).bind fun _ => cuts_pure _

/-- What is read as a literal is one. -/
theorem literal_gives : literal.Gives IsLiteral := by
  intro s text rest h
  rw [literal_eq] at h
  have htook := exact_literalToken _ _ _ h
  rw [List.nil_append] at htook
  rw [htook] at h
  have htoken : literalToken text.toList = some (text, []) := cuts_literalToken.cut h
  obtain ⟨c, cs, hc, hname⟩ := literal_head (literalToken_gives _ _ _ htoken)
  obtain ⟨hblank, hcomment, _⟩ := not_blank_of_isNameChar hname
  rw [IsLiteral, literal_eq, hc, skip_cons hblank hcomment, ← hc, htoken]

end Lexeme

end Dataflow
