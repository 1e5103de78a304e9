import Dataflow.Text.Pair
import Dataflow.Proofs.Text.Pieces
import Mathlib.Data.List.Forall2

/-!
# Readers beside patterns

Two things go over one text: a reader of the grammar, which gives a tree as written, and the pattern
of a part, which gives pairs. `Reader.Agrees R k n p q` says that `q` reads the pairs of whatever
`p` reads and nothing else, with one rule for each way to put readers and patterns together. Blanks
are passed over by a lexeme on one side and between patterns on the other, so two rests are compared
past blanks; `k` characters at least are taken on the way, and the text has at most `n`, which
bounds the depth of what is nested.
-/

namespace Dataflow

namespace Lexeme

/-! ## Blanks -/

/-- What is left past blanks starts with neither a blank nor a comment. -/
theorem skip_eq_cons {inComment : Bool} {s rest : List Char} {c : Char}
    (h : skip inComment s = c :: rest) : isBlank c = false ∧ c ≠ ';' := by
  induction s generalizing inComment with
  | nil => cases h
  | cons d s ih =>
      rw [skip] at h
      split at h
      · exact ih h
      · split at h
        · exact ih h
        · split at h
          · exact ih h
          · cases h
            exact ⟨Bool.eq_false_iff.mpr ‹_›, ‹_›⟩

/-- What is left past blanks has none in front. -/
@[simp]
theorem skip_skip (inComment : Bool) (s : List Char) :
    skip false (skip inComment s) = skip inComment s := by
  cases h : skip inComment s with
  | nil => rfl
  | cons c rest => exact skip_cons (skip_eq_cons h).1 (skip_eq_cons h).2 rest

/-- The number of characters that are left past blanks. -/
def weight (s : List Char) : Nat := (skip false s).length

/-- A text weighs at most its length. -/
theorem weight_le (s : List Char) : weight s ≤ s.length := length_skip_le false s

end Lexeme

namespace Reader

open Lexeme Pattern

variable {α β γ δ : Type} {R : α → β → Prop} {S : γ → δ → Prop} {j k n : Nat}
variable {p : Reader α} {q : Reader β} {f : α → Reader γ} {g : β → Reader δ}

/-! ## Agreement -/

/-- Past blanks, `q` succeeds where `p` does, with a value that `R` relates to the value of `p`, and
leaves the same; `p` takes at least `k` characters. This is asked for texts of weight at most
`n`. -/
def Agrees (R : α → β → Prop) (k n : Nat) (p : Reader α) (q : Reader β) : Prop :=
  ∀ s, weight s ≤ n → p s = none ∧ q (skip false s) = none ∨
    ∃ a rest b rest', p s = some (a, rest) ∧ q (skip false s) = some (b, rest') ∧ R a b ∧
      skip false rest' = skip false rest ∧ weight rest + k ≤ weight s

/-- Agreement holds for any weaker relation of the values. -/
theorem Agrees.imp {R' : α → β → Prop} (h : Agrees R k n p q) (hR : ∀ a b, R a b → R' a b) :
    Agrees R' k n p q := by
  intro s hs
  obtain hnone | ⟨a, rest, b, rest', hp, hq, hab, hrest⟩ := h s hs
  · exact .inl hnone
  · exact .inr ⟨a, rest, b, rest', hp, hq, hR a b hab, hrest⟩

/-- What the reader gives can be added. -/
theorem Agrees.gives {Q : α → Prop} (h : Agrees R k n p q) (hQ : p.Gives Q) :
    Agrees (fun a b => R a b ∧ Q a) k n p q := by
  intro s hs
  obtain hnone | ⟨a, rest, b, rest', hp, hq, hab, hrest⟩ := h s hs
  · exact .inl hnone
  · exact .inr ⟨a, rest, b, rest', hp, hq, ⟨hab, hQ s a rest hp⟩, hrest⟩

/-- What agrees on texts agrees on shorter ones, and what takes characters takes fewer. -/
theorem Agrees.mono {m : Nat} (h : Agrees R k n p q) (hm : m ≤ n) (hj : j ≤ k) :
    Agrees R j m p q := by
  intro s hs
  obtain hnone | ⟨a, rest, b, rest', hp, hq, hab, hrest, htook⟩ := h s (hs.trans hm)
  · exact .inl hnone
  · exact .inr ⟨a, rest, b, rest', hp, hq, hab, hrest, by omega⟩

/-- One reader and then another. The second reads what the first leaves, which is shorter by what
the first takes. -/
theorem Agrees.bind {l : Nat} (h : Agrees R k n p q)
    (hf : ∀ a b, R a b → ∀ m, m + k ≤ n → Agrees S j m (f a) (g b)) (hl : l ≤ k + j) :
    Agrees S l n (p >>= f) (q >>= fun b => blanks >>= fun _ => g b) := by
  intro s hs
  rw [bind_apply, bind_apply]
  obtain ⟨hp, hq⟩ | ⟨a, rest, b, rest', hp, hq, hab, hrest, htook⟩ := h s hs
  · rw [hp, hq]
    exact .inl ⟨rfl, rfl⟩
  · have hnext := hf a b hab (weight rest) (htook.trans hs) rest (Nat.le_refl _)
    rw [hp, hq]
    change f a rest = none ∧ g b (skip false rest') = none ∨ ∃ c u d u', f a rest = some (c, u) ∧
      g b (skip false rest') = some (d, u') ∧ _
    rw [hrest]
    obtain hnone | ⟨c, u, d, u', hc, hd, hcd, hu, htook'⟩ := hnext
    · exact .inl hnone
    · exact .inr ⟨c, u, d, u', hc, hd, hcd, hu, by omega⟩

/-- Giving another value changes nothing else. -/
theorem Agrees.map {c : α → γ} {d : β → δ} (h : Agrees R k n p q)
    (hS : ∀ a b, R a b → S (c a) (d b)) :
    Agrees S k n (p >>= fun a => pure (c a)) (q >>= fun b => pure (d b)) := by
  intro s hs
  rw [bind_apply, bind_apply]
  obtain ⟨hp, hq⟩ | ⟨a, rest, b, rest', hp, hq, hab, hrest⟩ := h s hs
  · rw [hp, hq]
    exact .inl ⟨rfl, rfl⟩
  · rw [hp, hq]
    exact .inr ⟨c a, rest, d b, rest', rfl, rfl, hS a b hab, hrest⟩

/-- A choice agrees when both its sides do: the second is tried on both sides or on neither. -/
theorem Agrees.orElse {p' : Reader α} {q' : Reader β} (h : Agrees R k n p q)
    (h' : Agrees R k n p' q') : Agrees R k n (p <|> p') (q <|> q') := by
  intro s hs
  rw [orElse_apply, orElse_apply]
  obtain ⟨hp, hq⟩ | ⟨a, rest, b, rest', hp, hq, hab⟩ := h s hs
  · rw [hp, hq]
    exact h' s hs
  · rw [hp, hq]
    exact .inr ⟨a, rest, b, rest', rfl, rfl, hab⟩

/-- Taking nothing agrees with taking nothing. -/
theorem agrees_pure {a : α} {b : β} (h : R a b) : Agrees R 0 n (pure a) (pure b) :=
  fun s _ => .inr ⟨a, s, b, skip false s, rfl, rfl, h, skip_skip false s, Nat.le_refl _⟩

/-! ## Repetition -/

/-- Nothing is repeated when the first attempt fails. -/
theorem manyUpTo_of_none {s : List Char} (h : p s = none) (bound : Nat) :
    manyUpTo p bound s = ([], s) := by
  cases bound with
  | zero => rfl
  | succ bound => rw [manyUpTo, h]

/-- Readers that agree and take something agree as often as they are repeated, if the bounds on how
often do not fall short of the characters there are. -/
theorem Agrees.manyUpTo (h : Agrees R 1 n p q) (bound bound' : Nat) {s s' : List Char}
    (hs : weight s ≤ n) (heq : skip false s' = skip false s) (hbound : weight s ≤ bound)
    (hbound' : weight s ≤ bound') :
    List.Forall₂ R (manyUpTo p bound s).1
        (manyUpTo (blanks >>= fun _ => q) bound' s').1 ∧
      skip false (manyUpTo (blanks >>= fun _ => q) bound' s').2 =
        skip false (manyUpTo p bound s).2 ∧
      weight (manyUpTo p bound s).2 ≤ weight s := by
  have hnext : (blanks >>= fun _ => q) s' = q (skip false s) := heq ▸ rfl
  induction hw : weight s using Nat.strong_induction_on generalizing bound bound' s s' with
  | _ w ih =>
      obtain ⟨hp, hq⟩ | ⟨a, rest, b, rest', hp, hq, hab, hrest, htook⟩ := h s hs
      · rw [manyUpTo_of_none hp, manyUpTo_of_none (hnext.trans hq)]
        exact ⟨.nil, heq, hw.le⟩
      · -- something was taken, so neither bound is used up
        obtain ⟨bound, rfl⟩ := Nat.exists_eq_add_one_of_ne_zero (n := bound) (by omega)
        obtain ⟨bound', rfl⟩ := Nat.exists_eq_add_one_of_ne_zero (n := bound') (by omega)
        obtain ⟨hall, hend, hless⟩ := ih (weight rest) (by omega) bound bound' (by omega) hrest
          (by omega) (by omega) (hrest ▸ rfl) rfl
        rw [Reader.manyUpTo, hp, Reader.manyUpTo, hnext, hq]
        exact ⟨.cons hab hall, hend, hless.trans (by omega)⟩

/-- One value after the other, each with its own pairs. -/
def Each {α : Type} (R : α → List Pair → Prop) (as : List α) (ts : List Pair) : Prop :=
  ∃ tss, List.Forall₂ R as tss ∧ ts = tss.flatten

namespace Each

variable {R : α → List Pair → Prop}

/-- One more value with its pairs in front. -/
theorem cons {a : α} {as : List α} {ts us : List Pair} (h : R a ts) (hs : Each R as us) :
    Each R (a :: as) (ts ++ us) := by
  obtain ⟨tss, hall, rfl⟩ := hs
  exact ⟨ts :: tss, .cons h hall, rfl⟩

/-- Values that have one pair each. -/
theorem forall₂ {S : α → Pair → Prop} (hR : ∀ a ts, R a ts → ∃ t, ts = [t] ∧ S a t)
    {as : List α} {ts : List Pair} (h : Each R as ts) : List.Forall₂ S as ts := by
  obtain ⟨tss, hall, rfl⟩ := h
  induction hall with
  | nil => exact .nil
  | cons hab _ ih =>
      obtain ⟨t, rfl, ht⟩ := hR _ _ hab
      exact .cons ht ih

end Each

/-! ## Patterns -/

section Patterns

variable {named : Part → Reader Pair} {first second : Pattern} {l : Nat}
variable {R : α → List Pair → Prop} {S : γ → List Pair → Prop}

/-- Pairs that stand in front are put in front. -/
theorem Agrees.append {ts : List Pair} {q : Reader (List Pair)}
    (h : Agrees (fun a us => R a (ts ++ us)) k n p q) :
    Agrees R k n p (q >>= fun us => pure (ts ++ us)) := by
  have hmap := h.map (S := R) (c := fun a => a) (d := fun us => ts ++ us) fun _ _ hab => hab
  rwa [bind_pure] at hmap

/-- A pattern and then another, where the second is read in a shorter text. -/
theorem Agrees.chain_of (h : Agrees R k n p (first.pairs named))
    (hf : ∀ a ts, R a ts → ∀ m, m + k ≤ n →
      Agrees (fun c us => S c (ts ++ us)) j m (f a) (second.pairs named)) (hl : l ≤ k + j) :
    Agrees S l n (p >>= f) ((Pattern.chain first second).pairs named) :=
  h.bind (fun a ts hts m hm => (hf a ts hts m hm).append) hl

/-- A pattern that takes something and then another. -/
theorem Agrees.chain (h : Agrees R k n p (first.pairs named))
    (hf : ∀ a ts, R a ts → Agrees (fun c us => S c (ts ++ us)) j n (f a) (second.pairs named)) :
    Agrees S k n (p >>= f) ((Pattern.chain first second).pairs named) :=
  h.chain_of (fun a ts hts m hm => (hf a ts hts).mono (by omega) (Nat.le_refl j)) (by omega)

/-- A pattern that may take nothing and then another that takes something. -/
theorem Agrees.chain_later (h : Agrees R k n p (first.pairs named))
    (hf : ∀ a ts, R a ts → Agrees (fun c us => S c (ts ++ us)) j n (f a) (second.pairs named)) :
    Agrees S j n (p >>= f) ((Pattern.chain first second).pairs named) :=
  h.chain_of (fun a ts hts m hm => (hf a ts hts).mono (by omega) (Nat.le_refl j)) (by omega)

/-- The last pattern of a sequence: what is read is put together. -/
theorem Agrees.last {q : Reader (List Pair)} {c : α → γ} (h : Agrees R k n p q)
    (hS : ∀ a ts, R a ts → S (c a) ts) : Agrees S k n (p >>= fun a => pure (c a)) q := by
  have hmap := h.map (S := S) (d := fun ts => ts) hS
  rwa [bind_pure] at hmap

/-- A choice of readers agrees with a choice of patterns. -/
theorem Agrees.either {p' : Reader α} (h : Agrees R k n p (first.pairs named))
    (h' : Agrees R k n p' (second.pairs named)) :
    Agrees R k n (p <|> p') ((Pattern.either first second).pairs named) := h.orElse h'

/-- A value that may be absent, with its pairs. -/
def Maybe {α : Type} (R : α → List Pair → Prop) (o : Option α) (ts : List Pair) : Prop :=
  o = none ∧ ts = [] ∨ ∃ a, o = some a ∧ R a ts

/-- An optional reader agrees with an optional pattern. -/
theorem Agrees.optional (h : Agrees R k n p (first.pairs named)) :
    Agrees (Maybe R) 0 n (optional p) ((Pattern.maybe first).pairs named) := by
  refine .orElse ?_ (agrees_pure (.inl ⟨rfl, rfl⟩))
  rw [map_eq_pure_bind]
  exact (h.last fun a ts hts => .inr ⟨a, rfl, hts⟩).mono (Nat.le_refl n) (Nat.zero_le k)

/-- A repetition agrees with a repeated pattern, since each turn takes a character. -/
theorem Agrees.many (h : Agrees R 1 n p (first.pairs named)) :
    Agrees (Each R) 0 n (many p) ((Pattern.repeated first).pairs named) := by
  intro s hs
  obtain ⟨hall, hend, hless⟩ := h.manyUpTo s.length (skip false s).length hs (skip_skip false s)
    (weight_le s) (Nat.le_refl _)
  exact .inr ⟨_, _, _, _, rfl, rfl, ⟨_, hall, rfl⟩, hend, hless⟩

/-- A repetition of at least one agrees with the pattern of at least one. -/
theorem Agrees.many1 (h : Agrees R 1 n p (first.pairs named)) :
    Agrees (fun as ts => as ≠ [] ∧ Each R as ts) 1 n (many1 p) ((some1 first).pairs named) :=
  h.chain fun a _ hts => h.many.last fun as _ hus => ⟨List.cons_ne_nil a as, .cons hts hus⟩

/-! ### Tokens and parts -/

/-- A reader that starts past blanks and takes something. -/
structure Takes {α : Type} (p : Reader α) : Prop where
  /-- It starts past blanks. -/
  past (s : List Char) : p (skip false s) = p s
  /-- It takes something. -/
  short {s : List Char} {a : α} {rest : List Char} : p s = some (a, rest) → rest.length < weight s

/-- A reader that takes a character leaves a text of less weight. -/
theorem Takes.weight_lt {p : Reader α} (h : Takes p) {s rest : List Char} {a : α}
    (hp : p s = some (a, rest)) : weight rest + 1 ≤ weight s :=
  (Nat.succ_le_succ (weight_le rest)).trans (h.short hp)

/-- A token has no pair. -/
theorem Takes.agrees_token {p : Reader Unit} (h : Takes p) :
    Agrees (fun _ ts => ts = []) 1 n p ((token p).pairs named) := by
  intro s _
  change p s = none ∧ (p (skip false s)).bind _ = none ∨ ∃ a rest b rest', p s = some (a, rest) ∧
    (p (skip false s)).bind _ = some (b, rest') ∧ _
  rw [h.past]
  cases hp : p s with
  | none => exact .inl ⟨rfl, rfl⟩
  | some r => exact .inr ⟨(), r.2, [], r.2, rfl, rfl, rfl, rfl, h.weight_lt hp⟩

/-- A lexeme that starts with a character takes it. -/
theorem takes_lexeme_char {c : Char} {k : Unit → Reader α}
    (hk : ∀ {s a rest}, k () s = some (a, rest) → rest.length ≤ s.length) :
    Takes (lexeme (char c >>= k)) where
  past s := congrArg (char c >>= k) (skip_skip false s)
  short {s a rest} h := by
    change (char c (skip false s)).bind _ = _ at h
    obtain ⟨⟨_, t⟩, hc, hrest⟩ := Option.bind_eq_some_iff.mp h
    rw [weight]
    cases hs : skip false s with
    | nil =>
        rw [hs] at hc
        cases hc
    | cons d u =>
        rw [hs, char] at hc
        split at hc <;> cases hc
        exact Nat.lt_succ_of_le (hk hrest)

/-- A mark takes its character. -/
theorem takes_mark (c : Char) : Takes (mark c) := by
  have h : Takes (lexeme (char c >>= pure)) := takes_lexeme_char fun h => by
    cases h
    exact Nat.le_refl _
  rwa [bind_pure] at h

/-- A mark and then a pattern. -/
theorem Agrees.mark {c : Char} {p : Reader α} (h : Agrees R k n p (first.pairs named)) :
    Agrees R 1 n (Lexeme.mark c >>= fun _ => p) ((Pattern.chain (sign c) first).pairs named) :=
  (takes_mark c).agrees_token.chain fun _ _ hts => by
    subst hts
    exact h

/-- A separated list agrees with the pattern of a list with commas. -/
theorem Agrees.sepBy1 (h : Agrees R 1 n p (first.pairs named)) :
    Agrees (fun as ts => as ≠ [] ∧ Each R as ts) 1 n (sepBy1 p (Lexeme.mark ','))
      ((commaList first).pairs named) :=
  h.chain fun a _ hts => h.mark.many.last fun as _ hus => ⟨List.cons_ne_nil a as, .cons hts hus⟩

/-- The characters that are taken between `s` and `rest`. -/
def taken (s rest : List Char) : String := String.ofList (s.take (s.length - rest.length))

/-- A part takes what its pattern takes, as one pair. -/
theorem take_apply (x : Part) (d : Nat) (s : List Char) :
    Part.take (d + 1) x s =
      (x.pattern.pairs (Part.take d) s).map fun r => (.mk x (taken s r.2) r.1, r.2) := by
  simp only [Part.take]
  cases x.pattern.pairs (Part.take d) s <;> rfl

/-- The pattern of a part gives the one pair of the part. -/
theorem part_apply (x : Part) (d : Nat) (s : List Char) :
    (Pattern.part x).pairs (Part.take (d + 1)) s =
      (x.pattern.pairs (Part.take d) s).map fun r => ([.mk x (taken s r.2) r.1], r.2) := by
  rw [Pattern.pairs, bind_apply, take_apply]
  cases x.pattern.pairs (Part.take d) s <;> rfl

/-- A part has one pair, which holds the pairs of its pattern. -/
theorem Agrees.part {x : Part} {c d : Nat} (hd : 2 * n + c + 1 ≤ d)
    (h : ∀ d, 2 * n + c ≤ d → Agrees R k n p (x.pattern.pairs (Part.take d))) :
    Agrees (fun a ts => ∃ text children, ts = [.mk x text children] ∧ R a children) k n p
      ((Pattern.part x).pairs (Part.take d)) := by
  obtain ⟨d, rfl⟩ := Nat.exists_eq_add_one_of_ne_zero (n := d) (by omega)
  intro s hs
  obtain ⟨hp, hq⟩ | ⟨a, rest, ts, rest', hp, hq, hab, hrest⟩ := h d (by omega) s hs
  · exact .inl ⟨hp, by rw [part_apply, hq, Option.map_none]⟩
  · exact .inr ⟨a, rest, _, rest', hp, by rw [part_apply, hq, Option.map_some],
      ⟨_, ts, rfl, hab⟩, hrest⟩

/-- As `Agrees.part`, where what is said of the pairs inside can be said of the pair. -/
theorem Agrees.node {x : Part} {c d : Nat} {T : α → Pair → Prop} (hd : 2 * n + c + 1 ≤ d)
    (h : ∀ d, 2 * n + c ≤ d →
      Agrees (fun a ts => ∀ text, T a (.mk x text ts)) k n p (x.pattern.pairs (Part.take d))) :
    Agrees (fun a ts => ∃ t, ts = [t] ∧ T a t) k n p ((Pattern.part x).pairs (Part.take d)) :=
  (Agrees.part hd h).imp fun a ts hts => by
    obtain ⟨text, children, rfl, ht⟩ := hts
    exact ⟨_, rfl, ht text⟩

end Patterns

end Reader

end Dataflow
