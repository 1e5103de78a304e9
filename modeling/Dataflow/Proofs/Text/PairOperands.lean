import Dataflow.Proofs.Text.PairLexemes

/-!
# Pairs of types and operands

What is built from the pair of a type or an operand is what binding makes of the tree that was read
in its place (`Reader.agrees_type`, `Reader.agrees_operand`), whether that is a value or an error.
`Pair.Yields` says so of a cursor over some pairs: it takes all of them, and what it comes to holds
everything that the pairs refer to, one for one and in order (`Pair.Names`).
-/

namespace Dataflow

open Lexeme Pattern

/-! ## What is referred to -/

/-- What a place in an instruction refers to. -/
inductive Mention where
  /-- A value that is read or called. -/
  | value (v : Operand)
  /-- A block. -/
  | block (b : BlockId)

/-- Everything an instruction refers to, in the order in which it is written. -/
def Instruction.mentions : Instruction → List Mention
  | binary _ _ lhs rhs | compare _ _ lhs rhs => [.value lhs, .value rhs]
  | load _ address => [.value address.value]
  | store value address => [.value value.value, .value address.value]
  | elementPtr _ base indices => .value base.value :: indices.map fun t => .value t.value
  | cast _ value _ => [.value value.value]
  | phi _ arms => arms.flatMap fun a => [.value a.value, .block a.source]
  | select cond _ onTrue onFalse => [.value cond, .value onTrue, .value onFalse]
  | call _ callee args => .value callee :: args.map fun t => .value t.value
  | alloca _ count => count.toList.map fun t => .value t.value
  | jump target => [.block target]
  | branch cond onTrue onFalse => [.value cond, .block onTrue, .block onFalse]
  | ret value => value.toList.map fun t => .value t.value
  | unreachable => []

namespace Pair

/-- The operands, callees and labels inside a pair, in the order in which they stand. -/
def references : Pair → List Pair
  | mk p text children =>
    if p = .value ∨ p = .local ∨ p = .global then [mk p text children]
    else children.flatMap references

/-- The pair is written for what is mentioned, where `value` says which value a local name can stand
for, and `block` which block. -/
inductive Names (value : String → Operand → Prop) (block : String → BlockId → Prop) :
    Pair → Mention → Prop where
  /-- A local name stands for its value. -/
  | «local» {t inner : Pair} {v : Operand} : t.part = .value → t.children = [inner] →
      inner.part = .local → value inner.ident v → Names value block t (.value v)
  /-- A global stands for itself. -/
  | global {t inner : Pair} : t.part = .value → t.children = [inner] → inner.part = .global →
      Names value block t (.value (.global inner.ident))
  /-- A literal stands for a constant of that spelling. -/
  | literal {t inner : Pair} {ty : Ty} : t.part = .value → t.children = [inner] →
      inner.part ≠ .local → inner.part ≠ .global →
      Names value block t (.value (.const { ty, literal := inner.text }))
  /-- A local name that is called stands for its value. -/
  | called {t : Pair} {v : Operand} : t.part = .local → value t.ident v →
      Names value block t (.value v)
  /-- The name of a function that is called stands for the function. -/
  | function {t : Pair} : t.part = .global → Names value block t (.value (.function t.ident))
  /-- A label stands for its block. -/
  | label {t : Pair} {b : BlockId} : t.part = .local → block t.ident b →
      Names value block t (.block b)

/-- What a pair is written for grows with what names can stand for. -/
theorem Names.imp {value value' : String → Operand → Prop} {block block' : String → BlockId → Prop}
    (hvalue : ∀ name v, value name v → value' name v)
    (hblock : ∀ name b, block name b → block' name b) {t : Pair} {m : Mention}
    (h : Names value block t m) : Names value' block' t m := by
  cases h with
  | «local» ht hin hpart hv => exact .local ht hin hpart (hvalue _ _ hv)
  | global ht hin hpart => exact .global ht hin hpart
  | literal ht hin hl hg => exact .literal ht hin hl hg
  | called ht hv => exact .called ht (hvalue _ _ hv)
  | function ht => exact .function ht
  | label ht hb => exact .label ht (hblock _ _ hb)

/-- The pair is written for what is mentioned, with the names of a scope. -/
def NamesIn (scope : Surface.Scope) : Pair → Mention → Prop :=
  Names (fun name v => scope.value? name = some v) (fun name b => scope.block? name = some b)

/-- A value, a local name or a global name refers to itself only. -/
theorem references_of_part {t : Pair} (h : t.part = .value ∨ t.part = .local ∨ t.part = .global) :
    t.references = [t] := by
  obtain ⟨p, text, children⟩ := t
  rw [references]
  exact if_pos h

/-- Any other pair refers to what its children refer to. -/
theorem references_mk {p : Part} (h : ¬ (p = .value ∨ p = .local ∨ p = .global)) (text : String)
    (children : List Pair) :
    (mk p text children).references = children.flatMap references := by
  rw [references, if_neg h]

/-- Noise refers to nothing. -/
theorem Noise.references {ts : List Pair} (h : Noise ts) : ts.flatMap references = [] := by
  refine List.flatMap_eq_nil_iff.mpr fun t ht => ?_
  obtain ⟨hnoise, hchildren⟩ := h t ht
  obtain ⟨p, text, children⟩ := t
  obtain rfl : children = [] := hchildren
  rw [references_mk, List.flatMap_nil]
  rintro (hp | hp | hp) <;> (rw [show (mk p text []).part = p from rfl, hp] at hnoise; cases hnoise)

end Pair

/-! ## Cursors -/

namespace BuildError

variable {α β : Type} {x : Except BindingError α} {f : α → Except BindingError β}

/-- Errors are lifted one after the other. -/
theorem lift_bind : lift (x >>= f) = lift x >>= fun a => lift (f a) := by
  cases x <;> rfl

/-- A result is lifted to itself. -/
theorem lift_pure (a : α) : lift (pure a) = pure a := rfl

/-- What each member of a list comes to, the list comes to. -/
theorem lift_mapM {γ : Type} {g : γ → Except BuildError β} {as : List α} {ts : List γ}
    (h : List.Forall₂ (fun a t => g t = lift (f a)) as ts) : ts.mapM g = lift (as.mapM f) := by
  induction h with
  | nil => rfl
  | cons hab _ ih => simp only [List.mapM_cons, hab, ih, lift_bind, lift_pure]

end BuildError

namespace Pair

open Cursor BuildError

variable {α β : Type} {c : Cursor α} {k : α → Cursor β} {ps qs : List Pair}
variable {x : Except BindingError α} {g : α → Except BindingError β}
variable {P : α → List Pair → Prop} {Q : β → List Pair → Prop}

/-- Over the pairs `ps` the cursor comes to `x` and takes all of them. Where `x` is a value, `P`
relates it to what the pairs refer to. -/
structure Yields (P : α → List Pair → Prop) (c : Cursor α) (ps : List Pair)
    (x : Except BindingError α) : Prop where
  /-- The cursor takes the pairs and comes to `x`. -/
  run (more : List Pair) : c (meaningful ps ++ more) = (lift x).map (·, more)
  /-- The value holds what the pairs refer to. -/
  holds {a : α} : x = .ok a → P a (ps.flatMap references)

/-- As `Yields` at the end of what the cursor goes over, where it may leave pairs that refer to
nothing. -/
structure Ends (P : α → List Pair → Prop) (c : Cursor α) (ps : List Pair)
    (x : Except BindingError α) : Prop where
  /-- The cursor comes to `x`. -/
  run : c.result (meaningful ps) = lift x
  /-- The value holds what the pairs refer to. -/
  holds {a : α} : x = .ok a → P a (ps.flatMap references)

/-- A cursor that yields a result for its pairs ends with it when nothing follows. -/
theorem Yields.ends (h : Yields P c ps x) : Ends P c ps x where
  run := by
    rw [Cursor.result, ← List.append_nil (meaningful ps), h.run]
    cases x <;> rfl
  holds := h.holds

/-- The pairs that matter are found part by part. -/
theorem meaningful_append (ps qs : List Pair) :
    meaningful (ps ++ qs) = meaningful ps ++ meaningful qs := List.filter_append ps qs

/-- A result without pairs is yielded as it is. -/
theorem yields_pure {a : α} (h : P a []) : Yields P (pure a) [] (pure a) where
  run _ := rfl
  holds heq := by
    cases heq
    exact h

/-- One cursor and then another. -/
theorem Yields.bind (h : Yields P c ps x)
    (hk : ∀ a rs, P a rs → Yields (fun b us => Q b (rs ++ us)) (k a) qs (g a)) :
    Yields Q (c >>= k) (ps ++ qs) (x >>= g) where
  run more := by
    change (c (meaningful (ps ++ qs) ++ more)).bind (fun r => k r.1 r.2) = _
    rw [meaningful_append, List.append_assoc, h.run]
    cases hx : x with
    | error e => rfl
    | ok a => exact (hk a _ (h.holds hx)).run more
  holds {b} heq := by
    obtain ⟨a, hx, hb⟩ := bind_eq_ok.mp heq
    rw [List.flatMap_append]
    exact (hk a _ (h.holds hx)).holds hb

/-- The result of two cursors in turn is that of the second on what the first leaves. -/
theorem result_bind (c : Cursor α) (k : α → Cursor β) (ts : List Pair) :
    (c >>= k).result ts = (c ts).bind fun r => (k r.1).result r.2 := by
  change ((c ts).bind fun r => k r.1 r.2).map (·.1) = _
  cases c ts <;> rfl

/-- One cursor and then the last. -/
theorem Ends.bind (h : Yields P c ps x)
    (hk : ∀ a rs, P a rs → Ends (fun b us => Q b (rs ++ us)) (k a) qs (g a)) :
    Ends Q (c >>= k) (ps ++ qs) (x >>= g) where
  run := by
    rw [result_bind, meaningful_append, h.run]
    cases hx : x with
    | error e => rfl
    | ok a => exact (hk a _ (h.holds hx)).run
  holds {b} heq := by
    obtain ⟨a, hx, hb⟩ := bind_eq_ok.mp heq
    rw [List.flatMap_append]
    exact (hk a _ (h.holds hx)).holds hb

/-- The last cursor of a sequence: what was taken is put together. -/
theorem Yields.last {b : α → β} (h : Yields P c ps x) (hQ : ∀ a rs, P a rs → Q (b a) rs) :
    Yields Q (c >>= fun a => pure (b a)) ps (x >>= fun a => pure (b a)) := by
  have hbind := h.bind (Q := Q) (k := fun a => pure (b a)) (g := fun a => pure (b a))
    fun a rs hrs => yields_pure (by simpa using hQ a rs hrs)
  rwa [List.append_nil] at hbind

/-- A last step that only builds a value keeps the end. -/
theorem Ends.last {b : α → β} (h : Ends P c ps x) (hQ : ∀ a rs, P a rs → Q (b a) rs) :
    Ends Q (c >>= fun a => pure (b a)) ps (x >>= fun a => pure (b a)) where
  run := by
    have hmap : (c >>= fun a => pure (b a)).result (meaningful ps) =
        (c.result (meaningful ps)).map b := by
      rw [result_bind, Cursor.result]
      cases c (meaningful ps) <;> rfl
    rw [hmap, h.run]
    cases x <;> rfl
  holds {c} heq := by
    obtain ⟨a, hx, hb⟩ := bind_eq_ok.mp heq
    cases hb
    exact hQ a _ (h.holds hx)

/-- At the end, pairs that refer to nothing may be left. -/
theorem ends_pure {a : α} (h : P a (ps.flatMap references)) : Ends P (pure a) ps (pure a) where
  run := rfl
  holds heq := by
    cases heq
    exact h

/-- Noise in front does not change how a cursor ends. -/
theorem Ends.skip {ns : List Pair} (hn : Noise ns) (h : Ends P c ps x) : Ends P c (ns ++ ps) x where
  run := by rw [meaningful_append, hn.meaningful, List.nil_append, h.run]
  holds heq := by
    rw [List.flatMap_append, hn.references, List.nil_append]
    exact h.holds heq

/-- Noise behind does not change how a cursor ends. -/
theorem Ends.skip_after {ns : List Pair} (hn : Noise ns) (h : Ends P c ps x) :
    Ends P c (ps ++ ns) x where
  run := by rw [meaningful_append, hn.meaningful, List.append_nil, h.run]
  holds heq := by
    rw [List.flatMap_append, hn.references, List.append_nil]
    exact h.holds heq

/-- One pair that is expected, and what is made of it. -/
theorem yields_expect {p : Part} {t : Pair} {f : Pair → Except BuildError α} (ht : t.part = p)
    (hp : p.isNoise = false) (hf : f t = lift x) (hP : ∀ a, x = .ok a → P a t.references) :
    Yields P (expect p >>= fun t => of (f t)) [t] x where
  run more := by
    have hkeep : meaningful [t] = [t] := by simp [meaningful, ht, hp]
    change (expect p (meaningful [t] ++ more)).bind (fun r => (f r.1).map (·, r.2)) = _
    rw [hkeep, List.singleton_append, expect, if_pos ht]
    exact congrArg (Except.map _) hf
  holds heq := by simpa using hP _ heq

/-! ## Types -/

/-- The pair of a type as written. -/
structure IsType (ty : Surface.TypeText) (t : Pair) : Prop where
  part : t.part = .type
  /-- A type refers to no value. -/
  references : t.references = []
  /-- What is built from the pair is what binding makes of the type. -/
  build : t.type = lift ty.bind

/-- The field of a type gives what binding makes of the type. -/
theorem IsType.yields {ty : Surface.TypeText} {t : Pair} (h : IsType ty t) :
    Yields (fun _ rs => rs = []) typeField [t] ty.bind :=
  yields_expect h.part rfl h.build fun _ _ => h.references

/-- What may stand in front of the stars of a type. -/
structure IsBase (ty : Surface.TypeText) (t : Pair) : Prop where
  /-- A type refers to no value. -/
  references : t.references = []
  /-- What is built from the pair with stars behind is what binding makes of the type. -/
  build {text : String} {stars : List Pair} : (∀ u ∈ stars, u.part = .pointerSuffix) →
    (Pair.mk .type text (t :: stars)).type = lift (do
      let base ← ty.bind
      return stars.foldl (fun ty _ => .pointer ty) base)

/-- Stars behind a type may be bound after its base. -/
theorem bind_pointers (stars : List Unit) (base : Surface.TypeText) :
    (stars.foldl (fun ty _ => .pointer ty) base).bind = (do
      let ty ← base.bind
      return stars.foldl (fun ty _ => .pointer ty) ty) := by
  induction stars generalizing base with
  | nil => simp
  | cons star stars ih =>
      rw [List.foldl_cons, ih, Surface.TypeText.bind]
      simp

/-- A fold that ignores the elements depends on their number only. -/
theorem foldl_const {γ δ σ : Type} {f : σ → σ} {R : γ → δ → Prop} {as : List γ} {bs : List δ}
    (h : List.Forall₂ R as bs) (z : σ) :
    bs.foldl (fun z _ => f z) z = as.foldl (fun z _ => f z) z := by
  induction h generalizing z with
  | nil => rfl
  | cons _ _ ih => exact ih (f z)

/-- A relation that only asks something of the second list asks it of each of its elements. -/
theorem forall_mem_of_forall₂ {γ δ : Type} {Q : δ → Prop} {as : List γ} {bs : List δ}
    (h : List.Forall₂ (fun _ b => Q b) as bs) : ∀ b ∈ bs, Q b := by
  induction h with
  | nil => simp
  | cons hb _ ih => exact List.forall_mem_cons.mpr ⟨hb, ih⟩

/-- A base and its stars are a type. -/
theorem IsBase.isType {ty : Surface.TypeText} {t : Pair} (h : IsBase ty t) {units : List Unit}
    {stars : List Pair}
    (hstars : List.Forall₂ (fun _ u => ∃ text, u = Pair.mk .pointerSuffix text []) units stars)
    (text : String) :
    IsType (units.foldl (fun ty _ => .pointer ty) ty) (Pair.mk .type text (t :: stars)) where
  part := rfl
  references := by
    have hnone : stars.flatMap Pair.references = [] := by
      refine List.flatMap_eq_nil_iff.mpr fun u hu => ?_
      obtain ⟨text, rfl⟩ := forall_mem_of_forall₂ hstars u hu
      rw [references_mk (by decide), List.flatMap_nil]
    rw [references_mk (by decide), List.flatMap_cons, h.references, hnone, List.append_nil]
  build := by
    have hsuffix : ∀ u ∈ stars, u.part = .pointerSuffix := fun u hu => by
      obtain ⟨text, rfl⟩ := forall_mem_of_forall₂ hstars u hu
      rfl
    rw [h.build hsuffix, bind_pointers]
    simp only [foldl_const hstars]

/-- Nothing but the stars of a type is a pointer suffix. -/
theorem filter_stars {stars : List Pair} (h : ∀ u ∈ stars, u.part = .pointerSuffix) :
    stars.filter (·.part = .pointerSuffix) = stars :=
  List.filter_eq_self.mpr fun u hu => by simpa using h u hu

/-- The number that digits or a minus sign spell out has no plus sign. -/
theorem unsigned?_eq {limit : Nat} {c : Char} {cs : List Char} (hc : c ≠ '+') :
    unsigned? limit (c :: cs) = Surface.decimalBelow? limit (c :: cs) := by
  rw [unsigned?]
  exact fun ds heq => hc (List.cons.inj heq).1

/-- An integer type is the base its word stands for. -/
theorem isBase_int {w : String} {ty : Surface.TypeText} (h : Reader.intWord? w = some ty) :
    IsBase ty (mk .intType w []) where
  references := by rw [references_mk (by decide), List.flatMap_nil]
  build {text stars} hstars := by
    rw [Reader.intWord?] at h
    split at h
    · rename_i d ds hw
      split at h <;> cases h
      have hd : d ≠ '+' := by
        rintro rfl
        simp_all
      rw [type, filter_stars hstars, hw, List.drop_one, List.tail_cons, unsigned?_eq hd,
        Surface.TypeText.bind, String.toList_ofList]
      cases Surface.decimalBelow? UInt32.size (d :: ds) <;> rfl
    · cases h

/-- A float type is the base its word stands for. -/
theorem isBase_float {w : String} {ty : Surface.TypeText} (hw : w ∈ Reader.floatWords)
    (h : Surface.typeOfWord? w = some ty) : IsBase ty (mk .floatType w []) where
  references := by rw [references_mk (by decide), List.flatMap_nil]
  build {text stars} hstars := by
    rw [type, filter_stars hstars]
    simp only [Reader.floatWords, List.mem_cons, List.not_mem_nil, or_false] at hw
    rcases hw with rfl | rfl | rfl | rfl | rfl | rfl <;> (cases h; rfl)

/-- The word `ptr` is the opaque pointer. -/
theorem isBase_ptr (w : String) : IsBase (.named .ptr) (mk .ptrType w []) where
  references := by rw [references_mk (by decide), List.flatMap_nil]
  build {text stars} hstars := by
    rw [type, filter_stars hstars]
    rfl

/-- The word `void` is the type of no value. -/
theorem isBase_void (w : String) : IsBase (.named .void) (mk .voidType w []) where
  references := by rw [references_mk (by decide), List.flatMap_nil]
  build {text stars} hstars := by
    rw [type, filter_stars hstars]
    rfl

/-- The pairs inside an array or a vector are its length and the type of its elements. -/
theorem sized_eq {length : String} {element : Pair} (helement : element.part = .type)
    (hlength : Lexeme.NumberLike length) :
    sized (meaningful [mk .intLiteral length [], element]) =
      match Surface.decimalBelow? UInt64.size length.toList with
      | none => .error (.binding (.badAggregateLength length))
      | some n => .ok ((.ofNat n, element), []) := by
  obtain ⟨c, cs, hc, hnumber⟩ := hlength
  have hplus : c ≠ '+' := by
    rintro rfl
    simp at hnumber
  obtain ⟨p, text, children⟩ := element
  obtain rfl : p = .type := helement
  rw [hc, ← unsigned?_eq hplus, ← hc]
  change (match unsigned? UInt64.size length.toList with
    | none => of (.error (.binding (.badAggregateLength length)))
    | some n => do
      let element ← expect .type
      return (.ofNat n, element) : Cursor (UInt64 × Pair)) [mk .type text children] = _
  cases unsigned? UInt64.size length.toList <;> rfl

/-- An array or a vector of elements is what its length and its elements are. -/
theorem isBase_aggregate {p : Part} {build : String → Surface.TypeText → Surface.TypeText}
    (hp : p = .arrayType ∧ build = .array ∨ p = .vectorType ∧ build = .vector)
    {length text : String} (hlength : Lexeme.NumberLike length) {ty : Surface.TypeText}
    {element : Pair} (h : IsType ty element) :
    IsBase (build length ty) (mk p text [mk .intLiteral length [], element]) where
  references := by
    rw [references_mk (by rcases hp with ⟨rfl, _⟩ | ⟨rfl, _⟩ <;> decide), List.flatMap_cons,
      references_mk (by decide), List.flatMap_nil, List.flatMap_singleton, h.references,
      List.append_nil]
  build {text stars} hstars := by
    have hsized := sized_eq h.part hlength
    rcases hp with ⟨rfl, rfl⟩ | ⟨rfl, rfl⟩
    all_goals
      rw [type, filter_stars hstars, Surface.TypeText.bind]
      cases hn : Surface.decimalBelow? UInt64.size length.toList with
      | none =>
          rw [hn] at hsized
          split
          · cases hsized.symm.trans ‹_›
            rfl
          · cases hsized.symm.trans ‹_›
      | some n =>
          rw [hn] at hsized
          split
          · cases hsized.symm.trans ‹_›
          · cases hsized.symm.trans ‹_›
            rw [h.build]
            cases ty.bind <;> rfl

end Pair

namespace Reader

open Surface

variable {n d : Nat}

/-! ### Reading types -/

/-- Choices between readers may be regrouped. -/
theorem orElse_assoc {α : Type} (p q r : Reader α) : ((p <|> q) <|> r) = (p <|> (q <|> r)) := by
  funext s
  simp only [orElse_apply]
  cases p s <;> rfl

/-- An array or a vector, where its elements agree in a shorter text. -/
theorem agrees_aggregate {p : Part} {build : String → TypeText → TypeText}
    (hp : p = .arrayType ∧ build = .array ∨ p = .vectorType ∧ build = .vector)
    {opening closing : Char} {element : Reader TypeText}
    (hpattern : p.pattern =
      sequence (sign opening) [part .intLiteral, sign 'x', part .type, sign closing])
    (hd : 2 * n + 1 ≤ d)
    (helement : ∀ m d, m + 1 ≤ n → 2 * m + 2 ≤ d → Agrees
      (fun ty ts => ∃ t, ts = [t] ∧ Pair.IsType ty t) 1 m element
      ((Pattern.part .type).pairs (Part.take d))) :
    Agrees (fun ty ts => ∃ t, ts = [t] ∧ Pair.IsBase ty t) 1 n (do
        mark opening
        let length ← integer
        mark 'x'
        let ty ← element
        mark closing
        return build length ty)
      ((Pattern.part p).pairs (Part.take d)) := by
  refine Agrees.node (c := 0) hd fun d hd => ?_
  rw [hpattern]
  refine (takes_mark opening).agrees_token.chain_of (j := 0) (fun _ ts hts m hm => ?_) (by omega)
  subst hts
  refine (((spelled_integer.agrees rfl (by omega)).gives integer_gives).chain (j := 1)
    fun length ts hts => ?_).mono (Nat.le_refl m) (Nat.zero_le 1)
  obtain ⟨rfl, hlength⟩ := hts
  refine Agrees.mark <| (helement m d (by omega) (by omega)).chain (j := 1) fun ty ts hts => ?_
  obtain ⟨t, rfl, ht⟩ := hts
  refine (takes_mark closing).agrees_token.last fun _ ts hts text => ?_
  subst hts
  exact Pair.isBase_aggregate hp hlength ht

/-- What may stand in front of stars, where the elements of an array or a vector agree in a shorter
text. -/
theorem agrees_base {element : Reader TypeText} (hd : 2 * n + 1 ≤ d)
    (helement : ∀ m d, m + 1 ≤ n → 2 * m + 2 ≤ d → Agrees
      (fun ty ts => ∃ t, ts = [t] ∧ Pair.IsType ty t) 1 m element
      ((Pattern.part .type).pairs (Part.take d))) :
    Agrees (fun ty ts => ∃ t, ts = [t] ∧ Pair.IsBase ty t) 1 n (lookup typeOfWord?
        <|> (do
          mark '['
          let length ← integer
          mark 'x'
          let element ← element
          mark ']'
          return .array length element)
        <|> (do
          mark '<'
          let length ← integer
          mark 'x'
          let element ← element
          mark '>'
          return .vector length element))
      ((firstOf (part .intType) [part .floatType, part .ptrType, part .voidType, part .arrayType,
        part .vectorType]).pairs (Part.take d)) := by
  rw [lookup_orElse typeOfWord?_eq,
    lookup_orElse (f := namedWord? floatWords) fun _ => rfl,
    lookup_orElse (f := namedWord? ["ptr"]) fun _ => rfl,
    orElse_assoc, orElse_assoc, orElse_assoc]
  refine .either ((agrees_intWord (by omega)).imp ?int) <|
    .either ((agrees_namedWord (x := .floatType) rfl (by omega) isSome_floatWords).imp ?float) <|
    .either ((agrees_namedWord (x := .ptrType) rfl (by omega) (by simp; rfl)).imp ?ptr) <|
    .either ((agrees_namedWord (x := .voidType) rfl (by omega) (by simp; rfl)).imp ?void) <|
    .either (agrees_aggregate (.inl ⟨rfl, rfl⟩) rfl hd helement)
      (agrees_aggregate (.inr ⟨rfl, rfl⟩) rfl hd helement)
  case int =>
    rintro ty ts ⟨w, hw, rfl⟩
    exact ⟨_, rfl, Pair.isBase_int hw⟩
  case float =>
    rintro ty ts ⟨w, hw, hty, rfl⟩
    exact ⟨_, rfl, Pair.isBase_float hw hty⟩
  case ptr =>
    rintro ty ts ⟨w, hw, hty, rfl⟩
    obtain rfl := List.mem_singleton.mp hw
    cases hty
    exact ⟨_, rfl, Pair.isBase_ptr _⟩
  case void =>
    rintro ty ts ⟨w, hw, hty, rfl⟩
    obtain rfl := List.mem_singleton.mp hw
    cases hty
    exact ⟨_, rfl, Pair.isBase_void _⟩

/-- Both grammars agree on a type, when the fuel covers the weight of the text. -/
theorem agrees_typeUpTo (hd : 2 * n + 2 ≤ d) (fuel : Nat) (hfuel : n < fuel) :
    Agrees (fun ty ts => ∃ t, ts = [t] ∧ Pair.IsType ty t) 1 n (typeUpTo fuel)
      ((Pattern.part .type).pairs (Part.take d)) := by
  induction n using Nat.strong_induction_on generalizing d fuel with
  | _ n ih =>
      obtain ⟨fuel, rfl⟩ := Nat.exists_eq_add_one_of_ne_zero (n := fuel) (by omega)
      refine Agrees.node (c := 1) hd fun d hd => ?_
      refine (agrees_base hd fun m d hm hd => ih m hm hd fuel (by omega)).chain (j := 0)
        fun base ts hts => ?_
      obtain ⟨t, rfl, ht⟩ := hts
      have hstar : Agrees (fun _ ts => ∃ text children,
          ts = [.mk .pointerSuffix text children] ∧ children = []) 1 n (mark '*')
          ((Pattern.part .pointerSuffix).pairs (Part.take d)) :=
        .part (c := 0) hd fun d _ => (takes_mark '*').agrees_token
      refine hstar.many.last fun stars us hus text => ht.isType (hus.forall₂ ?_) text
      rintro _ us ⟨text, children, rfl, rfl⟩
      exact ⟨_, rfl, text, rfl⟩

/-- Both grammars agree on a type. -/
theorem agrees_type (hd : 2 * n + 2 ≤ d) :
    Agrees (fun ty ts => ∃ t, ts = [t] ∧ Pair.IsType ty t) 1 n Surface.type
      ((Pattern.part .type).pairs (Part.take d)) := by
  intro s hs
  have hle := weight_le s
  obtain hnone | ⟨ty, rest, ts, rest', hp, hq, h⟩ :=
    agrees_typeUpTo (n := weight s) (d := d) (by omega) (s.length + 1) (by omega) s (Nat.le_refl _)
  · exact .inl hnone
  · exact .inr ⟨ty, rest, ts, rest', hp, hq, h⟩

end Reader

/-! ## Operands -/

namespace Surface

variable {scope : Scope} {name : String}

/-- What a local name is bound to is what the scope finds for it. -/
theorem value?_of_bindLocal {v : Operand} (h : bindLocal scope name = .ok v) :
    scope.value? name = some v := by
  unfold bindLocal at h
  split at h
  · cases h
    assumption
  · cases h

/-- What a label is bound to is what the scope finds for it. -/
theorem block?_of_bindLabel {b : BlockId} (h : bindLabel scope name = .ok b) :
    scope.block? name = some b := by
  unfold bindLabel at h
  split at h
  · cases h
    assumption
  · cases h

end Surface

namespace Pair

open Cursor BuildError

variable {scope : Surface.Scope}

/-- What the pairs that refer to something are written for. -/
def Listed (scope : Surface.Scope) (ms : List Mention) (rs : List Pair) : Prop :=
  List.Forall₂ (NamesIn scope) rs ms

/-- Mentions are listed part by part. -/
theorem Listed.append {ms ms' : List Mention} {rs rs' : List Pair} (h : Listed scope ms rs)
    (h' : Listed scope ms' rs') : Listed scope (ms ++ ms') (rs ++ rs') :=
  List.rel_append h h'

/-- The pair of an operand as written. -/
structure IsOperand (o : Surface.OperandText) (t : Pair) : Prop where
  part : t.part = .value
  /-- What is built from the pair is what binding makes of the operand. -/
  build (scope : Surface.Scope) (ty : Ty) : t.value scope ty = lift (o.bind scope ty)
  /-- The pair is written for what the operand is bound to. -/
  names {scope : Surface.Scope} {ty : Ty} {v : Operand} : o.bind scope ty = .ok v →
    NamesIn scope t (.value v)

/-- The field of a value gives what binding makes of the operand, and refers to it. -/
theorem IsOperand.yields {o : Surface.OperandText} {t : Pair} (h : IsOperand o t)
    (scope : Surface.Scope) (ty : Ty) :
    Yields (fun v rs => Listed scope [.value v] rs) (valueField scope ty) [t] (o.bind scope ty) :=
  yields_expect h.part rfl (h.build scope ty) fun v hv => by
    rw [references_of_part (.inl h.part)]
    exact .cons (h.names hv) .nil

/-- A value pair around a local name is the operand of that name. -/
theorem isOperand_local {inner : Pair} (h : inner.part = .local) (text : String) :
    IsOperand (.local inner.ident) (mk .value text [inner]) where
  part := rfl
  build scope ty := by
    simp only [value, children, h]
    rfl
  names hv := .local rfl rfl h (Surface.value?_of_bindLocal hv)

/-- A value pair around a global name is the operand of that name. -/
theorem isOperand_global {inner : Pair} (h : inner.part = .global) (text : String) :
    IsOperand (.global inner.ident) (mk .value text [inner]) where
  part := rfl
  build scope ty := by
    simp only [value, children, h]
    rfl
  names hv := by
    cases hv
    exact .global rfl rfl h

/-- A value pair around anything else is a literal. -/
theorem isOperand_literal {inner : Pair} (hl : inner.part ≠ .local) (hg : inner.part ≠ .global)
    (text : String) : IsOperand (.literal inner.text) (mk .value text [inner]) where
  part := rfl
  build scope ty := by
    simp only [value, children]
    rfl
  names hv := by
    cases hv
    exact .literal rfl rfl hl hg

/-- The pairs of an operand after its type. -/
def IsTyped (a : Surface.TypedText) (ts : List Pair) : Prop :=
  ∃ t u, ts = [t, u] ∧ IsType a.ty t ∧ IsOperand a.value u

/-- The field of a typed value gives what binding makes of type and operand. -/
theorem IsTyped.yields {a : Surface.TypedText} {ts : List Pair} (h : IsTyped a ts)
    (scope : Surface.Scope) :
    Yields (fun v rs => Listed scope [.value v.value] rs) (typedField scope) ts (a.bind scope) := by
  obtain ⟨t, u, rfl, ht, hu⟩ := h
  refine ht.yields.bind fun ty rs hrs => (hu.yields scope ty).last fun v us hus => ?_
  subst hrs
  exact hus

end Pair

namespace Reader

open Surface

variable {n d : Nat}

/-- Both grammars agree on an operand. -/
theorem agrees_operand (hd : 2 * n + 4 ≤ d) :
    Agrees (fun o ts => ∃ t, ts = [t] ∧ Pair.IsOperand o t) 1 n operand
      ((Pattern.part .value).pairs (Part.take d)) := by
  refine Agrees.node (c := 3) hd fun d hd => ?_
  rw [operand, map_eq_pure_bind, map_eq_pure_bind, map_eq_pure_bind]
  refine .either ((agrees_localName (by omega)).last ?_) <|
    .either ((agrees_globalName (by omega)).last ?_) ((agrees_literal (by omega)).last ?_)
  · rintro w ts ⟨t, rfl, ht, rfl⟩ text
    exact Pair.isOperand_local ht text
  · rintro w ts ⟨t, rfl, ht, rfl⟩ text
    exact Pair.isOperand_global ht text
  · rintro w ts ⟨t, rfl, hl, hg, rfl⟩ text
    exact Pair.isOperand_literal hl hg text

/-- Both grammars agree on a typed operand. -/
theorem agrees_typed (hd : 2 * n + 4 ≤ d) :
    Agrees (fun a ts => Pair.IsTyped a ts) 1 n Surface.typed
      (Pattern.typed.pairs (Part.take d)) :=
  (agrees_type (by omega)).chain fun ty ts hts => (agrees_operand hd).last fun o us hus => by
    obtain ⟨t, rfl, ht⟩ := hts
    obtain ⟨u, rfl, hu⟩ := hus
    exact ⟨t, u, rfl, ht, hu⟩

/-- Both grammars agree on a typed operand behind a comma. -/
theorem agrees_nextTyped (hd : 2 * n + 4 ≤ d) :
    Agrees (fun a ts => Pair.IsTyped a ts) 1 n Surface.nextTyped
      (Pattern.nextTyped.pairs (Part.take d)) := (agrees_typed hd).mark

end Reader

end Dataflow
