import Dataflow.Proofs.Text.PairOperands

/-!
# Pairs of instructions

For each form of an instruction, what is built from the pairs inside it is what binding makes of the
statement that was read in its place, and everything that is written in it is in the instruction
that is built (`Reader.agrees_statement`). One theorem for each form goes along its sequence of
parts and along the cursor at once. With the name of a result in front and trailers behind, a form
is a line (`Reader.agrees_line`).
-/

namespace Dataflow

open Lexeme Pattern

namespace Pair

open Cursor BuildError

variable {α β : Type} {scope : Surface.Scope}

/-! ## Fields -/

/-- A word that the table has for an operator. -/
theorem ends_word {p : Part} (hp : p.isNoise = false ∧ ¬ (p = .value ∨ p = .local ∨ p = .global))
    {table : String → Option α} {w : String} {a : α} (ha : table w = some a)
    {unknown : String → BuildError} {k : α → Cursor β} {qs : List Pair} {Q : β → List Pair → Prop}
    {x : Except BindingError β} (h : Ends Q (k a) qs x) :
    Ends Q (wordField p table unknown >>= k) ([mk p w []] ++ qs) x where
  run := by
    have hkeep : meaningful ([mk p w []] ++ qs) = mk p w [] :: meaningful qs :=
      List.filter_cons_of_pos (by simp [part, hp.1])
    have hword : wordField p table unknown (mk p w [] :: meaningful qs) =
        .ok (a, meaningful qs) := by
      refine Cursor.bind_eq_ok.mpr ⟨mk p w [], meaningful qs, expect_eq_ok.mpr ⟨rfl, rfl⟩, ?_⟩
      rw [text, ha]
      rfl
    rw [hkeep, result_bind, hword]
    exact h.run
  holds heq := by
    rw [List.singleton_append, List.flatMap_cons, references_mk hp.2, List.flatMap_nil,
      List.nil_append]
    exact h.holds heq

/-- A repeated field takes every typed operand, when its bound covers their number. -/
theorem run_repeatUpTo {as : List Surface.TypedText} {tss : List (List Pair)}
    (h : List.Forall₂ IsTyped as tss) {bound : Nat} (hbound : as.length ≤ bound) :
    repeatUpTo .type (typedField scope) bound (meaningful tss.flatten) =
      (lift (as.mapM (·.bind scope))).map (·, []) := by
  induction h generalizing bound with
  | nil => cases bound <;> rfl
  | @cons a ts as tss hts _ ih =>
      obtain ⟨bound, rfl⟩ := Nat.exists_eq_add_one_of_ne_zero (n := bound) (by
        rw [List.length_cons] at hbound
        omega)
      have hnext : nextIs .type (meaningful ts ++ meaningful tss.flatten) =
          .ok (true, meaningful ts ++ meaningful tss.flatten) := by
        obtain ⟨t, u, rfl, ht, hu⟩ := hts
        simp [nextIs, meaningful, ht.part, Part.isNoise]
      have hrest := ih (Nat.le_of_succ_le_succ hbound)
      rw [List.flatten_cons, meaningful_append, repeatUpTo, List.mapM_cons]
      change ((nextIs .type _).bind fun r => (if r.1 = true then typedField scope >>= fun v =>
        repeatUpTo .type (typedField scope) bound >>= fun vs => pure (v :: vs)
        else pure [] : Cursor (List TypedOperand)) r.2) = _
      rw [hnext]
      change ((typedField scope _).bind fun r =>
        (repeatUpTo .type (typedField scope) bound r.2).bind fun q => .ok (r.1 :: q.1, q.2)) = _
      rw [(hts.yields scope).run]
      cases a.bind scope with
      | error e => rfl
      | ok v =>
          change ((repeatUpTo .type (typedField scope) bound _).bind fun q => _) = _
          rw [hrest]
          cases as.mapM (·.bind scope) <;> rfl

/-- Each typed operand has a pair that matters, so the number of pairs bounds the repetition. -/
theorem length_le_meaningful {as : List Surface.TypedText} {tss : List (List Pair)}
    (h : List.Forall₂ IsTyped as tss) : as.length ≤ (meaningful tss.flatten).length := by
  induction h with
  | nil => exact Nat.le_refl 0
  | cons hts _ ih =>
      obtain ⟨t, u, rfl, ht, hu⟩ := hts
      rw [List.flatten_cons, meaningful_append, List.length_append, List.length_cons]
      have hone : 0 < (meaningful [t, u]).length := by
        simp [meaningful, ht.part, Part.isNoise]
      omega

/-- What each value of a list holds, the list holds. -/
theorem listed_mapM {γ δ : Type} {R : γ → List Pair → Prop} {f : γ → Except BindingError δ}
    {mentions : δ → List Mention}
    (hR : ∀ a ts, R a ts → ∀ v, f a = .ok v → Listed scope (mentions v) (ts.flatMap references))
    {as : List γ} {ts : List Pair} (h : Reader.Each R as ts) {vs : List δ}
    (hvs : as.mapM f = .ok vs) : Listed scope (vs.flatMap mentions) (ts.flatMap references) := by
  obtain ⟨tss, hall, rfl⟩ := h
  induction hall generalizing vs with
  | nil =>
      cases hvs
      exact .nil
  | cons hat _ ih =>
      simp only [List.mapM_cons, bind_eq_ok, pure_eq_ok] at hvs
      obtain ⟨v, hv, ws, hws, rfl⟩ := hvs
      rw [List.flatten_cons, List.flatMap_append, List.flatMap_cons]
      exact (hR _ _ hat v hv).append (ih hws)

/-- Indices: operands after their types, as long as a type comes next. -/
theorem ends_whileNext {as : List Surface.TypedText} {ts : List Pair}
    (h : Reader.Each IsTyped as ts) :
    Ends (fun vs rs => Listed scope (vs.map fun v => .value v.value) rs)
      (whileNext .type (typedField scope)) ts (as.mapM (·.bind scope)) where
  run := by
    obtain ⟨tss, h, rfl⟩ := h
    rw [Cursor.result, whileNext, run_repeatUpTo h (length_le_meaningful h)]
    cases as.mapM (·.bind scope) <;> rfl
  holds heq := by
    rw [List.map_eq_flatMap]
    exact listed_mapM (fun _ _ hts _ hv => (hts.yields scope).holds hv) h heq

/-- The pair of an arm as written. -/
structure IsArm (a : Surface.ArmText) (t : Pair) : Prop where
  part : t.part = .incoming
  /-- What is built from the pair is what binding makes of the arm. -/
  build (scope : Surface.Scope) (ty : Ty) : t.arm scope ty = lift (a.bind scope ty)
  /-- The pair holds what the arm is bound to. -/
  names {scope : Surface.Scope} {ty : Ty} {v : Arm} : a.bind scope ty = .ok v →
    Listed scope [.value v.value, .block v.source] t.references

/-- The pair of an argument as written. -/
structure IsArgument (a : Surface.TypedText) (t : Pair) : Prop where
  /-- What is built from the pair is what binding makes of the argument. -/
  build (scope : Surface.Scope) : t.argument scope = lift (a.bind scope)
  /-- The pair holds what the argument is bound to. -/
  names {scope : Surface.Scope} {v : TypedOperand} : a.bind scope = .ok v →
    Listed scope [.value v.value] t.references

/-- Pairs of one part that means something are all gone over. -/
theorem meaningful_of_part {p : Part} (hp : p.isNoise = false) {ts : List Pair}
    (h : ∀ t ∈ ts, t.part = p) : meaningful ts = ts :=
  List.filter_eq_self.mpr fun t ht => by rw [h t ht, hp, Bool.not_false]

/-- Pairs of one part are taken together. -/
theorem rest_of_part {p : Part} {ts : List Pair} (h : ∀ t ∈ ts, t.part = p) :
    rest p ts = .ok (ts, []) := by
  have hall : ∀ t ∈ ts, decide (t.part = p) = true := by simpa using h
  rw [rest, List.takeWhile_eq_self_iff.mpr hall, List.dropWhile_eq_nil_iff.mpr hall]

/-- The field of the arms gives what binding makes of each, value and block in turn. -/
theorem ends_armsField {as : List Surface.ArmText} {ts : List Pair}
    (h : Reader.Each (fun a ts => ∃ t, ts = [t] ∧ IsArm a t) as ts) (ty : Ty) :
    Ends (fun vs rs => Listed scope (vs.flatMap fun v => [.value v.value, .block v.source]) rs)
      (armsField scope ty) ts (as.mapM (·.bind scope ty)) where
  run := by
    have hall := h.forall₂ fun _ _ hts => hts
    have hpart : ∀ t ∈ ts, t.part = .incoming :=
      forall_mem_of_forall₂ (hall.imp fun _ _ hat => hat.part)
    rw [armsField, result_bind, meaningful_of_part rfl hpart, rest_of_part hpart,
      ← lift_mapM (hall.imp fun _ _ hat => hat.build scope ty)]
    change ((ts.mapM (arm scope ty)).map (·, [])).map (·.1) = _
    cases ts.mapM (arm scope ty) <;> rfl
  holds heq := by
    refine listed_mapM (fun a us hus v hv => ?_) h heq
    obtain ⟨t, rfl, ht⟩ := hus
    rw [List.flatMap_singleton]
    exact ht.names hv

/-- The arguments of a call, if there is a list of them. -/
theorem ends_argumentsField {as : Option (List Surface.TypedText)} {ts : List Pair}
    (h : Reader.Maybe (fun as ts => ∃ text children, ts = [mk .arguments text children] ∧
      Reader.Each (fun a ts => ∃ t, ts = [t] ∧ IsArgument a t) as children) as ts) :
    Ends (fun vs rs => Listed scope (vs.map fun v => .value v.value) rs)
      (argumentsField scope) ts ((as.getD []).mapM (·.bind scope)) := by
  obtain ⟨rfl, rfl⟩ | ⟨as, rfl, text, children, rfl, h⟩ := h
  · refine ⟨rfl, fun heq => ?_⟩
    cases heq
    exact .nil
  · constructor
    · have hall := h.forall₂ fun _ _ hts => hts
      rw [Option.getD_some, ← lift_mapM (hall.imp fun _ _ hat => hat.build scope)]
      change ((children.mapM (argument scope)).map (·, [])).map (·.1) = _
      cases children.mapM (argument scope) <;> rfl
    · intro vs heq
      rw [List.flatMap_singleton, references_mk (by decide), List.map_eq_flatMap]
      refine listed_mapM (fun a us hus v hv => ?_) h heq
      obtain ⟨t, rfl, ht⟩ := hus
      rw [List.flatMap_singleton]
      exact ht.names hv

/-- What a call names. -/
def IsCallee (c : Surface.CalleeText) (ts : List Pair) : Prop := ∀ scope,
  Yields (fun v rs => Listed scope [.value v] rs) (calleeField scope) ts (c.bind scope)

/-- A global name can be called. -/
theorem isCallee_global {t : Pair} (h : t.part = .global) : IsCallee (.global t.ident) [t] := by
  intro scope
  obtain ⟨p, text, children⟩ := t
  obtain rfl : p = .global := h
  refine ⟨fun more => rfl, fun heq => ?_⟩
  cases heq
  rw [List.flatMap_singleton, references_of_part (.inr (.inr rfl))]
  exact .cons (.function rfl) .nil

/-- A local name can be called. -/
theorem isCallee_local {t : Pair} (h : t.part = .local) : IsCallee (.local t.ident) [t] := by
  intro scope
  obtain ⟨p, text, children⟩ := t
  obtain rfl : p = .local := h
  refine ⟨fun more => rfl, fun heq => ?_⟩
  rw [List.flatMap_singleton, references_of_part (.inr (.inl rfl))]
  exact .cons (.called rfl (Surface.value?_of_bindLocal heq)) .nil

/-- A label that comes next. -/
theorem yields_labelField {t : Pair} (h : t.part = .local) :
    Yields (fun b rs => Listed scope [.block b] rs) (labelField scope) [t]
      (Surface.bindLabel scope t.ident) :=
  yields_expect h rfl rfl fun b hb => by
    rw [references_of_part (.inr (.inl h))]
    exact .cons (.label h (Surface.block?_of_bindLabel hb)) .nil

/-- The number of values that memory is reserved for, if it is written. -/
theorem ends_countField {a : Option Surface.TypedText} {ts : List Pair}
    (h : Reader.Maybe IsTyped a ts) :
    Ends (fun v rs => Listed scope (v.toList.map fun v => .value v.value) rs)
      (countField scope) ts (Surface.bindOptional scope a) := by
  obtain ⟨rfl, rfl⟩ | ⟨a, rfl, h⟩ := h
  · refine ⟨rfl, fun heq => ?_⟩
    cases heq
    exact .nil
  · have hcount : (countField scope).result (meaningful ts) =
        (typedField scope >>= fun v => pure (some v)).result (meaningful ts) := by
      obtain ⟨t, u, rfl, ht, hu⟩ := h
      simp [countField, result_bind, nextIs, meaningful, ht.part, Part.isNoise, Except.bind]
    have hlast := ((h.yields scope).last (b := some)
      (Q := fun v rs => Listed scope (v.toList.map fun v => .value v.value) rs)
      fun v rs hrs => hrs).ends
    exact ⟨hcount.trans hlast.run, hlast.holds⟩

end Pair

/-! ## Forms -/

/-- What is built from the pairs inside an instruction of form `p` is what binding makes of the
statement, and it holds what the pairs refer to. -/
def Pair.Builds (p : Part) (t : Surface.Statement) (ts : List Pair) : Prop := ∀ scope text,
  Pair.Ends (fun i rs => Pair.Listed scope i.mentions rs) (Pair.instructionFields scope text p) ts
    (t.bind scope)

namespace Reader

open Surface Pair

variable {n d : Nat}

theorem agrees_load (hd : 2 * n + 4 ≤ d) :
    Agrees (Builds .load) 1 n Surface.load (Part.load.pattern.pairs (Part.take d)) :=
  (agrees_keyword rfl rfl (by omega)).chain fun _ _ hword =>
    (agrees_flags (by omega)).chain fun _ _ hflags =>
    (agrees_type (by omega)).chain fun ty _ hty =>
    (agrees_nextTyped hd).last fun address _ haddress scope text => by
  obtain ⟨t, rfl, ht⟩ := hty
  refine .skip hword <| .skip hflags <| .bind ht.yields fun ty rs hrs => ?_
  subst hrs
  exact .last (haddress.yields scope).ends fun _ _ h => h

theorem agrees_store (hd : 2 * n + 4 ≤ d) :
    Agrees (Builds .store) 1 n Surface.store (Part.store.pattern.pairs (Part.take d)) :=
  (agrees_keyword rfl rfl (by omega)).chain fun _ _ hword =>
    (agrees_flags (by omega)).chain fun _ _ hflags =>
    (agrees_typed hd).chain fun value _ hvalue =>
    (agrees_nextTyped hd).last fun address _ haddress scope text =>
  .skip hword <| .skip hflags <| .bind (hvalue.yields scope) fun _ _ hrs =>
    .last (haddress.yields scope).ends fun _ _ hus => hrs.append hus

theorem agrees_elementPtr (hd : 2 * n + 4 ≤ d) :
    Agrees (Builds .elementPtr) 1 n Surface.elementPtr
      (Part.elementPtr.pattern.pairs (Part.take d)) :=
  (agrees_keyword rfl rfl (by omega)).chain fun _ _ hword =>
    (agrees_flags (by omega)).chain fun _ _ hflags =>
    (agrees_type (by omega)).chain fun source _ hsource =>
    (agrees_nextTyped hd).chain fun base _ hbase =>
    (agrees_nextTyped hd).many.last fun indices _ hindices scope text => by
  obtain ⟨t, rfl, ht⟩ := hsource
  refine .skip hword <| .skip hflags <| .bind ht.yields fun ty rs hrs => ?_
  subst hrs
  exact .bind (hbase.yields scope) fun _ _ hrs =>
    .last (ends_whileNext hindices) fun _ _ hus => hrs.append hus

/-- An operator, and two operands of one type. -/
theorem agrees_operandPair (hd : 2 * n + 4 ≤ d) (build : TypedText → OperandText → Statement) :
    Agrees (fun t ts => ∃ lhs rhs us u, t = build lhs rhs ∧ ts = us ++ [u] ∧ IsTyped lhs us ∧
      IsOperand rhs u) 1 n (Surface.operandPair build)
      ((sequence Pattern.typed [sign ',', part .value]).pairs (Part.take d)) :=
  (agrees_typed hd).chain fun lhs us hlhs => .mark <| (agrees_operand hd).last fun rhs _ hrhs => by
    obtain ⟨u, rfl, hu⟩ := hrhs
    exact ⟨lhs, rhs, us, u, rfl, rfl, hlhs, hu⟩

/-- Two operands of one type are read by the same fields in every form that takes them. -/
theorem ends_operands {lhs : TypedText} {rhs : OperandText} {us : List Pair} {u : Pair}
    (hlhs : IsTyped lhs us) (hrhs : IsOperand rhs u) (scope : Scope)
    (build : Ty → Operand → Operand → Instruction)
    (hbuild : ∀ ty v w, (build ty v w).mentions = [.value v, .value w]) :
    Ends (fun i rs => Listed scope i.mentions rs) (do
        let lhs ← typedField scope
        let rhs ← valueField scope lhs.ty
        return build lhs.ty lhs.value rhs) (us ++ [u]) (do
        let lhs ← lhs.bind scope
        let rhs ← rhs.bind scope lhs.ty
        return build lhs.ty lhs.value rhs) :=
  .bind (hlhs.yields scope) fun v _ hrs =>
    .last (hrhs.yields scope v.ty).ends fun _ _ hus => by
      rw [hbuild]
      exact hrs.append hus

theorem agrees_binary (hd : 2 * n + 4 ≤ d) :
    Agrees (Builds .binary) 1 n Surface.binary (Part.binary.pattern.pairs (Part.take d)) :=
  (agrees_lookup rfl (by omega) mem_binaryWords).chain fun op _ hop =>
    (agrees_flags (by omega)).chain fun _ _ hflags =>
    (agrees_operandPair hd (.binary op)).imp fun t _ ht scope text => by
  obtain ⟨w, hw, rfl⟩ := hop
  obtain ⟨lhs, rhs, us, u, rfl, rfl, hlhs, hrhs⟩ := ht
  exact ends_word (by decide) hw <| .skip hflags <|
    ends_operands hlhs hrhs scope (.binary op) fun _ _ _ => rfl

/-- A comparison: the predicate stands behind the flags. -/
theorem agrees_compare {α : Type} (hd : 2 * n + 4 ≤ d) {p kind word : Part} {name : String}
    {words : List String} {table : String → Option α} {test : α → Comparison}
    (hname : kind.pattern = wordOf [name]) (hkind : kind.isNoise = true)
    (hwords : word.pattern = wordOf words) (htable : ∀ w, w ∈ words ↔ (table w).isSome = true)
    (hword : word.isNoise = false ∧ ¬ (word = .value ∨ word = .local ∨ word = .global))
    (hfields : ∀ scope text, instructionFields scope text p =
      Pair.operandPair scope (wordField word table .unknownPredicate) fun a => .compare (test a)) :
    Agrees (Builds p) 1 n (do
        keyword name
        flags
        let a ← lookup table
        Surface.operandPair (.compare (test a)))
      ((sequence (part kind) [Pattern.flags, part word, Pattern.typed, sign ',', part .value]).pairs
        (Part.take d)) :=
  (agrees_keyword hname hkind (by omega)).chain fun _ _ hk =>
    (agrees_flags (by omega)).chain fun _ _ hflags =>
    (agrees_lookup hwords (by omega) htable).chain fun a _ ha =>
    (agrees_operandPair hd (.compare (test a))).imp fun t _ ht scope text => by
  obtain ⟨w, hw, rfl⟩ := ha
  obtain ⟨lhs, rhs, us, u, rfl, rfl, hlhs, hrhs⟩ := ht
  rw [hfields]
  exact .skip hk <| .skip hflags <| ends_word hword hw <|
    ends_operands hlhs hrhs scope (.compare (test a)) fun _ _ _ => rfl

theorem agrees_intCompare (hd : 2 * n + 4 ≤ d) :
    Agrees (Builds .intCompare) 1 n Surface.intCompare
      (Part.intCompare.pattern.pairs (Part.take d)) :=
  agrees_compare hd rfl rfl rfl mem_intPredicateWords (by decide) fun _ _ => rfl

theorem agrees_floatCompare (hd : 2 * n + 4 ≤ d) :
    Agrees (Builds .floatCompare) 1 n Surface.floatCompare
      (Part.floatCompare.pattern.pairs (Part.take d)) :=
  agrees_compare hd rfl rfl rfl mem_floatPredicateWords (by decide) fun _ _ => rfl

theorem agrees_cast (hd : 2 * n + 4 ≤ d) :
    Agrees (Builds .cast) 1 n Surface.cast (Part.cast.pattern.pairs (Part.take d)) :=
  (agrees_lookup rfl (by omega) mem_castWords).chain fun op _ hop =>
    (agrees_flags (by omega)).chain fun _ _ hflags =>
    (agrees_typed hd).chain fun value _ hvalue =>
    (agrees_keyword rfl rfl (by omega)).chain fun _ _ hto =>
    (agrees_type (by omega)).last fun target _ htarget scope text => by
  obtain ⟨w, hw, rfl⟩ := hop
  obtain ⟨t, rfl, ht⟩ := htarget
  refine ends_word (by decide) hw <| .skip hflags <| .bind (hvalue.yields scope) fun _ _ hrs =>
    .skip hto <| .last ht.yields.ends fun _ us hus => ?_
  subst hus
  rw [List.append_nil]
  exact hrs

/-- An arm of a phi. -/
theorem agrees_arm (hd : 2 * n + 5 ≤ d) :
    Agrees (fun a ts => ∃ t, ts = [t] ∧ IsArm a t) 1 n Surface.arm
      ((Pattern.part .incoming).pairs (Part.take d)) := by
  refine Agrees.node (c := 4) hd fun d hd => ?_
  refine Agrees.mark <| (agrees_operand hd).chain (j := 1) fun value _ hvalue => Agrees.mark <|
    (agrees_localName (by omega)).chain (j := 1) fun source _ hsource =>
    (takes_mark ']').agrees_token.last fun _ _ hnil text => ?_
  obtain ⟨t, rfl, ht⟩ := hvalue
  obtain ⟨u, rfl, hu, rfl⟩ := hsource
  subst hnil
  have hends : ∀ scope ty, Ends
      (fun v rs => Listed scope [.value v.value, .block v.source] rs) (do
        let value ← valueField scope ty
        let source ← labelField scope
        return { value, source }) ([t] ++ ([u] ++ []))
      (ArmText.bind scope ty { value, source := u.ident }) := fun scope ty =>
    .bind (ht.yields scope ty) fun _ _ hrs =>
      .last (yields_labelField hu).ends fun _ _ hus => hrs.append hus
  exact ⟨rfl, fun scope ty => (hends scope ty).run, fun hv => by
    rw [references_mk (by decide)]
    exact (hends _ _).holds hv⟩

theorem agrees_phi (hd : 2 * n + 5 ≤ d) :
    Agrees (Builds .phi) 1 n Surface.phi (Part.phi.pattern.pairs (Part.take d)) :=
  (agrees_keyword rfl rfl (by omega)).chain fun _ _ hword =>
    (agrees_flags (by omega)).chain fun _ _ hflags =>
    (agrees_type (by omega)).chain fun ty _ hty =>
    (agrees_arm hd).sepBy1.last fun arms _ harms scope text => by
  obtain ⟨t, rfl, ht⟩ := hty
  refine .skip hword <| .skip hflags <| .bind ht.yields fun ty rs hrs => ?_
  subst hrs
  exact .last (ends_armsField harms.2 ty) fun _ _ h => h

theorem agrees_select (hd : 2 * n + 4 ≤ d) :
    Agrees (Builds .select) 1 n Surface.select (Part.select.pattern.pairs (Part.take d)) :=
  (agrees_keyword rfl rfl (by omega)).chain fun _ _ hword =>
    (agrees_flags (by omega)).chain fun _ _ hflags =>
    (agrees_typed hd).chain fun cond _ hcond =>
    (agrees_nextTyped hd).chain fun onTrue _ htrue =>
    (agrees_nextTyped hd).last fun onFalse _ hfalse scope text =>
  .skip hword <| .skip hflags <| .bind (hcond.yields scope) fun _ _ hrs =>
    .bind (htrue.yields scope) fun _ _ hus => .last (hfalse.yields scope).ends fun _ _ hvs =>
      hrs.append (hus.append hvs)

/-- An argument of a call. -/
theorem agrees_argument (hd : 2 * n + 5 ≤ d) :
    Agrees (fun a ts => ∃ t, ts = [t] ∧ IsArgument a t) 1 n Surface.argument
      ((Pattern.part .argument).pairs (Part.take d)) := by
  refine Agrees.node (c := 4) hd fun d hd => ?_
  refine (agrees_type (by omega)).chain (j := 0) fun ty _ hty =>
    (agrees_paramAttributes (by omega)).chain (j := 1) fun _ _ hattributes =>
    (agrees_operand hd).last fun value _ hvalue text => ?_
  obtain ⟨t, rfl, ht⟩ := hty
  obtain ⟨u, rfl, hu⟩ := hvalue
  have hends : ∀ scope, Ends (fun v rs => Listed scope [.value v.value] rs) (typedField scope)
      ([t] ++ (_ ++ [u])) (TypedText.bind scope { ty, value }) := fun scope =>
    .bind ht.yields fun ty rs hrs => by
      subst hrs
      exact .skip hattributes <| .last (hu.yields scope ty).ends fun _ _ hus => hus
  exact ⟨fun scope => (hends scope).run, fun hv => by
    rw [references_mk (by decide)]
    exact (hends _).holds hv⟩

theorem agrees_alloca (hd : 2 * n + 4 ≤ d) :
    Agrees (Builds .alloca) 1 n Surface.alloca (Part.alloca.pattern.pairs (Part.take d)) :=
  (agrees_keyword rfl rfl (by omega)).chain fun _ _ hword =>
    (agrees_type (by omega)).chain fun ty _ hty =>
    (agrees_nextTyped hd).optional.last fun count _ hcount scope text => by
  obtain ⟨t, rfl, ht⟩ := hty
  refine .skip hword <| .bind ht.yields fun ty rs hrs => ?_
  subst hrs
  exact .last (ends_countField hcount) fun _ _ h => h

/-- The word for blocks and the name of one. -/
theorem agrees_target (hd : 2 < d) :
    Agrees (fun name ts => ∃ ks t, ts = ks ++ [t] ∧ Noise ks ∧ t.part = .local ∧ t.ident = name) 1 n
      Surface.target (Pattern.target.pairs (Part.take d)) :=
  (agrees_keyword rfl rfl (by omega)).chain fun _ ks hks => (agrees_localName hd).imp
    fun name ts hts => by
      obtain ⟨t, rfl, ht⟩ := hts
      exact ⟨ks, t, rfl, hks, ht⟩

theorem agrees_jump (hd : 2 < d) :
    Agrees (Builds .jump) 1 n Surface.jump (Part.jump.pattern.pairs (Part.take d)) :=
  (agrees_keyword rfl rfl (by omega)).chain fun _ _ hword =>
    (agrees_target hd).last fun name _ hname scope text => by
  obtain ⟨ks, t, rfl, hks, ht, rfl⟩ := hname
  exact .skip hword <| .skip hks <| .last (yields_labelField ht).ends fun _ _ h => h

theorem agrees_branch (hd : 2 * n + 4 ≤ d) :
    Agrees (Builds .branch) 1 n Surface.branch (Part.branch.pattern.pairs (Part.take d)) :=
  (agrees_keyword rfl rfl (by omega)).chain fun _ _ hword =>
    (agrees_typed hd).chain fun cond _ hcond =>
    .mark <| (agrees_target (by omega)).chain fun onTrue _ htrue =>
    .mark <| (agrees_target (by omega)).last fun onFalse _ hfalse scope text => by
  obtain ⟨ks, t, rfl, hks, ht, rfl⟩ := htrue
  obtain ⟨ls, u, rfl, hls, hu, rfl⟩ := hfalse
  rw [List.append_assoc]
  exact .skip hword <| .bind (hcond.yields scope) fun _ _ hrs =>
    .skip hks <| .bind (yields_labelField ht) fun _ _ hus =>
    .skip hls <| .last (yields_labelField hu).ends fun _ _ hvs => hrs.append (hus.append hvs)

theorem agrees_ret (hd : 2 * n + 4 ≤ d) :
    Agrees (Builds .ret) 1 n Surface.retValue (Part.ret.pattern.pairs (Part.take d)) :=
  (agrees_keyword rfl rfl (by omega)).chain fun _ _ hword =>
    (agrees_typed hd).last fun value _ hvalue scope text => by
  have hbind : Statement.bind scope (.ret (some value)) = (do
      let value ← value.bind scope
      return .ret (some value)) := by
    rw [Statement.bind, bindOptional, bind_assoc]
    rfl
  rw [hbind]
  exact .skip hword <| .last (hvalue.yields scope).ends fun _ _ h => h

theorem agrees_unreachable (hd : 0 < d) :
    Agrees (Builds .unreachable) 1 n Surface.unreachable
      (Part.unreachable.pattern.pairs (Part.take d)) :=
  (agrees_keyword rfl rfl hd).last fun _ ts hword scope text =>
    ends_pure (by rw [hword.references]; exact .nil)

theorem agrees_retVoid (hd : 0 < d) :
    Agrees (Builds .retVoid) 1 n Surface.retVoid (Part.retVoid.pattern.pairs (Part.take d)) := by
  have hvoid : Agrees (fun _ ts => ∃ w, ts = [.mk .voidType w []]) 1 n (keyword "void")
      ((Pattern.part .voidType).pairs (Part.take d)) := by
    rw [keyword_eq, oneOf_eq]
    refine (agrees_lookup (x := .voidType) rfl hd fun w => ?_).imp fun _ ts hts => ?_
    · by_cases hw : w ∈ ["void"] <;> simp [hw]
    · obtain ⟨w, _, rfl⟩ := hts
      exact ⟨w, rfl⟩
  refine (agrees_keyword rfl rfl hd).chain (j := 1) fun _ ks hword =>
    hvoid.last fun _ ts hts scope text => ?_
  obtain ⟨w, rfl⟩ := hts
  -- the word `void` is left over
  refine .skip hword <| ends_pure ?_
  rw [List.flatMap_singleton, references_mk (by decide)]
  exact .nil

/-- Both grammars agree on what a call names. -/
theorem agrees_callee (hd : 2 < d) :
    Agrees IsCallee 1 n ((CalleeText.global <$> globalName) <|> (CalleeText.local <$> localName))
      ((either (part .global) (part .local)).pairs (Part.take d)) := by
  rw [map_eq_pure_bind, map_eq_pure_bind]
  refine .either ((agrees_globalName hd).last ?_) ((agrees_localName hd).last ?_)
  · rintro name ts ⟨t, rfl, ht, rfl⟩
    exact isCallee_global ht
  · rintro name ts ⟨t, rfl, ht, rfl⟩
    exact isCallee_local ht

/-- Both grammars agree on a call. -/
theorem agrees_call (hd : 2 * n + 6 ≤ d) :
    Agrees (Builds .call) 1 n Surface.call (Part.call.pattern.pairs (Part.take d)) := by
  have harguments : Agrees (fun as ts => ∃ text children, ts = [.mk .arguments text children] ∧
      Each (fun a ts => ∃ t, ts = [t] ∧ IsArgument a t) as children) 1 n
      (sepBy1 argument (mark ',')) ((Pattern.part .arguments).pairs (Part.take d)) :=
    .part (c := 5) hd fun d hd => (agrees_argument hd).sepBy1.imp fun _ _ h => h.2
  refine (agrees_flags (by omega)).chain_later fun _ _ hfront =>
    (agrees_keyword rfl rfl (by omega)).chain (j := 0) fun _ _ hword =>
    (agrees_flags (by omega)).chain (j := 0) fun _ _ hflags =>
    (agrees_paramAttributes (by omega)).chain (j := 1) fun _ _ hattributes =>
    (agrees_type (by omega)).chain (j := 1) fun retTy _ hretTy =>
    (agrees_callee (by omega)).chain (j := 1) fun callee _ hcallee =>
    .mark <| harguments.optional.chain (j := 1) fun args _ hargs =>
    .mark <| (agrees_functionAttributes (by omega)).last fun _ _ hback scope text => ?_
  obtain ⟨t, rfl, ht⟩ := hretTy
  refine .skip hfront <| .skip hword <| .skip hflags <| .skip hattributes <|
    .bind ht.yields fun ty rs hrs => ?_
  subst hrs
  exact .bind (hcallee scope) fun _ _ hrs => .skip_after hback <|
    .last (ends_argumentsField hargs) fun _ _ hus => hrs.append hus

end Reader

/-! ## Instructions -/

namespace Pair

/-- What an instruction refers to behind the name of its result. -/
def written (t : Pair) : List Pair :=
  (t.children.dropWhile (·.part = .local)).flatMap references

/-- The pair of a statement as written. -/
structure IsForm (t : Surface.Statement) (u : Pair) : Prop where
  part : u.part.isNoise = false ∧ u.part ≠ .local
  /-- What is built from the pair is what binding makes of the statement. -/
  build (scope : Surface.Scope) : u.form scope = BuildError.lift (t.bind scope)
  /-- The instruction holds what the pair refers to. -/
  names {scope : Surface.Scope} {i : Instruction} : t.bind scope = .ok i →
    Listed scope i.mentions u.references

/-- The pair of a line as written. -/
structure IsLine (l : Surface.Line) (t : Pair) : Prop where
  part : t.part = .instruction
  /-- The name of the result is the one that is written. -/
  name : t.resultName? = l.name
  /-- What is built from the pair is what binding makes of the line. -/
  build (scope : Surface.Scope) : t.instruction scope = BuildError.lift (do
    let i ← l.statement.bind scope
    return (l.name, i))
  /-- The instruction holds what the pair refers to. -/
  names {scope : Surface.Scope} {i : Instruction} : l.statement.bind scope = .ok i →
    Listed scope i.mentions t.written

/-- A form with nothing in front of it is a line without a name. -/
theorem IsForm.unnamed {t : Surface.Statement} {u : Pair} (h : IsForm t u) {ns : List Pair}
    (hn : Noise ns) (text : String) :
    IsLine { name := none, statement := t } (Pair.mk .instruction text (u :: ns)) where
  part := rfl
  name := by simp [resultName?, children, h.part.2]
  build scope := by
    have hfields : (Pair.mk .instruction text (u :: ns)).fields = [u] := by
      change meaningful ([u] ++ ns) = [u]
      rw [meaningful_append, hn.meaningful, List.append_nil]
      simp [meaningful, h.part.1]
    simp only [instruction, hfields, if_neg h.part.2, h.build, BuildError.lift_bind]
    rfl
  names hi := by
    rw [written, children, List.dropWhile_cons_of_neg (by simpa using h.part.2), List.flatMap_cons,
      hn.references, List.append_nil]
    exact h.names hi

/-- A form behind a local name is a line of that name. -/
theorem IsForm.named {t : Surface.Statement} {u v : Pair} (h : IsForm t u) (hv : v.part = .local)
    {ns : List Pair} (hn : Noise ns) (text : String) :
    IsLine { name := some v.ident, statement := t } (Pair.mk .instruction text (v :: u :: ns)) where
  part := rfl
  name := by simp [resultName?, children, hv]
  build scope := by
    have hfields : (Pair.mk .instruction text (v :: u :: ns)).fields = [v, u] := by
      change meaningful ([v, u] ++ ns) = [v, u]
      have hkeep : v.part.isNoise = false := by
        rw [hv]
        rfl
      rw [meaningful_append, hn.meaningful, List.append_nil]
      simp [meaningful, h.part.1, hkeep]
    simp only [instruction, hfields, if_pos hv, h.build, BuildError.lift_bind]
    rfl
  names hi := by
    rw [written, children, List.dropWhile_cons_of_pos (by simpa using hv),
      List.dropWhile_cons_of_neg (by simpa using h.part.2), List.flatMap_cons, hn.references,
      List.append_nil]
    exact h.names hi

end Pair

namespace Reader

open Surface Pair

variable {n d : Nat}

/-- A form on which both grammars agree gives a statement pair, with the names inside it. -/
theorem agrees_form {p : Part} {r : Reader Statement} {c : Nat} (hd : 2 * n + c + 1 ≤ d)
    (hp : p.isNoise = false ∧ ¬ (p = .value ∨ p = .local ∨ p = .global))
    (h : ∀ d, 2 * n + c ≤ d → Agrees (Builds p) 1 n r (p.pattern.pairs (Part.take d))) :
    Agrees (fun t ts => ∃ u, ts = [u] ∧ IsForm t u) 1 n r
      ((Pattern.part p).pairs (Part.take d)) :=
  .node hd fun d hd => (h d hd).imp fun t ts hbuilds text => by
    refine ⟨⟨hp.1, fun hlocal => hp.2 (.inr (.inl hlocal))⟩,
      fun scope => (hbuilds scope text).run, fun hi => ?_⟩
    rw [references_mk hp.2]
    exact (hbuilds _ text).holds hi

/-- Both grammars agree on a statement, form by form in the order of the grammar. -/
theorem agrees_statement (hd : 2 * n + 7 ≤ d) :
    Agrees (fun t ts => ∃ u, ts = [u] ∧ IsForm t u) 1 n Surface.statement
      (Pattern.statement.pairs (Part.take d)) := by
  refine .either (agrees_form (c := 4) (by omega) (by decide) fun d => agrees_binary) <|
    .either (agrees_form (c := 4) (by omega) (by decide) fun d => agrees_intCompare) <|
    .either (agrees_form (c := 4) (by omega) (by decide) fun d => agrees_floatCompare) <|
    .either (agrees_form (c := 4) (by omega) (by decide) fun d => agrees_load) <|
    .either (agrees_form (c := 4) (by omega) (by decide) fun d => agrees_store) <|
    .either (agrees_form (c := 4) (by omega) (by decide) fun d => agrees_elementPtr) <|
    .either (agrees_form (c := 4) (by omega) (by decide) fun d => agrees_cast) <|
    .either (agrees_form (c := 5) (by omega) (by decide) fun d => agrees_phi) <|
    .either (agrees_form (c := 4) (by omega) (by decide) fun d => agrees_select) <|
    .either (agrees_form (c := 6) (by omega) (by decide) fun d => agrees_call) <|
    .either (agrees_form (c := 4) (by omega) (by decide) fun d => agrees_alloca) <|
    .either (agrees_form (c := 3) (by omega) (by decide) fun d hd => agrees_jump (by omega)) <|
    .either (agrees_form (c := 4) (by omega) (by decide) fun d => agrees_branch) <|
    .either (agrees_form (c := 1) (by omega) (by decide) fun d hd => agrees_retVoid (by omega)) <|
    .either (agrees_form (c := 4) (by omega) (by decide) fun d => agrees_ret) <|
    agrees_form (c := 1) (by omega) (by decide) fun d hd => agrees_unreachable (by omega)

/-- Both grammars agree on a line, with its result where it has one. -/
theorem agrees_line (hd : 2 * n + 8 ≤ d) :
    Agrees (fun l ts => ∃ t, ts = [t] ∧ IsLine l t) 1 n Surface.line
      ((Pattern.part .instruction).pairs (Part.take d)) := by
  refine Agrees.node (c := 7) hd fun d hd => ?_
  have hname : Agrees (fun w ts => ∃ t, ts = [t] ∧ t.part = .local ∧ t.ident = w) 1 n (do
      let name ← localName
      mark '='
      return name) ((chain (part .local) (sign '=')).pairs (Part.take d)) :=
    (agrees_localName (by omega)).chain fun w _ hw =>
      (takes_mark '=').agrees_token.last fun _ _ hnil => by
    subst hnil
    rwa [List.append_nil]
  refine hname.optional.chain_later fun name _ hname =>
    (agrees_statement hd).chain (j := 0) fun t _ ht =>
    (agrees_trailers (by omega)).last fun _ ns hn text => ?_
  obtain ⟨u, rfl, hu⟩ := ht
  obtain ⟨rfl, rfl⟩ | ⟨_, rfl, v, rfl, hv, rfl⟩ := hname
  · exact hu.unnamed hn text
  · exact hu.named hv hn text

end Reader

end Dataflow
