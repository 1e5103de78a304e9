import Dataflow.Proofs.Text.Binding
import Dataflow.Proofs.Text.Printing
import Dataflow.Proofs.Text.ReadLiterals

/-!
# Trees that were read

What the tree of a text holds (`Surface.sound_of_functions?`): names without double quotes, literals
that are literals, and no returned value of a type that is written with `void` in front. The last
holds because a return without a value is tried first (`Surface.retValue_startsVoid`).
-/

namespace Dataflow

namespace Reader

variable {α : Type} {p : Reader α} {Q : α → Prop}

/-- An option gives what its reader gives, if anything. -/
theorem Gives.optional (hp : p.Gives Q) : (optional p).Gives fun o => ∀ a ∈ o, Q a :=
  .orElse (.map fun s a rest h => by simpa using hp s a rest h) (gives_pure (by simp))

/-- A separated list gives what its reader gives. -/
theorem Gives.sepBy1 {separator : Reader Unit} (hp : p.Gives Q) :
    (sepBy1 p separator).Gives fun as => ∀ a ∈ as, Q a :=
  hp.bind fun a ha => (gives_bind fun _ => hp).many.bind fun as has =>
    gives_pure (by simpa using ⟨ha, has⟩)

end Reader

namespace Lexeme

open Reader

/-! ## Names -/

/-- A name without a double quote, as every name in a text is. -/
def Unquoted (name : String) : Prop := '"' ∉ name.toList

/-- A bare name has no quote in it. -/
theorem IsWord.unquoted {w : String} (h : w.toList.all Symbol.isNameChar = true) : Unquoted w :=
  fun hquote => absurd (List.all_eq_true.mp h '"' hquote) (by decide)

/-- A name has no quote in it, also where it was written in quotes. -/
theorem name_gives : name.Gives Unquoted := by
  refine .orElse (gives_bind fun _ => ?_) fun s x rest h =>
    IsWord.unquoted (run1_eq_some.mp h).2.2.1
  refine Gives.bind (Q := Unquoted) (fun s x rest h => ?_) fun x hx =>
    gives_bind fun _ => gives_pure hx
  cases h
  intro hquote
  rw [String.toList_ofList] at hquote
  exact absurd (List.mem_takeWhile_imp hquote) (by decide)

theorem localName_gives : localName.Gives Unquoted :=
  gives_bind fun _ => gives_bind fun _ => name_gives

theorem globalName_gives : globalName.Gives Unquoted :=
  gives_bind fun _ => gives_bind fun _ => name_gives

theorem label_gives : label.Gives Unquoted :=
  gives_bind fun _ => name_gives.bind fun _ hname => gives_bind fun _ => gives_pure hname

end Lexeme

namespace Surface

open Lexeme Reader

/-! ## Operands -/

/-- What an operand in a text holds that is not looked up. -/
def OperandText.Sound : OperandText → Prop
  | .local _ => True
  | .global name => Unquoted name
  | .literal text => IsLiteral text

/-- What a callee in a text holds that is not looked up. -/
def CalleeText.Sound : CalleeText → Prop
  | .local _ => True
  | .global name => Unquoted name

/-- An operand that is read is sound. -/
theorem operand_gives : operand.Gives OperandText.Sound :=
  .orElse (.map fun _ _ _ _ => trivial) <| .orElse (.map globalName_gives) (.map literal_gives)

theorem typed_gives : typed.Gives (·.value.Sound) :=
  gives_bind fun _ => operand_gives.bind fun _ hvalue => gives_pure hvalue

theorem nextTyped_gives : nextTyped.Gives (·.value.Sound) := gives_bind fun _ => typed_gives

theorem argument_gives : argument.Gives (·.value.Sound) :=
  gives_bind fun _ => gives_bind fun _ => operand_gives.bind fun _ hvalue => gives_pure hvalue

/-- The value of an arm that is read is sound. -/
theorem arm_gives : arm.Gives (·.value.Sound) :=
  gives_bind fun _ => operand_gives.bind fun _ hvalue => gives_bind fun _ => gives_bind fun _ =>
    gives_bind fun _ => gives_pure hvalue

/-! ## Types of returned values -/

/-- A type in a text stands for none that is written with the word `void` in front. -/
def TypeText.NotVoid (t : TypeText) : Prop := ∀ u : Ty, t.bind = .ok u → u.startsVoid = false

theorem notVoid_array (length : String) (element : TypeText) :
    (TypeText.array length element).NotVoid := by
  intro u hu
  rw [TypeText.bind] at hu
  split at hu
  · simp only [bind_eq_ok, pure_eq_ok] at hu
    obtain ⟨_, _, rfl⟩ := hu
    rfl
  · cases hu

theorem notVoid_vector (length : String) (element : TypeText) :
    (TypeText.vector length element).NotVoid := by
  intro u hu
  rw [TypeText.bind] at hu
  split at hu
  · simp only [bind_eq_ok, pure_eq_ok] at hu
    obtain ⟨_, _, rfl⟩ := hu
    rfl
  · cases hu

/-- A type with stars is bound over its base, and starts with the same word. -/
theorem bind_stars {stars : List Unit} {base : TypeText} {u : Ty}
    (h : (stars.foldl (fun t _ => .pointer t) base).bind = .ok u) :
    ∃ v, base.bind = .ok v ∧ v.startsVoid = u.startsVoid := by
  induction stars generalizing base with
  | nil => exact ⟨u, h, rfl⟩
  | cons star stars ih =>
      obtain ⟨v, hv, hvoid⟩ := ih h
      simp only [TypeText.bind, bind_eq_ok, pure_eq_ok] at hv
      obtain ⟨target, htarget, rfl⟩ := hv
      exact ⟨target, htarget, hvoid⟩

/-- Only the word `void` names a type that starts with `void`. -/
theorem typeOfWord?_startsVoid {w : String} {base : TypeText} {u : Ty}
    (h : typeOfWord? w = some base) (hu : base.bind = .ok u) (hvoid : u.startsVoid = true) :
    w = "void" := by
  unfold typeOfWord? at h
  split at h
  · split at h
    · cases h
      rw [TypeText.bind] at hu
      split at hu
      · cases hu
        cases hvoid
      · cases hu
    · cases h
  · split at h <;> cases h
    all_goals
      cases hu
      first | rfl | cases hvoid

/-- A type that is `void` or leads to it is written with the word in front. -/
theorem type_startsVoid {s rest : List Char} {ty : TypeText} {u : Ty}
    (h : type s = some (ty, rest)) (hu : ty.bind = .ok u) (hvoid : u.startsVoid = true) :
    ∃ r, word s = some ("void", r) := by
  rw [type, typeUpTo, bind_apply, Option.bind_eq_some_iff] at h
  obtain ⟨⟨base, t⟩, hbase, hstars⟩ := h
  rw [bind_apply, Option.bind_eq_some_iff] at hstars
  obtain ⟨⟨stars, t'⟩, _, hty⟩ := hstars
  cases hty
  obtain ⟨v, hv, hstart⟩ := bind_stars hu
  rw [← hstart] at hvoid
  rw [orElse_apply] at hbase
  cases hword : lookup typeOfWord? s with
  | some r =>
      rw [hword] at hbase
      cases hbase
      rw [lookup, bind_apply, Option.bind_eq_some_iff] at hword
      obtain ⟨⟨w, t''⟩, hw, hbase⟩ := hword
      obtain ⟨base', hbase', heq⟩ := Option.map_eq_some_iff.mp hbase
      cases heq
      obtain rfl := typeOfWord?_startsVoid hbase' hv hvoid
      exact ⟨t'', hw⟩
  | none =>
      -- a bracket opens an array or a vector
      have hbracket : ∀ {build : String → TypeText → TypeText} {opening closing : Char},
          (∀ length element, (build length element).NotVoid) →
          (do
            mark opening
            let length ← integer
            mark 'x'
            let element ← typeUpTo s.length
            mark closing
            return build length element).Gives TypeText.NotVoid :=
        fun hbuild => gives_bind fun _ => gives_bind fun _ => gives_bind fun _ =>
          gives_bind fun _ => gives_bind fun _ => gives_pure (hbuild _ _)
      rw [hword] at hbase
      have hnot := (hbracket notVoid_array).orElse (hbracket notVoid_vector) s base t hbase v hv
      rw [hnot] at hvoid
      cases hvoid

/-- Where a return without a value is refused, the type of the value is not written with the word
`void` in front. -/
theorem retValue_startsVoid {s rest : List Char} {t : Statement} (hvoid : retVoid s = none)
    (h : retValue s = some (t, rest)) :
    ∀ v, t = .ret (some v) → v.ty.NotVoid := by
  rw [retValue, bind_apply, Option.bind_eq_some_iff] at h
  obtain ⟨⟨u, s'⟩, hret, h⟩ := h
  rw [bind_apply, Option.bind_eq_some_iff] at h
  obtain ⟨⟨value, s''⟩, htyped, h⟩ := h
  rw [typed, bind_apply, Option.bind_eq_some_iff] at htyped
  obtain ⟨⟨ty, r⟩, hty, htyped⟩ := htyped
  rw [bind_apply, Option.bind_eq_some_iff] at htyped
  obtain ⟨_, _, htyped⟩ := htyped
  cases htyped
  cases h
  intro v heq u hu
  cases heq
  by_contra hstarts
  obtain ⟨r', hword⟩ := type_startsVoid hty hu (Bool.of_not_eq_false hstarts)
  rw [retVoid, bind_apply, hret, Option.bind_some, bind_apply, keyword, bind_apply, hword] at hvoid
  cases hvoid

/-! ## Instructions -/

/-- The operands of a statement that are read as data. -/
@[simp]
def Statement.operands : Statement → List OperandText
  | .binary _ lhs rhs | .compare _ lhs rhs => [lhs.value, rhs]
  | .load _ address => [address.value]
  | .store value address => [value.value, address.value]
  | .elementPtr _ base indices => base.value :: indices.map (·.value)
  | .cast _ value _ => [value.value]
  | .phi _ arms => arms.map (·.value)
  | .select cond onTrue onFalse => [cond.value, onTrue.value, onFalse.value]
  | .call _ _ args => args.map (·.value)
  | .alloca _ count => (count.map (·.value)).toList
  | .branch cond _ _ => [cond.value]
  | .ret value => (value.map (·.value)).toList
  | .jump _ | .unreachable => []

/-- What a call names. -/
def Statement.callee? : Statement → Option CalleeText
  | .call _ callee _ => some callee
  | _ => none

/-- What a statement in a text holds. -/
structure Statement.Sound (t : Statement) : Prop where
  /-- The operands are sound. -/
  operands : ∀ o ∈ t.operands, o.Sound
  /-- The callee is sound. -/
  callee : ∀ c ∈ t.callee?, c.Sound
  /-- The type of a returned value is not written with the word `void` in front. -/
  returned : ∀ v, t = .ret (some v) → v.ty.NotVoid

/-- A form of two operands is sound when it keeps them. -/
theorem operandPair_gives {build : TypedText → OperandText → Statement}
    (hbuild : ∀ lhs rhs, lhs.value.Sound → rhs.Sound → (build lhs rhs).Sound) :
    (operandPair build).Gives Statement.Sound :=
  typed_gives.bind fun lhs hlhs => gives_bind fun _ => operand_gives.bind fun rhs hrhs =>
    gives_pure (hbuild lhs rhs hlhs hrhs)

/-- A statement that is neither a call nor a return is sound if its operands are. -/
theorem Statement.sound_of_operands {t : Statement} (hcallee : t.callee? = none)
    (hret : ∀ v, t ≠ .ret v) (h : ∀ o ∈ t.operands, o.Sound) : t.Sound where
  operands := h
  callee c hc := by
    rw [hcallee] at hc
    cases hc
  returned v heq := absurd heq (hret (some v))

/-- What the last alternatives give: returns with and without a value, and the end of a path. -/
theorem leave_gives : (retVoid <|> retValue <|> unreachable).Gives Statement.Sound := by
  intro s t rest h
  rw [orElse_apply] at h
  cases hvoid : retVoid s with
  | some r =>
      rw [hvoid] at h
      cases h
      have hret : retVoid.Gives (· = .ret none) :=
        gives_bind fun _ => gives_bind fun _ => gives_pure rfl
      obtain rfl := hret s t rest hvoid
      exact ⟨by simp, by simp [Statement.callee?], by simp⟩
  | none =>
      rw [hvoid, Option.orElse_none, orElse_apply] at h
      cases hvalue : retValue s with
      | some r =>
          rw [hvalue] at h
          cases h
          have hoperand : retValue.Gives fun t =>
              ∃ v : TypedText, t = .ret (some v) ∧ v.value.Sound :=
            gives_bind fun _ => typed_gives.bind fun v hv => gives_pure ⟨v, rfl, hv⟩
          obtain ⟨v, rfl, hv⟩ := hoperand s _ _ hvalue
          exact ⟨by simpa using hv, by simp [Statement.callee?],
            retValue_startsVoid hvoid hvalue⟩
      | none =>
          rw [hvalue] at h
          have hend : unreachable.Gives (· = .unreachable) := gives_bind fun _ => gives_pure rfl
          obtain rfl := hend s t rest h
          exact ⟨by simp, by simp [Statement.callee?], by simp⟩

theorem call_gives : call.Gives Statement.Sound := by
  have hargs : (optional (sepBy1 argument (mark ','))).Gives fun args =>
      ∀ t ∈ args.getD [], t.value.Sound := by
    intro s args rest h
    cases args with
    | none => simp
    | some args => exact argument_gives.sepBy1.optional s _ rest h args rfl
  have hcallee : ((CalleeText.global <$> globalName) <|> (CalleeText.local <$> localName)).Gives
      CalleeText.Sound :=
    .orElse (.map globalName_gives) (.map fun _ _ _ _ => trivial)
  refine gives_bind fun _ => gives_bind fun _ => gives_bind fun _ => gives_bind fun _ =>
    gives_bind fun retTy => hcallee.bind fun callee hcallee => gives_bind fun _ =>
    hargs.bind fun args hargs => gives_bind fun _ => gives_bind fun _ => gives_pure ?_
  exact ⟨by simpa using hargs, by simpa [Statement.callee?] using hcallee,
    fun _ => Statement.noConfusion⟩

/-- A statement that is read is sound, form by form. -/
theorem statement_gives : statement.Gives Statement.Sound := by
  have hplain : ∀ {t : Statement}, t.callee? = none → (∀ v, t ≠ .ret v) →
      (∀ o ∈ t.operands, o.Sound) → t.Sound := Statement.sound_of_operands
  refine .orElse ?binary <| .orElse ?intCompare <| .orElse ?floatCompare <| .orElse ?load <|
    .orElse ?store <| .orElse ?elementPtr <| .orElse ?cast <| .orElse ?phi <| .orElse ?select <|
    .orElse call_gives <| .orElse ?alloca <| .orElse ?jump <| .orElse ?branch leave_gives
  case binary =>
    refine gives_bind fun op => gives_bind fun _ => operandPair_gives fun lhs rhs hlhs hrhs => ?_
    exact hplain rfl (fun _ => Statement.noConfusion) (by simp [hlhs, hrhs])
  case intCompare | floatCompare =>
    refine gives_bind fun _ => gives_bind fun _ => gives_bind fun predicate =>
      operandPair_gives fun lhs rhs hlhs hrhs => ?_
    exact hplain rfl (fun _ => Statement.noConfusion) (by simp [hlhs, hrhs])
  case load =>
    refine gives_bind fun _ => gives_bind fun _ => gives_bind fun ty =>
      nextTyped_gives.bind fun address haddress => gives_pure ?_
    exact hplain rfl (fun _ => Statement.noConfusion) (by simp [haddress])
  case store =>
    refine gives_bind fun _ => gives_bind fun _ => typed_gives.bind fun value hvalue =>
      nextTyped_gives.bind fun address haddress => gives_pure ?_
    exact hplain rfl (fun _ => Statement.noConfusion)
      (by simp [hvalue, haddress])
  case elementPtr =>
    refine gives_bind fun _ => gives_bind fun _ => gives_bind fun source =>
      nextTyped_gives.bind fun base hbase => nextTyped_gives.many.bind fun indices hindices =>
      gives_pure ?_
    refine hplain rfl (fun _ => Statement.noConfusion) ?_
    simpa using ⟨hbase, hindices⟩
  case cast =>
    refine gives_bind fun op => gives_bind fun _ => typed_gives.bind fun value hvalue =>
      gives_bind fun _ => gives_bind fun target => gives_pure ?_
    exact hplain rfl (fun _ => Statement.noConfusion) (by simp [hvalue])
  case phi =>
    refine gives_bind fun _ => gives_bind fun _ => gives_bind fun ty =>
      arm_gives.sepBy1.bind fun arms harms => gives_pure ?_
    refine hplain rfl (fun _ => Statement.noConfusion) ?_
    simpa using harms
  case select =>
    refine gives_bind fun _ => gives_bind fun _ => typed_gives.bind fun cond hcond =>
      nextTyped_gives.bind fun onTrue htrue => nextTyped_gives.bind fun onFalse hfalse =>
      gives_pure ?_
    exact hplain rfl (fun _ => Statement.noConfusion)
      (by simp [hcond, htrue, hfalse])
  case alloca =>
    refine gives_bind fun _ => gives_bind fun ty =>
      nextTyped_gives.optional.bind fun count hcount => gives_pure ?_
    refine hplain rfl (fun _ => Statement.noConfusion) ?_
    simpa using hcount
  case jump =>
    refine gives_bind fun _ => gives_bind fun label => gives_pure ?_
    exact hplain rfl (fun _ => Statement.noConfusion) (by simp)
  case branch =>
    refine gives_bind fun _ => typed_gives.bind fun cond hcond => gives_bind fun _ =>
      gives_bind fun onTrue => gives_bind fun _ => gives_bind fun onFalse => gives_pure ?_
    exact hplain rfl (fun _ => Statement.noConfusion) (by simp [hcond])

/-! ## Functions -/

/-- What a line in a text holds. -/
structure Line.Sound (l : Line) : Prop where
  /-- The name of the result has no double quote. -/
  name : ∀ name ∈ l.name, Unquoted name
  /-- The instruction is sound. -/
  statement : l.statement.Sound

/-- What a function in a text holds. -/
structure FunctionText.Sound (t : FunctionText) : Prop where
  /-- The name has no double quote. -/
  name : Unquoted t.name
  /-- The names of the parameters have no double quote. -/
  params : ∀ p ∈ t.params, ∀ name ∈ p.name, Unquoted name
  /-- The labels have no double quote. -/
  labels : ∀ b ∈ t.blocks, ∀ label ∈ b.label, Unquoted label
  /-- The lines are sound. -/
  lines : ∀ b ∈ t.blocks, ∀ l ∈ b.lines, l.Sound

/-- A line that is read is sound. -/
theorem line_gives : line.Gives Line.Sound := by
  have hname : (do
      let name ← localName
      mark '='
      return name).Gives Unquoted :=
    localName_gives.bind fun _ hname => gives_bind fun _ => gives_pure hname
  exact hname.optional.bind fun _ hname => statement_gives.bind fun _ ht => gives_bind fun _ =>
    gives_pure ⟨hname, ht⟩

/-- A block that is read has sound lines and a label without quotes. -/
theorem block_gives : block.Gives fun b =>
    (∀ label ∈ b.label, Unquoted label) ∧ ∀ l ∈ b.lines, l.Sound :=
  label_gives.optional.bind fun _ hlabel => line_gives.many1.bind fun _ hlines =>
    gives_pure ⟨hlabel, hlines⟩

/-- A parameter that is read has a name without quotes. -/
theorem param_gives : param.Gives fun p => ∀ name ∈ p.name, Unquoted name :=
  gives_bind fun _ => gives_bind fun _ => localName_gives.optional.bind fun _ hname =>
    gives_pure hname

/-- A function that is read is sound. -/
theorem function_gives : function.Gives FunctionText.Sound := by
  have hparams : (optional (sepBy1 param (mark ','))).Gives fun params =>
      ∀ p ∈ params.getD [], ∀ name ∈ p.name, Unquoted name := by
    intro s params rest h
    cases params with
    | none => simp
    | some params => exact param_gives.sepBy1.optional s _ rest h params rfl
  refine gives_bind fun _ => gives_bind fun _ => gives_bind fun ret =>
    globalName_gives.bind fun name hname => gives_bind fun _ => hparams.bind fun params hparams =>
    gives_bind fun _ => gives_bind fun _ => gives_bind fun _ =>
    block_gives.many1.bind fun blocks hblocks => gives_bind fun _ => gives_pure ?_
  exact ⟨hname, hparams, fun b hb => (hblocks b hb).1, fun b hb => (hblocks b hb).2⟩

/-- Every function of a text that follows the grammar is sound. -/
theorem sound_of_functions? {text : String} {trees : List FunctionText}
    (h : functions? text = some trees) : ∀ t ∈ trees, t.Sound :=
  functions?_gives function_gives h

end Surface

end Dataflow
