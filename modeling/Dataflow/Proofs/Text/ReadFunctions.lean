import Dataflow.Proofs.Text.ReadTrees
import Dataflow.Proofs.Text.Rebinding

/-!
# Functions that were read

What the names and the operands of a function are that was read from a text (`Function.Spelled`).
Names have no double quotes, labels are distinct, constants are literals of the type that is written
before them, and a parameter that is used is the last one of its name.
-/

namespace Dataflow

open Lexeme

namespace Surface

/-! ## Operands -/

/-- The parameter or the result that a local name stands for, given the names of the parameters. -/
def IsLocal (params : List String) : Operand → Prop
  | .param k => ∃ name, params[k]? = some name ∧ ∀ later, k < later → params[later]? ≠ some name
  | .result _ => True
  | .const _ | .global _ | .function _ => False

/-- What an operand in a text stands for behind a type. -/
def IsData (params : List String) (t : TypedOperand) : Prop :=
  match t.value with
  | .const value => value.ty = t.ty ∧ IsLiteral value.literal
  | .global name => Unquoted name
  | v => IsLocal params v

/-- What a callee in a text stands for. -/
def IsCallee (params : List String) (v : Operand) : Prop :=
  match v with
  | .function name => Unquoted name
  | v => IsLocal params v

section Operands

variable {scope : Scope} {ty : Ty} {v : Operand}

/-- A local name is bound to a parameter or to a result. -/
theorem bindLocal_isLocal {name : String} (h : bindLocal scope name = .ok v) :
    IsLocal scope.params v := by
  unfold bindLocal at h
  split at h
  · rename_i v' hvalue
    cases h
    unfold Scope.value? at hvalue
    split at hvalue
    · rename_i other index hfind
      cases hvalue
      obtain ⟨rfl, hget, hlast⟩ := Function.find?_reverse_zipIdx.mp hfind
      exact ⟨other, hget, hlast⟩
    · obtain ⟨r, _, rfl⟩ := Option.map_eq_some_iff.mp hvalue
      trivial
  · cases h

/-- What a local name stands for can stand behind any type. -/
theorem IsLocal.isData {params : List String} (h : IsLocal params v) : IsData params ⟨ty, v⟩ := by
  cases v with
  | param | result => exact h
  | const | global | function => exact h.elim

/-- What an operand is bound to can stand behind its type. -/
theorem OperandText.bind_isData {o : OperandText} (ho : o.Sound) (h : o.bind scope ty = .ok v) :
    IsData scope.params ⟨ty, v⟩ := by
  cases o with
  | «local» name => exact (bindLocal_isLocal h).isData
  | global name =>
      cases h
      exact ho
  | literal text =>
      cases h
      exact ⟨rfl, ho⟩

/-- What a callee is bound to can be called. -/
theorem CalleeText.bind_isCallee {o : CalleeText} (ho : o.Sound) (h : o.bind scope = .ok v) :
    IsCallee scope.params v := by
  cases o with
  | global name =>
      cases h
      exact ho
  | «local» name =>
      have hlocal := bindLocal_isLocal h
      cases v with
      | param | result => exact hlocal
      | const | global | function => exact hlocal.elim

/-- A constant may take another type with the type that is written before it. -/
theorem IsData.retype {params : List String} (h : IsData params ⟨ty, v⟩) (ty' : Ty) :
    IsData params ⟨ty', v.retype ty'⟩ := by
  cases v with
  | const value => exact ⟨rfl, h.2⟩
  | _ => exact h

/-- What a typed operand is bound to can stand behind its own type. -/
theorem TypedText.bind_isData {o : TypedText} {t : TypedOperand} (ho : o.value.Sound)
    (h : o.bind scope = .ok t) : IsData scope.params t := by
  simp only [TypedText.bind, bind_eq_ok, pure_eq_ok] at h
  obtain ⟨ty, _, v, hv, rfl⟩ := h
  exact OperandText.bind_isData ho hv

/-- So it is for each of a list of typed operands. -/
theorem mapM_bind_isData {os : List TypedText} {ts : List TypedOperand}
    (hos : ∀ o ∈ os, o.value.Sound) (h : os.mapM (·.bind scope) = .ok ts) :
    ∀ u ∈ ts, IsData scope.params u := by
  intro u hu
  obtain ⟨o, ho, hbind⟩ := mem_of_mapM_eq_ok h hu
  exact TypedText.bind_isData (hos o ho) hbind

/-- So it is for a typed operand that may be missing. -/
theorem bindOptional_isData {o : Option TypedText} {t : Option TypedOperand}
    (ho : ∀ u ∈ o, u.value.Sound) (h : bindOptional scope o = .ok t) :
    ∀ u ∈ t, IsData scope.params u := by
  cases o with
  | none =>
      cases h
      simp
  | some o =>
      simp only [bindOptional, bind_eq_ok, pure_eq_ok] at h
      obtain ⟨u, hu, rfl⟩ := h
      simpa using TypedText.bind_isData (ho o rfl) hu

/-- What the operands of an instruction are that a sound statement stands for. -/
theorem Statement.bind_isData {t : Statement} {i : Instruction} (ht : t.Sound)
    (h : t.bind scope = .ok i) : ∀ u ∈ i.asWritten.typedOperands, IsData scope.params u := by
  have hsound := ht.operands
  have hoptional : ∀ {count : Option TypedText} {o}, o ∈ count →
      o.value ∈ (count.map (·.value)).toList :=
    fun ho => Option.mem_toList.mpr (Option.mem_map_of_mem (·.value) ho)
  cases t <;> simp only [Statement.bind, bind_eq_ok, pure_eq_ok] at h
  case binary op lhs rhs | compare test lhs rhs =>
    obtain ⟨l, hl, r, hr, rfl⟩ := h
    have hlhs := TypedText.bind_isData (hsound lhs.value (by simp)) hl
    have hrhs := OperandText.bind_isData (hsound rhs (by simp)) hr
    simpa using ⟨hlhs, hrhs⟩
  case load ty address =>
    obtain ⟨_, _, a, ha, rfl⟩ := h
    simpa using TypedText.bind_isData (hsound address.value (by simp)) ha
  case store value address =>
    obtain ⟨v, hv, a, ha, rfl⟩ := h
    have hvalue := TypedText.bind_isData (hsound value.value (by simp)) hv
    have haddress := TypedText.bind_isData (hsound address.value (by simp)) ha
    simpa using ⟨hvalue, haddress⟩
  case elementPtr source base indices =>
    obtain ⟨_, _, b, hb, is, his, rfl⟩ := h
    have hbase := TypedText.bind_isData (hsound base.value (by simp)) hb
    have hindices := mapM_bind_isData (fun o ho => hsound o.value
      (List.mem_cons_of_mem _ (List.mem_map_of_mem ho))) his
    simpa using ⟨hbase, hindices⟩
  case cast op value target =>
    obtain ⟨v, hv, _, _, rfl⟩ := h
    simpa using TypedText.bind_isData (hsound value.value (by simp)) hv
  case phi ty arms =>
    obtain ⟨ty', _, as, has, rfl⟩ := h
    have harm : ∀ a ∈ as, IsData scope.params ⟨ty', a.value⟩ := by
      intro a ha
      obtain ⟨o, ho, hbind⟩ := mem_of_mapM_eq_ok has ha
      simp only [ArmText.bind, bind_eq_ok, pure_eq_ok] at hbind
      obtain ⟨v, hv, _, _, rfl⟩ := hbind
      exact OperandText.bind_isData (hsound o.value (List.mem_map_of_mem ho)) hv
    simpa using harm
  case select cond onTrue onFalse =>
    obtain ⟨c, hc, u, hu, w, hw, rfl⟩ := h
    have hcond := (TypedText.bind_isData (hsound cond.value (by simp)) hc).retype .bool
    have htrue := TypedText.bind_isData (hsound onTrue.value (by simp)) hu
    have hfalse := (TypedText.bind_isData (hsound onFalse.value (by simp)) hw).retype u.ty
    simpa using ⟨hcond, htrue, hfalse⟩
  case call retTy callee args =>
    obtain ⟨_, _, _, _, as, has, rfl⟩ := h
    exact mapM_bind_isData (fun o ho => hsound o.value (List.mem_map_of_mem ho)) has
  case alloca ty count =>
    obtain ⟨_, _, n, hn, rfl⟩ := h
    simpa using bindOptional_isData (fun o ho => hsound o.value (hoptional ho)) hn
  case jump target =>
    obtain ⟨b, hb, rfl⟩ := h
    simp
  case branch cond onTrue onFalse =>
    obtain ⟨c, hc, _, _, _, _, rfl⟩ := h
    simpa using (TypedText.bind_isData (hsound cond.value (by simp)) hc).retype .bool
  case ret value =>
    obtain ⟨v, hv, rfl⟩ := h
    simpa using bindOptional_isData (fun o ho => hsound o.value (hoptional ho)) hv
  case unreachable =>
    cases h
    simp

/-- A bound statement calls only what can be called. -/
theorem Statement.bind_isCallee {t : Statement} {i : Instruction} (ht : t.Sound)
    (h : t.bind scope = .ok i) : ∀ v ∈ i.callee?, IsCallee scope.params v := by
  intro v hv
  obtain ⟨retTy, args, rfl⟩ : ∃ retTy args, i = .call retTy v args := by
    cases i with
    | call retTy callee args =>
        cases hv
        exact ⟨retTy, args, rfl⟩
    | _ => cases hv
  cases t with
  | call _ callee _ =>
      simp only [Statement.bind, bind_eq_ok, pure_eq_ok] at h
      obtain ⟨_, _, c, hc, _, _, heq⟩ := h
      cases heq
      exact CalleeText.bind_isCallee (ht.callee callee rfl) hc
  | _ =>
      simp only [Statement.bind, bind_eq_ok, pure_eq_ok] at h
      simp at h

/-- The type of a returned value is not written with the word `void` in front. -/
theorem Statement.bind_returned {t : Statement} {u : TypedOperand} (ht : t.Sound)
    (h : t.bind scope = .ok (.ret (some u))) : u.ty.startsVoid = false := by
  cases t with
  | ret value =>
      simp only [Statement.bind, bind_eq_ok, pure_eq_ok] at h
      obtain ⟨v, hv, heq⟩ := h
      cases heq
      cases value with
      | none => cases hv
      | some value =>
          simp only [bindOptional, TypedText.bind, bind_eq_ok, pure_eq_ok] at hv
          obtain ⟨_, ⟨ty, hty, _, _, rfl⟩, heq⟩ := hv
          cases heq
          exact ht.returned value rfl ty hty
  | _ =>
      simp only [Statement.bind, bind_eq_ok, pure_eq_ok] at h
      simp at h

end Operands

/-! ## Names -/

/-- A number has no quote in it. -/
theorem unquoted_toString (n : Nat) : Unquoted (toString n) := (isNumber_toString n).isName.2

/-- Bound parameters have names without quotes, those without a name a number. -/
theorem bindParams_unquoted {texts : List ParamText} {params : List Param} {next next' : Nat}
    (ht : ∀ p ∈ texts, ∀ name ∈ p.name, Unquoted name)
    (h : bindParams next texts = .ok (params, next')) : ∀ p ∈ params, Unquoted p.name := by
  induction texts generalizing next params with
  | nil =>
      cases h
      simp
  | cons p texts ih =>
      simp only [bindParams, bind_eq_ok, pure_eq_ok, Prod.mk.injEq] at h
      obtain ⟨ty, _, ⟨params', next''⟩, hrest, rfl, rfl⟩ := h
      refine List.forall_mem_cons.mpr ⟨?_, ih (fun q hq => ht q (List.mem_cons_of_mem p hq)) hrest⟩
      cases hname : p.name with
      | none => exact unquoted_toString next
      | some name => exact ht p List.mem_cons_self name hname

/-- A block adds its label, which is new. -/
theorem Scope.addBlock_labels {s t : Scope} {block : BlockText} (h : s.addBlock block = .ok t)
    (hlabel : ∀ label ∈ block.label, Unquoted label) :
    ∃ label, t.labels = s.labels ++ [label] ∧ label ∉ s.labels ∧ Unquoted label := by
  unfold addBlock at h
  have hname : Unquoted (blockLabel s.nextNumber block.label).1 := by
    cases hblock : block.label with
    | none => exact unquoted_toString s.nextNumber
    | some label => exact hlabel label hblock
  generalize blockLabel s.nextNumber block.label = numbered at h hname
  obtain ⟨label, next⟩ := numbered
  simp only at h
  split at h
  · cases h
  · refine ⟨label, ?_, ‹_›, hname⟩
    refine foldlM_eq_ok (fun _ (u : Scope) => u.labels = s.labels ++ [label]) ?_ rfl h
    intro line _ u v hu hv
    unfold addLine at hv
    split at hv
    · cases hv
      exact hu
    · split at hv
      · cases hv
      · cases hv
        exact hu

/-- The labels of a scope are distinct and have no quotes. -/
theorem foldlM_addBlock_labels {blocks : List BlockText} {s t : Scope}
    (h : blocks.foldlM Scope.addBlock s = .ok t) (hs : s.labels = [])
    (hblocks : ∀ b ∈ blocks, ∀ label ∈ b.label, Unquoted label) :
    t.labels.Nodup ∧ ∀ label ∈ t.labels, Unquoted label := by
  have hend := foldlM_eq_ok (fun rest (u : Scope) => (∀ b ∈ rest, b ∈ blocks) ∧ u.labels.Nodup ∧
    ∀ label ∈ u.labels, Unquoted label) ?_ ⟨fun _ hb => hb, by simp [hs], by simp [hs]⟩ h
  · exact hend.2
  · rintro block rest u v ⟨hrest, hnodup, hall⟩ hv
    obtain ⟨label, hlabels, hnew, hname⟩ :=
      Scope.addBlock_labels hv (hblocks block (hrest block List.mem_cons_self))
    refine ⟨fun b hb => hrest b (List.mem_cons_of_mem block hb), ?_, ?_⟩
    · rw [hlabels]
      exact List.nodup_append'.mpr ⟨hnodup, List.nodup_singleton label, by simpa using hnew⟩
    · rw [hlabels]
      exact List.forall_mem_append.mpr ⟨hall, by simpa using hname⟩

end Surface

/-! ## Functions -/

open Surface

/-- What the reader of a text promises of the names and the operands of a function. -/
structure Function.Spelled (f : Function) : Prop where
  /-- The name has no double quote. -/
  name : Unquoted f.name
  /-- The names of the parameters have no double quote. -/
  params : ∀ p ∈ f.params, Unquoted p.name
  /-- The labels have no double quote. -/
  labels : ∀ label ∈ f.labels, Unquoted label
  /-- Blocks have labels of their own. -/
  distinctLabels : f.labels.Nodup
  /-- The names of the results have no double quote. -/
  results : ∀ s ∈ f.slots, ∀ name ∈ s.name, Unquoted name
  /-- Operands are what a text can name. -/
  operands : ∀ {id i}, f.instruction? id = some i → ∀ t ∈ i.asWritten.typedOperands,
    IsData (f.params.map (·.name)) t
  /-- Callees are what a text can name. -/
  callee : ∀ {id i}, f.instruction? id = some i → ∀ v ∈ i.callee?,
    IsCallee (f.params.map (·.name)) v
  /-- The type of a returned value is not written with the word `void` in front. -/
  returned : ∀ {id t}, f.instruction? id = some (.ret (some t)) → t.ty.startsVoid = false

/-- What is bound from a sound tree is spelled. -/
theorem Surface.FunctionText.bind_spelled {t : FunctionText} {f : Function} (ht : t.Sound)
    (h : t.bind = .ok f) : f.Spelled := by
  obtain ⟨scope, hsourced⟩ := t.bind_sourced h
  obtain ⟨next, hparams⟩ := hsourced.params
  obtain ⟨next', hadded⟩ := hsourced.added
  have hscope : scope.params = f.params.map (·.name) :=
    (foldlM_addBlock (fun r hr => by cases hr) hadded).2.2.2
  obtain ⟨hnodup, hlabels⟩ := foldlM_addBlock_labels hadded rfl ht.labels
  have hline : ∀ line ∈ t.blocks.flatMap (·.lines), line.Sound := by
    intro line hline
    obtain ⟨b, hb, hline⟩ := List.mem_flatMap.mp hline
    exact ht.lines b hb line hline
  have hbound : ∀ {id i}, f.instruction? id = some i →
      ∃ t : Statement, t.Sound ∧ t.bind scope = .ok i := by
    intro id i hi
    rw [Function.instruction?, Option.map_eq_some_iff] at hi
    obtain ⟨s, hs, rfl⟩ := hi
    obtain ⟨line, hmem, _, hbind⟩ := hsourced.slot s (List.mem_of_getElem? hs)
    exact ⟨line.statement, (hline line hmem).statement, hbind⟩
  exact {
    name := hsourced.name ▸ ht.name
    params := bindParams_unquoted ht.params hparams
    labels := hsourced.labels ▸ hlabels
    distinctLabels := hsourced.labels ▸ hnodup
    results := fun s hs name hname => by
      obtain ⟨line, hmem, heq, _⟩ := hsourced.slot s hs
      exact (hline line hmem).name name (heq ▸ hname)
    operands := fun hi => by
      obtain ⟨u, hu, hbind⟩ := hbound hi
      exact hscope ▸ Statement.bind_isData hu hbind
    callee := fun hi => by
      obtain ⟨u, hu, hbind⟩ := hbound hi
      exact hscope ▸ Statement.bind_isCallee hu hbind
    returned := fun hi => by
      obtain ⟨u, hu, hbind⟩ := hbound hi
      exact Statement.bind_returned hu hbind }

/-- Every function that is read is spelled. -/
theorem Module.read_spelled {text : String} {m : Module} (h : read text = .ok m) {f : Function}
    (hf : f ∈ m.functions) : f.Spelled := by
  obtain ⟨trees, t, htrees, hmem, ht⟩ := read_tree h hf
  exact FunctionText.bind_spelled (sound_of_functions? htrees t hmem) ht

end Dataflow
