import Dataflow.Proofs.Text.Binding
import Dataflow.Proofs.Text.Printable
import Mathlib.Data.List.Induction

/-!
# Trees that are bound again

Binding the tree of a function gives the function back, with names of results and types of constants
as they are written (`Function.Printable.bind_tree`). The scope that is collected first is known in
full (`Function.scope`), and a name leads to the one value or block that has it. After that each
line makes one instruction, and the instructions fill the blocks in program order.
-/

namespace Dataflow

open Lexeme Surface

/-! ## Numbers and types -/

namespace Surface

/-- A printed number that is below the limit is read back as that number. -/
theorem decimalBelow?_toString {k limit : Nat} (hk : k < limit) :
    decimalBelow? limit (toString k).toList = some k := by
  have hdigits := isNumber_toString k
  have htoList : (toString k).toList = Nat.toDigits 10 k := Nat.toList_repr
  have hvalue : (toString k).toList.foldl (fun n c => 10 * n + (c.toNat - '0'.toNat)) 0 = k := by
    rw [htoList, ← Nat.ofDigitChars_eq_foldl]
    exact Nat.ofDigitChars_toDigits (by decide) (by decide)
  have hempty : (toString k).toList.isEmpty = false := by
    rw [List.isEmpty_eq_false_iff]
    exact hdigits.1
  rw [decimalBelow?, decimal?, hempty, hdigits.2, if_neg (by decide), hvalue]
  simp [hk]

end Surface

/-- The tree of a type is bound to the type. -/
theorem Ty.bind_tree (ty : Ty) : ty.tree.bind = .ok ty := by
  induction ty with
  | int bits =>
      simp only [tree, TypeText.bind, decimalBelow?_toString bits.toNat_lt, UInt32.ofNat_toNat]
      rfl
  | pointer target ih =>
      simp only [tree, TypeText.bind, ih]
      rfl
  | array length element ih =>
      simp only [tree, TypeText.bind, decimalBelow?_toString length.toNat_lt, UInt64.ofNat_toNat,
        ih]
      rfl
  | vector length element ih =>
      simp only [tree, TypeText.bind, decimalBelow?_toString length.toNat_lt, UInt64.ofNat_toNat,
        ih]
      rfl
  | _ => rfl

/-- What each member of a list stands for, the list stands for. -/
theorem mapM_map_eq_ok {α β γ ε : Type} {g : β → Except ε γ} {h : α → β} {k : α → γ} {as : List α}
    (hall : ∀ a ∈ as, g (h a) = .ok (k a)) : (as.map h).mapM g = .ok (as.map k) := by
  induction as with
  | nil => rfl
  | cons a as ih =>
      rw [List.map_cons, List.mapM_cons, hall a List.mem_cons_self,
        ih fun b hb => hall b (List.mem_cons_of_mem a hb)]
      rfl

namespace Function

variable {f : Function}

/-- The trees of parameters are bound to the parameters: each has its name written out. -/
theorem bindParams_tree (next : Nat) (ps : List Param) :
    ∃ next', bindParams next (ps.map paramTree) = .ok (ps, next') := by
  induction ps generalizing next with
  | nil => exact ⟨next, rfl⟩
  | cons p ps ih =>
      obtain ⟨next', hrest⟩ := ih (paramName next (some p.name)).2
      refine ⟨next', ?_⟩
      simp only [List.map_cons, bindParams, paramTree, Ty.bind_tree]
      simp only [bind, Except.bind, paramName] at hrest ⊢
      rw [hrest]
      rfl

/-! ## The scope -/

variable (f)

/-- The name that is written before an instruction with the number of the instruction. -/
def result? (id : InstId) : Option (String × InstId) :=
  ((f.instruction? id).bind (f.writtenName id)).map (·, id)

/-- The scope of a function, `next` being the number of a block without a label. -/
def scope (next : Nat) : Scope where
  function := f.name
  params := f.params.map (·.name)
  results := (List.range f.slots.length).filterMap f.result?
  labels := f.labels
  nextInst := f.slots.length
  nextNumber := next

variable {f}

/-- The names that results are found under are the names that are written. -/
theorem map_filterMap_result? (ids : List InstId) : (ids.filterMap f.result?).map (·.1) =
    ids.filterMap fun id => (f.instruction? id).bind (f.writtenName id) := by
  rw [List.map_filterMap]
  congr 1
  funext id
  rw [result?, Option.map_map]
  cases (f.instruction? id).bind (f.writtenName id) <;> rfl

/-- Lines whose results have names of their own are added to a scope. -/
theorem foldlM_addLine {s : Scope} {l : List InstId}
    (hids : l = List.range' s.nextInst l.length)
    (hall : ∀ id ∈ l, ∃ i, f.instruction? id = some i)
    (hfresh : ∀ r ∈ l.filterMap f.result?, r.1 ∉ s.params)
    (hnames : ((s.results ++ l.filterMap f.result?).map (·.1)).Nodup) :
    (l.filterMap f.line?).foldlM Scope.addLine s = .ok { s with
      results := s.results ++ l.filterMap f.result?, nextInst := s.nextInst + l.length } := by
  induction l generalizing s with
  | nil => simp [pure, Except.pure]
  | cons id l ih =>
      obtain ⟨i, hi⟩ := hall id List.mem_cons_self
      rw [List.length_cons, List.range'_succ, List.cons.injEq] at hids
      obtain ⟨rfl, hids⟩ := hids
      have hline : f.line? s.nextInst = some ⟨f.writtenName s.nextInst i, f.statement i⟩ := by
        rw [line?, hi]
        rfl
      have hlength : s.nextInst + (l.length + 1) = s.nextInst + 1 + l.length :=
        Nat.add_right_comm s.nextInst l.length 1
      rw [List.filterMap_cons_some hline, List.foldlM_cons]
      cases hname : f.writtenName s.nextInst i with
      | none =>
          have hresult : f.result? s.nextInst = none := by simp [result?, hi, hname]
          rw [List.filterMap_cons_none hresult] at hfresh hnames ⊢
          have hrest := ih (s := { s with nextInst := s.nextInst + 1 }) hids
            (fun id hid => hall id (List.mem_cons_of_mem _ hid)) hfresh hnames
          simp only [Scope.addLine, bind, Except.bind, pure, Except.pure]
          rw [hrest, List.length_cons, hlength]
      | some name =>
          have hresult : f.result? s.nextInst = some (name, s.nextInst) := by
            simp [result?, hi, hname]
          rw [List.filterMap_cons_some hresult] at hfresh hnames ⊢
          have hnew : ¬ (name ∈ s.params ∨ name ∈ s.results.map (·.1)) := by
            rintro (hmem | hmem)
            · exact hfresh _ List.mem_cons_self hmem
            · rw [List.map_append, List.map_cons, List.nodup_middle, List.nodup_cons] at hnames
              exact hnames.1 (List.mem_append_left _ hmem)
          have hrest := ih (s := { s with
              results := s.results ++ [(name, s.nextInst)], nextInst := s.nextInst + 1 }) hids
            (fun id hid => hall id (List.mem_cons_of_mem _ hid))
            (fun r hr => hfresh r (List.mem_cons_of_mem _ hr)) (by simpa using hnames)
          simp only [Scope.addLine, if_neg hnew, bind, Except.bind, pure, Except.pure]
          rw [hrest, List.length_cons, hlength, List.append_assoc, List.singleton_append]

/-- Blocks whose labels and results have names of their own are added to a scope. -/
theorem foldlM_addBlock_tree {s : Scope} {ks : List Block}
    (hids : ks.flatMap (·.insts) = List.range' s.nextInst (ks.flatMap (·.insts)).length)
    (hall : ∀ id ∈ ks.flatMap (·.insts), ∃ i, f.instruction? id = some i)
    (hfresh : ∀ r ∈ (ks.flatMap (·.insts)).filterMap f.result?, r.1 ∉ s.params)
    (hnames : ((s.results ++ (ks.flatMap (·.insts)).filterMap f.result?).map (·.1)).Nodup)
    (hlabels : (s.labels ++ ks.map (·.name)).Nodup) :
    (ks.map f.blockTree).foldlM Scope.addBlock s = .ok { s with
      results := s.results ++ (ks.flatMap (·.insts)).filterMap f.result?
      labels := s.labels ++ ks.map (·.name)
      nextInst := s.nextInst + (ks.flatMap (·.insts)).length } := by
  induction ks generalizing s with
  | nil => simp [pure, Except.pure]
  | cons k ks ih =>
      rw [List.flatMap_cons, List.length_append, ← List.range'_append_1] at hids
      obtain ⟨hfirst, hrest⟩ := List.append_inj hids (by simp)
      have hnew : k.name ∉ s.labels := by
        rw [List.map_cons, List.nodup_middle, List.nodup_cons] at hlabels
        exact fun hmem => hlabels.1 (List.mem_append_left _ hmem)
      rw [List.flatMap_cons, List.filterMap_append] at hfresh
      rw [List.flatMap_cons, List.filterMap_append, ← List.append_assoc] at hnames
      have hlines := foldlM_addLine (f := f) (s := { s with labels := s.labels ++ [k.name] })
        (l := k.insts) hfirst (fun id hid => hall id (by simp [hid]))
        (fun r hr => hfresh r (List.mem_append_left _ hr)) (by
          rw [List.map_append] at hnames
          exact (List.nodup_append'.mp hnames).1)
      have hlater := ih (s := { s with
          labels := s.labels ++ [k.name], results := s.results ++ k.insts.filterMap f.result?,
          nextInst := s.nextInst + k.insts.length })
        hrest (fun id hid => hall id (by rw [List.flatMap_cons]; exact List.mem_append_right _ hid))
        (fun r hr => hfresh r (List.mem_append_right _ hr)) hnames (by simpa using hlabels)
      rw [List.map_cons, List.foldlM_cons]
      have hblock : Scope.addBlock s (f.blockTree k) = .ok { s with
          labels := s.labels ++ [k.name], results := s.results ++ k.insts.filterMap f.result?,
          nextInst := s.nextInst + k.insts.length } :=
        (if_neg hnew).trans hlines
      rw [hblock]
      simp only [bind, Except.bind]
      rw [hlater]
      simp only [List.flatMap_cons, List.filterMap_append, List.length_append, List.map_cons,
        List.append_assoc, List.singleton_append, Nat.add_assoc]

/-! ## Looking names up -/

/-- Of pairs with first components of their own, a look-up finds the one that is there. -/
theorem find?_fst {l : List (String × Nat)} (hnodup : (l.map (·.1)).Nodup) {a : String} {b : Nat}
    (hmem : (a, b) ∈ l) : l.find? (·.1 == a) = some (a, b) := by
  cases hfind : l.find? (·.1 == a) with
  | none => exact absurd (beq_self_eq_true a) (List.find?_eq_none.mp hfind (a, b) hmem)
  | some r =>
      have hr : r.1 = a :=
        beq_iff_eq.mp (List.find?_some (p := fun r : String × Nat => r.1 == a) hfind)
      rw [List.inj_on_of_nodup_map hnodup (List.mem_of_find?_eq_some hfind) hmem hr]

/-- From the end of a numbered list, a look-up finds the last of those that are there. -/
theorem find?_reverse_zipIdx {l : List String} {a : String} {r : String × Nat} :
    l.zipIdx.reverse.find? (·.1 == a) = some r ↔
      r.1 = a ∧ l[r.2]? = some a ∧ ∀ later, r.2 < later → l[later]? ≠ some a := by
  induction l using List.reverseRecOn with
  | nil => simp
  | append_singleton l b ih =>
      have hlast : (l ++ [b])[l.length]? = some b := List.getElem?_concat_length
      rw [List.zipIdx_append, List.reverse_append]
      simp only [List.zipIdx_singleton, List.reverse_singleton, List.singleton_append,
        List.find?_cons, Nat.zero_add]
      by_cases hb : b = a
      · subst hb
        simp only [beq_self_eq_true, Option.some.injEq]
        constructor
        · rintro rfl
          refine ⟨rfl, hlast, fun later hlater => ?_⟩
          rw [List.getElem?_eq_none (by simpa using Nat.succ_le_of_lt hlater)]
          exact (Option.some_ne_none b).symm
        · rintro ⟨hname, hget, hlater⟩
          have hle : r.2 ≤ l.length := by
            have hlt := (List.getElem?_eq_some_iff.mp hget).1
            rw [List.length_append, List.length_singleton] at hlt
            exact Nat.le_of_lt_succ hlt
          have heq : r.2 = l.length := by
            by_contra hne
            exact hlater l.length (Nat.lt_of_le_of_ne hle hne) hlast
          exact Prod.ext hname.symm heq.symm
      · have hbeq : (b == a) = false := beq_eq_false_iff_ne.mpr hb
        -- another name at the end is not what is looked for
        have hother : ∀ k : Nat, (l ++ [b])[k]? = some a ↔ l[k]? = some a := by
          intro k
          rcases Nat.lt_trichotomy k l.length with hk | rfl | hk
          · rw [List.getElem?_append_left hk]
          · simp [hb]
          · rw [List.getElem?_eq_none (by simpa using Nat.succ_le_of_lt hk),
              List.getElem?_eq_none (Nat.le_of_lt hk)]
        simp only [hbeq, ih, ne_eq, hother]

/-- Nothing is found for a name from the end of a list when the list does not hold it. -/
theorem find?_reverse_zipIdx_eq_none {l : List String} {a : String} :
    l.zipIdx.reverse.find? (·.1 == a) = none ↔ a ∉ l := by
  rw [List.find?_eq_none]
  constructor
  · intro h hmem
    obtain ⟨k, hk, rfl⟩ := List.getElem_of_mem hmem
    refine h (l[k], k) ?_ (beq_self_eq_true _)
    simp [List.mem_zipIdx_iff_getElem?, hk]
  · intro h r hr heq
    rw [List.mem_reverse] at hr
    exact h (beq_iff_eq.mp heq ▸ (List.mem_zipIdx' hr).2 ▸ List.getElem_mem _)

/-- What is written of an instruction stands for the instruction as it is written. -/
def Rebinds (f : Function) (m : Nat) (i : Instruction) : Prop :=
  (f.statement i).bind (f.scope m) = .ok i.asWritten

namespace Printable

variable {m : Nat} (h : f.Printable)

include h

omit h in
/-- A name stands for the last parameter of that name. -/
theorem value?_param {k : Nat} {p : Param} (hk : f.params[k]? = some p)
    (hlast : ∀ later q, k < later → f.params[later]? = some q → q.name ≠ p.name) :
    (f.scope m).value? p.name = some (.param k) := by
  have hfind : (f.params.map (·.name)).zipIdx.reverse.find? (·.1 == p.name) = some (p.name, k) := by
    refine find?_reverse_zipIdx.mpr ⟨rfl, by simp [hk], fun later hlater hget => ?_⟩
    rw [List.getElem?_map, Option.map_eq_some_iff] at hget
    obtain ⟨q, hq, hname⟩ := hget
    exact hlast later q hlater hq hname
  simp only [Scope.value?, scope, hfind]

/-- The printed name of a result stands for the result. -/
theorem value?_result {id : InstId} {i : Instruction} (hi : f.instruction? id = some i)
    (hty : i.resultTy ≠ .void) : (f.scope m).value? (f.resultName id) = some (.result id) := by
  have hname : f.writtenName id i = some (f.resultName id) := if_neg hty
  have hid : id < f.slots.length := by
    rw [instruction?, Option.map_eq_some_iff] at hi
    obtain ⟨slot, hslot, _⟩ := hi
    exact (List.getElem?_eq_some_iff.mp hslot).1
  have hmem : (f.resultName id, id) ∈ (List.range f.slots.length).filterMap f.result? :=
    List.mem_filterMap.mpr ⟨id, List.mem_range.mpr hid, by simp [result?, hi, hname]⟩
  have hnodup : (((List.range f.slots.length).filterMap f.result?).map (·.1)).Nodup := by
    rw [map_filterMap_result?]
    exact h.distinct
  have hparam : (f.params.map (·.name)).zipIdx.reverse.find? (·.1 == f.resultName id) = none := by
    refine find?_reverse_zipIdx_eq_none.mpr (h.fresh _ ?_)
    rw [Function.resultNames, ← map_filterMap_result?]
    exact List.mem_map_of_mem hmem
  simp only [Scope.value?, scope, hparam, find?_fst hnodup hmem, Option.map_some]

/-- A parameter or a result is what its name stands for. -/
theorem bindLocal_tree {v : Operand} (hv : f.Defines v) :
    ∃ name, f.operandTree v = .local name ∧ bindLocal (f.scope m) name = .ok v := by
  cases v with
  | param k =>
      obtain ⟨p, hp, _, hlast⟩ := hv
      refine ⟨p.name, by simp [operandTree, hp], ?_⟩
      simp only [bindLocal, value?_param hp hlast]
      rfl
  | result id =>
      obtain ⟨⟨i, hi, hty⟩, _⟩ := hv
      refine ⟨f.resultName id, rfl, ?_⟩
      simp only [bindLocal, h.value?_result hi hty]
      rfl
  | const value | global name | function name => exact hv.elim

/-- A block is what its label stands for. -/
theorem bindLabel_tree {b : BlockId} (hb : b < f.blocks.length) :
    bindLabel (f.scope m) (f.blockName b) = .ok b := by
  have hlabel : f.labels[b]? = some (f.blockName b) := by
    rw [blockName_eq, List.getElem?_eq_getElem (by rwa [length_labels])]
    rfl
  have hindex : (f.scope m).block? (f.blockName b) = some b := by
    obtain ⟨hlength, hget⟩ := List.getElem?_eq_some_iff.mp hlabel
    refine List.idxOf?_eq_some_iff.mpr ⟨hlength, hget, fun c hc heq => ?_⟩
    exact Nat.ne_of_lt hc (h.distinctLabels.getElem_inj_iff.mp (heq.trans hget.symm))
  simp only [bindLabel, hindex]
  rfl

/-- The tree of an operand is bound to the operand. -/
theorem bind_operandTree {t : TypedOperand} (ht : f.Stands t) :
    (f.operandTree t.value).bind (f.scope m) t.ty = .ok t.value := by
  obtain ⟨ty, v⟩ := t
  have hlocal : f.Defines v → (f.operandTree v).bind (f.scope m) ty = .ok v := fun hv => by
    obtain ⟨name, htree, hbind⟩ := h.bindLocal_tree hv
    rw [htree]
    exact hbind
  cases v with
  | param k => exact hlocal ht
  | result id => exact hlocal ht
  | const value =>
      obtain ⟨rfl, _⟩ := ht
      rfl
  | global name => rfl
  | function name => exact ht.elim

/-- The tree of a callee is bound to the callee. -/
theorem bind_calleeTree {v : Operand} (hv : f.StandsCalled v) :
    (f.calleeTree v).bind (f.scope m) = .ok v := by
  have hlocal : f.Defines v → (f.calleeTree v).bind (f.scope m) = .ok v := fun hv => by
    obtain ⟨name, htree, hbind⟩ := h.bindLocal_tree hv
    rw [calleeTree, htree]
    exact hbind
  cases v with
  | function name => rfl
  | param k => exact hlocal hv
  | result id => exact hlocal hv
  | const value | global name => exact hv.elim

/-- The tree of a typed operand is bound to the typed operand. -/
theorem bind_typedTree {t : TypedOperand} (ht : f.Stands t) :
    (f.typedTree t).bind (f.scope m) = .ok t := by
  rw [typedTree, TypedText.bind]
  simp only [Ty.bind_tree, bind, Except.bind, h.bind_operandTree ht]
  rfl

/-- So is each of a list. -/
theorem bind_list {l : List TypedOperand} (hl : ∀ t ∈ l, f.Stands t) :
    (l.map f.typedTree).mapM (·.bind (f.scope m)) = .ok l :=
  (mapM_map_eq_ok (k := id) fun t ht => h.bind_typedTree (hl t ht)).trans (by rw [List.map_id])

/-- So is one that may be missing. -/
theorem bind_optional {o : Option TypedOperand} (ho : ∀ t ∈ o, f.Stands t) :
    bindOptional (f.scope m) (o.map f.typedTree) = .ok o := by
  cases o with
  | none => rfl
  | some t =>
      simp only [Option.map_some, bindOptional, bind, Except.bind, h.bind_typedTree (ho t rfl)]
      rfl

/-- The trees of arms are bound to the arms. -/
theorem bind_arms {t : Ty} {l : List Arm} (hvalues : ∀ a ∈ l, f.Stands ⟨t, a.value⟩)
    (hsources : ∀ a ∈ l, a.source < f.blocks.length) :
    (l.map fun a => (⟨f.operandTree a.value, f.blockName a.source⟩ : ArmText)).mapM
      (·.bind (f.scope m) t) = .ok l := by
  refine (mapM_map_eq_ok (k := id) fun a ha => ?_).trans (by rw [List.map_id])
  have hvalue := h.bind_operandTree (m := m) (hvalues a ha)
  simp only [ArmText.bind, bind, Except.bind] at hvalue ⊢
  rw [hvalue]
  simp only [h.bindLabel_tree (hsources a ha)]
  rfl

/-! ### Each form stands for what it was written for -/

section Forms

variable {ty source target : Ty} {lhs rhs cond onTrue onFalse callee : Operand}
  {base value address : TypedOperand} {indices args : List TypedOperand}

/-- The condition of a branch or a select is written with its own type. -/
theorem bind_condition {i : Instruction} (hi : f.Writes i) (v : Operand)
    (hv : ⟨.bool, v.retype .bool⟩ ∈ i.asWritten.typedOperands) :
    (f.typedTree ⟨.bool, v⟩).bind (f.scope m) = .ok ⟨.bool, v.retype .bool⟩ := by
  have hbound := h.bind_typedTree (m := m) (hi.operands _ hv)
  rwa [typedTree_retype] at hbound

theorem rebinds_binary {op : BinaryOp} (hi : f.Writes (.binary op ty lhs rhs)) :
    f.Rebinds m (.binary op ty lhs rhs) := by
  have hlhs := h.bind_typedTree (m := m) (hi.operands ⟨ty, lhs⟩ (by simp))
  have hrhs := h.bind_operandTree (m := m) (hi.operands ⟨ty, rhs⟩ (by simp))
  simp only [Rebinds, statement, Statement.bind, hlhs, bind, Except.bind] at hrhs ⊢
  rw [hrhs]
  rfl

theorem rebinds_compare {test : Comparison} (hi : f.Writes (.compare test ty lhs rhs)) :
    f.Rebinds m (.compare test ty lhs rhs) := by
  have hlhs := h.bind_typedTree (m := m) (hi.operands ⟨ty, lhs⟩ (by simp))
  have hrhs := h.bind_operandTree (m := m) (hi.operands ⟨ty, rhs⟩ (by simp))
  simp only [Rebinds, statement, Statement.bind, hlhs, bind, Except.bind] at hrhs ⊢
  rw [hrhs]
  rfl

theorem rebinds_load (hi : f.Writes (.load ty address)) : f.Rebinds m (.load ty address) := by
  have haddress := h.bind_typedTree (m := m) (hi.operands address (by simp))
  simp only [Rebinds, statement, Statement.bind, Ty.bind_tree, haddress, bind, Except.bind]
  rfl

theorem rebinds_store (hi : f.Writes (.store value address)) :
    f.Rebinds m (.store value address) := by
  have hvalue := h.bind_typedTree (m := m) (hi.operands value (by simp))
  have haddress := h.bind_typedTree (m := m) (hi.operands address (by simp))
  simp only [Rebinds, statement, Statement.bind, hvalue, haddress, bind, Except.bind]
  rfl

theorem rebinds_elementPtr (hi : f.Writes (.elementPtr source base indices)) :
    f.Rebinds m (.elementPtr source base indices) := by
  have hbase := h.bind_typedTree (m := m) (hi.operands base (by simp))
  have hindices := h.bind_list (m := m) (l := indices) fun t ht =>
    hi.operands t (List.mem_cons_of_mem base ht)
  simp only [Rebinds, statement, Statement.bind, Ty.bind_tree, hbase, hindices, bind, Except.bind]
  rfl

theorem rebinds_cast {op : CastOp} (hi : f.Writes (.cast op value target)) :
    f.Rebinds m (.cast op value target) := by
  have hvalue := h.bind_typedTree (m := m) (hi.operands value (by simp))
  simp only [Rebinds, statement, Statement.bind, Ty.bind_tree, hvalue, bind, Except.bind]
  rfl

theorem rebinds_phi {arms : List Arm} (hi : f.Writes (.phi ty arms)) :
    f.Rebinds m (.phi ty arms) := by
  have harms := h.bind_arms (m := m) (t := ty) (l := arms)
    (fun a ha => hi.operands _ (List.mem_map.mpr ⟨a, ha, rfl⟩))
    (fun a ha => hi.refs a.source (List.mem_map_of_mem ha))
  simp only [Rebinds, statement, Statement.bind, Ty.bind_tree, harms, bind, Except.bind]
  rfl

theorem rebinds_select (hi : f.Writes (.select cond ty onTrue onFalse)) :
    f.Rebinds m (.select cond ty onTrue onFalse) := by
  have hcond := h.bind_condition (m := m) hi cond (by simp)
  have htrue := h.bind_typedTree (m := m) (hi.operands ⟨ty, onTrue⟩ (by simp))
  have hfalse := h.bind_typedTree (m := m) (hi.operands ⟨ty, onFalse.retype ty⟩ (by simp))
  rw [typedTree_retype] at hfalse
  simp only [Rebinds, statement, Statement.bind, hcond, htrue, hfalse, bind, Except.bind]
  rfl

theorem rebinds_call (hi : f.Writes (.call ty callee args)) :
    f.Rebinds m (.call ty callee args) := by
  have hcallee := h.bind_calleeTree (m := m) (hi.callee callee rfl)
  have hargs := h.bind_list (m := m) (l := args) hi.operands
  simp only [Rebinds, statement, Statement.bind, Ty.bind_tree, hcallee, hargs, bind, Except.bind]
  rfl

theorem rebinds_alloca {count : Option TypedOperand} (hi : f.Writes (.alloca ty count)) :
    f.Rebinds m (.alloca ty count) := by
  have hcount := h.bind_optional (m := m) (o := count) fun t ht =>
    hi.operands t (Option.mem_toList.mpr ht)
  simp only [Rebinds, statement, Statement.bind, Ty.bind_tree, hcount, bind, Except.bind]
  rfl

theorem rebinds_jump {b : BlockId} (hi : f.Writes (.jump b)) : f.Rebinds m (.jump b) := by
  have htarget := h.bindLabel_tree (m := m) (hi.refs b (by simp [Instruction.blockRefs]))
  simp only [Rebinds, statement, Statement.bind, htarget, bind, Except.bind]
  rfl

theorem rebinds_branch {yes no : BlockId} (hi : f.Writes (.branch cond yes no)) :
    f.Rebinds m (.branch cond yes no) := by
  have hcond := h.bind_condition (m := m) hi cond (by simp)
  have hyes := h.bindLabel_tree (m := m) (hi.refs yes (by simp [Instruction.blockRefs]))
  have hno := h.bindLabel_tree (m := m) (hi.refs no (by simp [Instruction.blockRefs]))
  simp only [Rebinds, statement, Statement.bind, hcond, hyes, hno, bind, Except.bind]
  rfl

theorem rebinds_ret {value : Option TypedOperand} (hi : f.Writes (.ret value)) :
    f.Rebinds m (.ret value) := by
  have hvalue := h.bind_optional (m := m) (o := value) fun t ht =>
    hi.operands t (Option.mem_toList.mpr ht)
  simp only [Rebinds, statement, Statement.bind, hvalue, bind, Except.bind]
  rfl

end Forms

/-- An instruction with a written form is bound back from its statement, with its literals
retyped. -/
theorem bind_statement {i : Instruction} (hi : f.Writes i) :
    (f.statement i).bind (f.scope m) = .ok i.asWritten := by
  cases i with
  | binary => exact h.rebinds_binary hi
  | compare => exact h.rebinds_compare hi
  | load => exact h.rebinds_load hi
  | store => exact h.rebinds_store hi
  | elementPtr => exact h.rebinds_elementPtr hi
  | cast => exact h.rebinds_cast hi
  | phi => exact h.rebinds_phi hi
  | select => exact h.rebinds_select hi
  | call => exact h.rebinds_call hi
  | alloca => exact h.rebinds_alloca hi
  | jump => exact h.rebinds_jump hi
  | branch => exact h.rebinds_branch hi
  | ret => exact h.rebinds_ret hi
  | unreachable => rfl

end Printable

/-! ## Filling the blocks -/

variable (f)

/-- The slot of an instruction with its name and its constants as they are written. -/
def slotAsWritten (id : InstId) (s : Slot) : Slot :=
  { s with name := f.writtenName id s.instruction, instruction := s.instruction.asWritten }

/-- The function that the written form stands for. -/
def asWritten : Function := { f with slots := f.slots.mapIdx f.slotAsWritten }

/-- The slot that a line of block `b` makes. -/
def slotIn (b : BlockId) (id : InstId) : Option Slot :=
  (f.instruction? id).map fun i =>
    { name := f.writtenName id i, instruction := i.asWritten, block := b }

variable {f}

/-- A line goes to the end of the block in the middle. -/
theorem push_middle {g : Function} {before after : List Block} {label : String}
    {insts : List InstId} (hblocks : g.blocks = before ++ ⟨label, insts⟩ :: after)
    (name : Option String) (i : Instruction) :
    g.push before.length name i = { g with
      blocks := before ++ ⟨label, insts ++ [g.slots.length]⟩ :: after
      slots := g.slots ++ [⟨name, i, before.length⟩] } := by
  have hbody : g.body before.length = insts := by simp [body, hblocks]
  have hmodify : ∀ ks : List Block, (ks ++ ⟨label, insts⟩ :: after).modify ks.length
      (fun k => { k with insts := k.insts.insertIdx insts.length g.slots.length }) =
        ks ++ ⟨label, insts ++ [g.slots.length]⟩ :: after := by
    intro ks
    induction ks with
    | nil => simp
    | cons k ks ih => simpa using ih
  rw [push, insert, hbody, hblocks, nextId, hmodify]

/-- The lines of a block fill it. -/
theorem foldlM_pushLine_tree (h : f.Printable) {m : Nat} {g : Function}
    {before after : List Block} {label : String} {j l : List InstId}
    (hblocks : g.blocks = before ++ ⟨label, j⟩ :: after)
    (hids : l = List.range' g.slots.length l.length)
    (hall : ∀ id ∈ l, ∃ i, f.instruction? id = some i) :
    (l.filterMap f.line?).foldlM (pushLine (f.scope m) before.length) g = .ok { g with
      blocks := before ++ ⟨label, j ++ l⟩ :: after
      slots := g.slots ++ l.filterMap (f.slotIn before.length) } := by
  induction l generalizing g j with
  | nil => simp [pure, Except.pure, ← hblocks]
  | cons id l ih =>
      obtain ⟨i, hi⟩ := hall id List.mem_cons_self
      rw [List.length_cons, List.range'_succ, List.cons.injEq] at hids
      obtain ⟨rfl, hids⟩ := hids
      have hline : f.line? g.slots.length =
          some ⟨f.writtenName g.slots.length i, f.statement i⟩ := by
        rw [line?, hi]
        rfl
      have hslot : f.slotIn before.length g.slots.length =
          some ⟨f.writtenName g.slots.length i, i.asWritten, before.length⟩ := by
        rw [slotIn, hi]
        rfl
      have hpush : pushLine (f.scope m) before.length g
          ⟨f.writtenName g.slots.length i, f.statement i⟩ = .ok { g with
            blocks := before ++ ⟨label, j ++ [g.slots.length]⟩ :: after
            slots := g.slots ++
              [⟨f.writtenName g.slots.length i, i.asWritten, before.length⟩] } := by
        rw [← push_middle hblocks, pushLine]
        simp only [h.bind_statement (h.writes hi), bind, Except.bind]
        rfl
      have hrest := ih (g := { g with
          blocks := before ++ ⟨label, j ++ [g.slots.length]⟩ :: after
          slots := g.slots ++ [⟨f.writtenName g.slots.length i, i.asWritten, before.length⟩] }) rfl
        (by simpa using hids) fun id hid => hall id (List.mem_cons_of_mem _ hid)
      rw [List.filterMap_cons_some hline, List.foldlM_cons, hpush]
      simp only [bind, Except.bind]
      rw [hrest, List.filterMap_cons_some hslot]
      simp only [List.append_assoc, List.singleton_append]

/-- The slots that the lines of blocks make, the first block having number `b`. -/
def slotsFrom (f : Function) (b : BlockId) (ks : List Block) : List Slot :=
  (ks.zipIdx b).flatMap fun numbered => numbered.1.insts.filterMap (f.slotIn numbered.2)

/-- The blocks are filled one after the other. -/
theorem foldlM_pushBlock_tree (h : f.Printable) {m : Nat} {g : Function}
    {p q : List Block}
    (hblocks : g.blocks = p ++ q.map fun k => ⟨k.name, []⟩)
    (hids : q.flatMap (·.insts) =
      List.range' g.slots.length (q.flatMap (·.insts)).length)
    (hall : ∀ id ∈ q.flatMap (·.insts), ∃ i, f.instruction? id = some i) :
    ((q.map f.blockTree).zipIdx p.length).foldlM (pushBlock (f.scope m)) g = .ok { g with
      blocks := p ++ q, slots := g.slots ++ f.slotsFrom p.length q } := by
  induction q generalizing g p with
  | nil =>
      rw [List.map_nil, List.append_nil] at hblocks
      subst hblocks
      simp [pure, Except.pure, slotsFrom]
  | cons k q ih =>
      rw [List.flatMap_cons, List.length_append, ← List.range'_append_1] at hids
      obtain ⟨hfirst, hrest⟩ := List.append_inj hids (by simp)
      have hlines := foldlM_pushLine_tree h (m := m) (j := []) (l := k.insts) hblocks
        hfirst fun id hid => hall id (by simp [hid])
      have hsize : (k.insts.filterMap (f.slotIn p.length)).length = k.insts.length := by
        refine List.filterMap_length_eq_length.mpr fun id hid => ?_
        obtain ⟨i, hi⟩ := hall id (by simp [hid])
        simp [slotIn, hi]
      have hlater := ih (p := p ++ [k]) (g := { g with
          blocks := p ++ k :: q.map fun k => ⟨k.name, []⟩
          slots := g.slots ++ k.insts.filterMap (f.slotIn p.length) })
        (by simp) (by simpa [hsize] using hrest)
        fun id hid => hall id (by rw [List.flatMap_cons]; exact List.mem_append_right _ hid)
      rw [List.map_cons, List.zipIdx_cons, List.foldlM_cons]
      have hblock : pushBlock (f.scope m) g (f.blockTree k, p.length) = .ok { g with
          blocks := p ++ k :: q.map fun k => ⟨k.name, []⟩
          slots := g.slots ++ k.insts.filterMap (f.slotIn p.length) } := hlines
      rw [hblock]
      simp only [bind, Except.bind]
      rw [List.length_append, List.length_singleton] at hlater
      rw [hlater]
      simp [slotsFrom]

/-- The elements at all indices are the list. -/
theorem filterMap_range_getElem? {α : Type} (l : List α) :
    (List.range l.length).filterMap (fun id => l[id]?) = l := by
  induction l with
  | nil => rfl
  | cons a l ih =>
      have hhead : (fun id => (a :: l)[id]?) 0 = some a := rfl
      rw [List.length_cons, List.range_succ_eq_map, List.filterMap_cons_some hhead,
        List.filterMap_map]
      exact congrArg (a :: ·) ih

/-- The slots that the lines make are those of the function as it is written. -/
theorem slotsFrom_blocks (h : f.Printable) : f.slotsFrom 0 f.blocks = f.asWritten.slots := by
  have hslot : ∀ numbered ∈ f.blocks.zipIdx, numbered.1.insts.filterMap (f.slotIn numbered.2) =
      numbered.1.insts.filterMap fun id => f.asWritten.slots[id]? := by
    intro numbered hnumbered
    refine List.filterMap_congr fun id hid => ?_
    have hbody : id ∈ f.body numbered.2 := by
      rwa [body_eq_of_getElem? (List.mem_zipIdx_iff_getElem?.mp hnumbered)]
    obtain ⟨slot, hget, hblock⟩ := h.placed.slot hbody
    simp [slotIn, instruction?, asWritten, slotAsWritten, hget, hblock]
  have hsize : f.asWritten.slots.length = f.slots.length := List.length_mapIdx ..
  calc f.slotsFrom 0 f.blocks
      = f.blocks.zipIdx.flatMap fun numbered =>
          numbered.1.insts.filterMap fun id => f.asWritten.slots[id]? := List.flatMap_congr hslot
    _ = (f.blocks.zipIdx.map (·.1)).flatMap fun k =>
          k.insts.filterMap fun id => f.asWritten.slots[id]? := by rw [List.flatMap_map]
    _ = f.live.filterMap fun id => f.asWritten.slots[id]? := by
        rw [List.zipIdx_map_fst, live, List.filterMap_flatMap]
    _ = f.asWritten.slots := by rw [h.live_eq, ← hsize, filterMap_range_getElem?]

/-- The tree of a function is bound to the function as it is written. -/
theorem Printable.bind_tree (h : f.Printable) : f.tree.bind = .ok f.asWritten := by
  obtain ⟨next, hparams⟩ := bindParams_tree 0 f.params
  have hlive : f.blocks.flatMap (·.insts) = List.range f.slots.length := h.live_eq
  have hall : ∀ id ∈ f.blocks.flatMap (·.insts), ∃ i, f.instruction? id = some i := by
    intro id hid
    rw [hlive] at hid
    exact ⟨_, by rw [instruction?, List.getElem?_eq_getElem (List.mem_range.mp hid)]; rfl⟩
  have hscope : (f.blocks.map f.blockTree).foldlM Scope.addBlock
      { function := f.name, params := f.params.map (·.name), nextNumber := next } =
        .ok (f.scope next) := by
    rw [foldlM_addBlock_tree (f := f)
      (s := { function := f.name, params := f.params.map (·.name), nextNumber := next })
      (by simp [hlive, List.range_eq_range']) hall
      (fun r hr => by
        rw [hlive] at hr
        refine h.fresh r.1 ?_
        rw [Function.resultNames, ← map_filterMap_result?]
        exact List.mem_map_of_mem hr)
      (by rw [hlive, List.nil_append, map_filterMap_result?]; exact h.distinct) h.distinctLabels]
    simp [scope, hlive, Function.labels]
  have hblocks := foldlM_pushBlock_tree h (m := next) (p := []) (q := f.blocks)
    (g := { name := f.name, ret := f.ret, params := f.params
            blocks := f.blocks.map fun k => ⟨k.name, []⟩ })
    rfl (by simp [hlive, List.range_eq_range']) hall
  rw [List.length_nil, List.nil_append, List.nil_append, slotsFrom_blocks h] at hblocks
  have hlabelled : (f.scope next).labels.foldl Function.addBlock
      { name := f.name, ret := f.ret, params := f.params } =
        { name := f.name, ret := f.ret, params := f.params
          blocks := f.blocks.map fun k => ⟨k.name, []⟩ } := by
    rw [foldl_addBlock_eq]
    simp [scope, Function.labels, Function.comp_def]
  simp only [FunctionText.bind, tree, Ty.bind_tree, hparams, bind, Except.bind]
  rw [hscope]
  simp only
  rw [hlabelled, hblocks]
  rfl

end Function

end Dataflow
