import Dataflow.Proofs.Text.Rebinding

/-!
# Functions as they are written

The function that a written form stands for differs from the function itself in names of results and
in types of constants (`Function.asWritten`). Nothing of this shows: it is written the same
(`Function.Printable.text_asWritten`), and it has violations only where the function has some
(`Function.violations_asWritten`).
-/

namespace Dataflow

open Surface

namespace Instruction

variable (i : Instruction)

/-- An instruction keeps its type as it is written. -/
theorem resultTy_asWritten : i.asWritten.resultTy = i.resultTy := by
  cases i <;> rfl

theorem isPhi_asWritten : i.asWritten.isPhi = i.isPhi := by
  cases i <;> rfl

theorem isTerminator_asWritten : i.asWritten.isTerminator = i.isTerminator := by
  cases i <;> rfl

theorem successors_asWritten : i.asWritten.successors = i.successors := by
  cases i <;> rfl

/-- The results among the operands stay as they are written. -/
theorem results_asWritten :
    i.asWritten.operands.filterMap (·.result?) = i.operands.filterMap (·.result?) := by
  have hretype : ∀ (v : Operand) ty, (v.retype ty).result? = v.result? := by
    intro v ty
    cases v <;> rfl
  cases i <;> simp [operands, List.filterMap_cons, hretype]

end Instruction

namespace Function

variable {f : Function} {id : InstId} {i : Instruction}

/-! ## Violations -/

theorem slots_asWritten (id : InstId) :
    f.asWritten.slots[id]? = (f.slots[id]?).map (f.slotAsWritten id) := List.getElem?_mapIdx

theorem instruction?_asWritten (id : InstId) :
    f.asWritten.instruction? id = (f.instruction? id).map (·.asWritten) := by
  rw [instruction?, slots_asWritten, instruction?, Option.map_map, Option.map_map]
  rfl

/-- What holds of instructions in either form holds in the function in either form. -/
theorem any_asWritten {p : Instruction → Bool} (hp : ∀ i, p i.asWritten = p i) (id : InstId) :
    (f.asWritten.instruction? id).any p = (f.instruction? id).any p := by
  rw [instruction?_asWritten]
  cases f.instruction? id with
  | none => rfl
  | some i => exact hp i

theorem terminator?_asWritten (b : BlockId) : f.asWritten.terminator? b = f.terminator? b := by
  simp only [terminator?, any_asWritten Instruction.isTerminator_asWritten]
  rfl

theorem predecessors_asWritten (b : BlockId) : f.asWritten.predecessors b = f.predecessors b := by
  have hsuccessors : ∀ c, f.asWritten.successors c = f.successors c := by
    intro c
    rw [successors, successors, terminator?_asWritten]
    cases f.terminator? c with
    | none => rfl
    | some id =>
        rw [Option.bind_some, Option.bind_some, instruction?_asWritten]
        cases f.instruction? id with
        | none => rfl
        | some i => exact i.successors_asWritten
  simp only [predecessors, hsuccessors]
  rfl

/-- A well-shaped function is well shaped as it is written. -/
theorem WellShaped.asWritten (h : f.WellShaped) : f.asWritten.WellShaped where
  terminated b hb := by
    rw [terminator?_asWritten]
    exact h.terminated b hb
  terminator_last hbody hterm := by
    rw [any_asWritten Instruction.isTerminator_asWritten] at hterm
    exact h.terminator_last hbody hterm
  phi_first hbody hphi x hx := by
    rw [any_asWritten Instruction.isPhi_asWritten] at hphi ⊢
    exact h.phi_first hbody hphi x hx
  arm {id s ty arms a} hid hs hi ha := by
    rw [slots_asWritten, Option.map_eq_some_iff] at hs
    obtain ⟨t, ht, rfl⟩ := hs
    rw [predecessors_asWritten]
    have hphi : t.instruction = .phi ty arms := by
      rw [slotAsWritten] at hi
      cases hinst : t.instruction with
      | phi => rwa [hinst] at hi
      | _ =>
          rw [hinst] at hi
          cases hi
    exact h.arm (s := t) hid ht hphi ha

/-- The search for cycles only asks for dependencies. -/
theorem searchFrom_congr {g : Function} (h : g.dependencies = f.dependencies) (depth : Nat) :
    g.searchFrom depth = f.searchFrom depth := by
  induction depth with
  | zero => rfl
  | succ depth ih =>
      funext path id s
      rw [searchFrom, searchFrom, ih, h]

/-- The cycles are the same as the function is written. -/
theorem cycles_asWritten : f.asWritten.cycles = f.cycles := by
  have hordered : ∀ id, f.asWritten.isOrdered id = f.isOrdered id :=
    any_asWritten fun i => by rw [i.isPhi_asWritten]
  have hdependencies : f.asWritten.dependencies = f.dependencies := by
    funext id
    have hresults : ((f.asWritten.instruction? id).elim [] (·.operands)).filterMap (·.result?) =
        ((f.instruction? id).elim [] (·.operands)).filterMap (·.result?) := by
      rw [instruction?_asWritten]
      cases f.instruction? id with
      | none => rfl
      | some i => exact i.results_asWritten
    simp only [dependencies, hresults, hordered, funext hordered]
    rfl
  have hfrom : ∀ ids s, f.asWritten.cyclesFrom ids s = f.cyclesFrom ids s := by
    intro ids
    induction ids with
    | nil => exact fun _ => rfl
    | cons id ids ih =>
        intro s
        have hsize : f.asWritten.slots.length = f.slots.length := List.length_mapIdx ..
        simp only [cyclesFrom, hordered, searchFrom_congr hdependencies, ih, hsize]
  exact hfrom f.live {}

/-- A function without a violation has none as it is written. -/
theorem violations_asWritten (h : f.violations = []) : f.asWritten.violations = [] := by
  rw [violations, List.append_eq_nil_iff] at h
  rw [violations, cycles_asWritten,
    (wellShaped_of_structureViolations h.1).asWritten.structureViolations]
  simpa using h.2

/-! ## The written form -/

/-- The name that is written before an instruction is that of its slot as it is written. -/
theorem resultName_asWritten (hi : f.instruction? id = some i) (hty : i.resultTy ≠ .void) :
    f.asWritten.resultName id = f.resultName id := by
  rw [instruction?, Option.map_eq_some_iff] at hi
  obtain ⟨s, hs, rfl⟩ := hi
  rw [resultName, slots_asWritten, hs]
  simp [slotAsWritten, writtenName, hty]

/-- An operand is printed alike in the function as it is written. -/
theorem operandText_asWritten {v : Operand}
    (hv : ∀ id, v = .result id → ∃ i, f.instruction? id = some i ∧ i.resultTy ≠ .void) :
    f.asWritten.operandText v = f.operandText v := by
  cases v with
  | result id =>
      obtain ⟨i, hi, hty⟩ := hv id rfl
      rw [operandText_result, operandText_result, resultName_asWritten hi hty]
  | _ => rfl

/-- A data operand is printed alike in the function as it is written. -/
theorem Stands.operandText {t : TypedOperand} (ht : f.Stands t) :
    f.asWritten.operandText t.value = f.operandText t.value := by
  refine operandText_asWritten fun id heq => ?_
  rw [Stands, heq] at ht
  exact ht.1

/-- A callee is printed alike in the function as it is written. -/
theorem StandsCalled.operandText {v : Operand} (hv : f.StandsCalled v) :
    f.asWritten.operandText v = f.operandText v := by
  refine operandText_asWritten fun id heq => ?_
  subst heq
  exact hv.1

/-- The body of an instruction is printed alike as it is written: each form prints a literal without
the type it carries. -/
theorem bodyText_asWritten (hi : f.Writes i) :
    f.asWritten.bodyText i.asWritten = f.bodyText i := by
  have hvalue : ∀ ty v, ⟨ty, v⟩ ∈ i.asWritten.typedOperands →
      f.asWritten.operandText v = f.operandText v :=
    fun ty v ht => Stands.operandText (hi.operands ⟨ty, v⟩ ht)
  have htyped : ∀ t ∈ i.asWritten.typedOperands, f.asWritten.typedText t = f.typedText t := by
    intro t ht
    rw [typedText, typedText, hvalue t.ty t.value ht]
  have hlist : ∀ l : List TypedOperand, (∀ t ∈ l, t ∈ i.asWritten.typedOperands) →
      l.map f.asWritten.typedText = l.map f.typedText :=
    fun l hl => List.map_congr_left fun t ht => htyped t (hl t ht)
  have hlabel : f.asWritten.labelText = f.labelText := rfl
  cases i with
  | binary op ty lhs rhs =>
      simp only [Instruction.asWritten, bodyText, hvalue ty lhs (by simp), hvalue ty rhs (by simp)]
  | compare test ty lhs rhs =>
      have hlhs := hvalue ty lhs (by simp)
      have hrhs := hvalue ty rhs (by simp)
      cases test <;> simp only [Instruction.asWritten, bodyText, hlhs, hrhs]
  | load ty address => simp only [Instruction.asWritten, bodyText, htyped address (by simp)]
  | store value address =>
      simp only [Instruction.asWritten, bodyText, htyped value (by simp), htyped address (by simp)]
  | elementPtr source base indices =>
      have hindices := hlist indices fun t ht => List.mem_cons_of_mem base ht
      simp only [Instruction.asWritten, bodyText, htyped base (by simp), hindices]
  | cast op value target => simp only [Instruction.asWritten, bodyText, htyped value (by simp)]
  | phi ty arms =>
      have harms : arms.map f.asWritten.armText = arms.map f.armText := by
        refine List.map_congr_left fun a ha => ?_
        rw [armText, armText, hlabel, hvalue ty a.value (List.mem_map_of_mem ha)]
      simp only [Instruction.asWritten, bodyText, harms]
  | select cond ty onTrue onFalse =>
      have hcond := hvalue .bool (cond.retype .bool) (by simp)
      have hfalse := htyped ⟨ty, onFalse.retype ty⟩ (by simp)
      rw [operandText_retype, operandText_retype] at hcond
      rw [typedText_retype, typedText_retype] at hfalse
      have htrue := htyped ⟨ty, onTrue⟩ (by simp)
      simp only [Instruction.asWritten, bodyText, operandText_retype, typedText_retype, hcond,
        htrue, hfalse]
  | call retTy callee args =>
      have hcallee := (hi.callee callee rfl).operandText
      have hargs := hlist args fun t ht => ht
      simp only [Instruction.asWritten, bodyText, hcallee, hargs]
  | alloca ty count =>
      cases count with
      | none => rfl
      | some count => simp only [Instruction.asWritten, bodyText, htyped count (by simp)]
  | jump target => rfl
  | branch cond onTrue onFalse =>
      have hcond := hvalue .bool (cond.retype .bool) (by simp)
      rw [operandText_retype, operandText_retype] at hcond
      simp only [Instruction.asWritten, bodyText, operandText_retype, hcond, hlabel]
  | ret value =>
      cases value with
      | none => rfl
      | some value => simp only [Instruction.asWritten, bodyText, htyped value (by simp)]
  | unreachable => rfl

/-- An instruction is printed alike as it is written. -/
theorem instructionText_asWritten (hi : f.instruction? id = some i) (hw : f.Writes i) :
    f.asWritten.instructionText id = f.instructionText id := by
  simp only [instructionText, instruction?_asWritten, hi, Option.map_some, i.resultTy_asWritten,
    bodyText_asWritten hw]
  split
  · rfl
  · rename_i hty
    rw [operandText_asWritten fun x heq => ?_]
    cases heq
    exact ⟨i, hi, hty⟩

/-- A function that can be written is written as what its written form stands for. -/
theorem Printable.text_asWritten (h : f.Printable) : f.asWritten.text = f.text := by
  have hblock : ∀ k ∈ f.blocks, f.asWritten.blockText k = f.blockText k := by
    intro k hk
    have hlines : k.insts.map (fun id => "  " ++ f.asWritten.instructionText id ++ "\n") =
        k.insts.map fun id => "  " ++ f.instructionText id ++ "\n" := by
      refine List.map_congr_left fun id hid => ?_
      obtain ⟨i, hi, _, hw, _⟩ := h.listed hk hid
      rw [instructionText_asWritten hi hw]
    rw [blockText, blockText, hlines]
  have hblocks : f.asWritten.blocks.map f.asWritten.blockText = f.blocks.map f.blockText :=
    List.map_congr_left hblock
  rw [Function.text, Function.text, hblocks]
  rfl

end Function

end Dataflow
