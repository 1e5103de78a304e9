import Dataflow.Proofs.Text.Rebinding

/-!
# Printing and reading

What is printed of a well-formed module is read as that module (`Module.read_text`). Well-formed is
told by the function itself (`Function.WellFormed`) and not by its text: what it consists of, how it
is numbered, which names it uses and where its operands lead.
-/

namespace Dataflow

open Lexeme Surface

/-! ## Well-formed functions -/

namespace Operand

/-- Whether the operand can be read as data, which all can but a function that is called. -/
def isData : Operand → Bool
  | function _ => false
  | param _ | result _ | const _ | global _ => true

/-- Whether the operand can be called. -/
def isCallable : Operand → Bool
  | function _ | param _ | result _ => true
  | const _ | global _ => false

/-- The constant that the operand is. -/
def const? : Operand → Option Constant
  | const value => some value
  | _ => none

end Operand

/-- What a return returns. -/
def Instruction.returned? : Instruction → Option TypedOperand
  | .ret value => value
  | _ => none

namespace Function

variable (f : Function)

/-- Whether what an operand names is there: a parameter, an instruction with a name, or a global or
a function whose name can be written. -/
def Holds : Operand → Prop
  | .param k => k < f.params.length
  | .result id => ∃ s ∈ f.slots[id]?, s.name ≠ none
  | .const _ => True
  | .global name | .function name => IsName name

/-- Whether an operand stands for something is decided by its number or its text. -/
instance (v : Operand) : Decidable (f.Holds v) := by
  cases v <;> unfold Holds <;> infer_instance

/-- What an instruction of a well-formed function refers to and holds. -/
structure Admits (i : Instruction) : Prop where
  /-- What is read as data is there and is no function. -/
  read : ∀ v ∈ i.operands, f.Holds v ∧ v.isData = true
  /-- What is called is there and is a function, a parameter or a result. -/
  called : ∀ v ∈ i.callee?, f.Holds v ∧ v.isCallable = true
  /-- A constant is a literal of the type that is written before it. -/
  const : ∀ t ∈ i.typedOperands, ∀ c ∈ t.value.const?, c.ty = t.ty ∧ IsLiteral c.literal
  /-- The blocks that are named exist. -/
  refs : ∀ b ∈ i.blockRefs, b < f.blocks.length
  /-- A phi has an arm. -/
  armed : i.isPhi = true → i.operands ≠ []
  /-- The type of a returned value is not `void` and does not lead to it by pointers. -/
  returned : ∀ t ∈ i.returned?, t.ty.startsVoid = false

/-- Whether an instruction is admitted is decided by its operands and its blocks. -/
instance (i : Instruction) : Decidable (f.Admits i) :=
  decidable_of_iff ((∀ v ∈ i.operands, f.Holds v ∧ v.isData = true) ∧
      (∀ v ∈ i.callee?, f.Holds v ∧ v.isCallable = true) ∧
      (∀ t ∈ i.typedOperands, ∀ c ∈ t.value.const?, c.ty = t.ty ∧ IsLiteral c.literal) ∧
      (∀ b ∈ i.blockRefs, b < f.blocks.length) ∧ (i.isPhi = true → i.operands ≠ []) ∧
      ∀ t ∈ i.returned?, t.ty.startsVoid = false)
    ⟨fun ⟨read, called, const, refs, armed, returned⟩ =>
        ⟨read, called, const, refs, armed, returned⟩,
      fun h => ⟨h.read, h.called, h.const, h.refs, h.armed, h.returned⟩⟩

variable {f} in
/-- An instruction whose constants have the types that are written before them stands as it is
written. -/
theorem Admits.asWritten_eq {i : Instruction} (hi : f.Admits i) : i.asWritten = i := by
  have hretype : ∀ ty v, ⟨ty, v⟩ ∈ i.typedOperands → v.retype ty = v := by
    intro ty v hv
    cases v with
    | const value =>
        have hty : value.ty = ty := (hi.const _ hv value rfl).1
        rw [Operand.retype, ← hty]
    | _ => rfl
  cases i with
  | select cond ty onTrue onFalse =>
      rw [Instruction.asWritten, hretype .bool cond (by simp), hretype ty onFalse (by simp)]
  | branch cond onTrue onFalse => rw [Instruction.asWritten, hretype .bool cond (by simp)]
  | _ => rfl

/-- A function whose written form reads back. -/
structure WellFormed : Prop where
  /-- There is a block. -/
  nonempty : f.blocks ≠ []
  /-- No block is empty. -/
  filled : ∀ k ∈ f.blocks, k.insts ≠ []
  /-- Instructions are numbered in program order, and none is detached. -/
  live_eq : f.live = List.range f.slots.length
  /-- An instruction knows the block that lists it. -/
  home : ∀ numbered ∈ f.blocks.zipIdx, ∀ id ∈ numbered.1.insts,
    ∃ s ∈ f.slots[id]?, s.block = numbered.2
  /-- A block ends in its only terminator. -/
  ends : ∀ k ∈ f.blocks, ∀ id ∈ k.insts, ∀ i ∈ f.instruction? id,
    i.isTerminator = true ↔ k.insts.getLast? = some id
  /-- The name of the function can be written. -/
  name : IsName f.name
  /-- The names of parameters and results can be written. -/
  valueNames : ∀ name ∈ f.takenNames, IsName name
  /-- The labels can be written. -/
  labels : ∀ label ∈ f.labels, IsName label
  /-- Parameters and results have names of their own. -/
  distinct : f.takenNames.Nodup
  /-- Blocks have labels of their own. -/
  distinctLabels : f.labels.Nodup
  /-- No label but the first is `unreachable`. -/
  reserved : "unreachable" ∉ f.labels.tail
  /-- An instruction has a name if and only if it has a result. -/
  named : ∀ s ∈ f.slots, s.name ≠ none ↔ s.instruction.resultTy ≠ .void
  /-- Every instruction refers to what is there. -/
  admits : ∀ s ∈ f.slots, f.Admits s.instruction

namespace WellFormed

variable {f} (h : f.WellFormed)

include h

/-- The name that is written before an instruction is its own. -/
theorem writtenName_eq {id : InstId} {s : Slot} (hs : f.slots[id]? = some s) :
    f.writtenName id s.instruction = s.name := by
  have hnamed := h.named s (List.mem_of_getElem? hs)
  unfold writtenName
  split
  · rename_i hvoid
    cases hname : s.name with
    | none => rfl
    | some name => exact absurd hvoid (hnamed.mp (by simp [hname]))
  · rename_i hvoid
    cases hname : s.name with
    | none => exact absurd hname (hnamed.mpr hvoid)
    | some name => simp [resultName, hs, hname]

/-- A well-formed function is written as it is. -/
theorem asWritten_eq : f.asWritten = f := by
  have hslots : f.slots.mapIdx f.slotAsWritten = f.slots := by
    refine List.ext_getElem? fun id => ?_
    rw [List.getElem?_mapIdx]
    cases hs : f.slots[id]? with
    | none => rfl
    | some s =>
        have hi := (h.admits s (List.mem_of_getElem? hs)).asWritten_eq
        rw [Option.map_some, slotAsWritten, h.writtenName_eq hs, hi]
  rw [Function.asWritten, hslots]

/-- The printed results of a well-formed function are its names. -/
theorem resultNames_eq : f.resultNames = f.slots.filterMap (·.name) := by
  have hname : ∀ id, (f.instruction? id).bind (f.writtenName id) =
      (f.slots[id]?).bind (·.name) := by
    intro id
    cases hs : f.slots[id]? with
    | none => simp [instruction?, hs]
    | some s => simp [instruction?, hs, h.writtenName_eq hs]
  simp only [Function.resultNames, hname]
  rw [← List.filterMap_filterMap, filterMap_range_getElem?]

/-- A result with a name is one that is written. -/
theorem defines_result {id : InstId} {s : Slot} (hs : f.slots[id]? = some s)
    (hname : s.name ≠ none) : f.Defines (.result id) := by
  have hmem := List.mem_of_getElem? hs
  obtain ⟨name, heq⟩ := Option.ne_none_iff_exists'.mp hname
  have hresult : f.resultName id = name := by simp [resultName, hs, heq]
  refine ⟨⟨s.instruction, by simp [instruction?, hs], (h.named s hmem).mp hname⟩, ?_⟩
  rw [hresult]
  exact h.valueNames name (List.mem_append_right _ (List.mem_filterMap.mpr ⟨s, hmem, heq⟩))

/-- The parameters of a well-formed function have names of their own. -/
theorem defines_param {k : Nat} (hk : k < f.params.length) : f.Defines (.param k) := by
  refine ⟨f.params[k], List.getElem?_eq_getElem hk, h.valueNames _ (List.mem_append_left _ ?_),
    fun later q hlater hq heq => ?_⟩
  · exact List.mem_map_of_mem (List.getElem_mem hk)
  · obtain ⟨hlt, rfl⟩ := List.getElem?_eq_some_iff.mp hq
    have hne := List.pairwise_iff_getElem.mp (List.nodup_append'.mp h.distinct).1 k later
      (by simpa using hk) (by simpa using hlt) hlater
    rw [List.getElem_map, List.getElem_map] at hne
    exact hne heq.symm

/-- What an instruction of a well-formed function says can be written. -/
theorem writes {i : Instruction} (hi : f.Admits i) : f.Writes i where
  operands t ht := by
    rw [hi.asWritten_eq] at ht
    have hmem : t.value ∈ i.operands := by
      rw [← i.map_value_typedOperands]
      exact List.mem_map_of_mem ht
    obtain ⟨hholds, hdata⟩ := hi.read t.value hmem
    obtain ⟨ty, v⟩ := t
    cases v with
    | param k => exact h.defines_param hholds
    | result id =>
        obtain ⟨s, hs, hname⟩ := hholds
        exact h.defines_result hs hname
    | const value => exact hi.const _ ht value rfl
    | global name => exact hholds
    | function name => cases hdata
  callee v hv := by
    obtain ⟨hholds, hcallable⟩ := hi.called v hv
    cases v with
    | function name => exact hholds
    | param k => exact h.defines_param hholds
    | result id =>
        obtain ⟨s, hs, hname⟩ := hholds
        exact h.defines_result hs hname
    | const value | global name => cases hcallable
  refs := hi.refs
  armed ty heq := hi.armed (by rw [heq]; rfl) (by rw [heq]; rfl)
  returned t heq := hi.returned t (by rw [heq]; rfl)

/-- The instructions of a well-formed function stand in program order. -/
theorem placed : f.Placed := by
  have hnodup : (f.blocks.flatMap (·.insts)).Nodup := by
    rw [show f.blocks.flatMap (·.insts) = f.live from rfl, h.live_eq]
    exact List.nodup_range
  refine ⟨fun b => ?_, fun {b id} hid => ?_⟩
  · cases hb : f.blocks[b]? with
    | none => simp [body, hb]
    | some k =>
        rw [body_eq_of_getElem? hb]
        exact (List.nodup_flatMap.mp hnodup).1 k (List.mem_of_getElem? hb)
  · have hb := List.getElem?_eq_getElem (lt_length_of_mem_body hid)
    rw [body_eq_of_getElem? hb] at hid
    exact h.home (_, b) (List.mem_zipIdx_iff_getElem?.mpr hb) id hid

/-- A well-formed function is printable. -/
theorem printable : f.Printable where
  nonempty := h.nonempty
  live_eq := h.live_eq
  placed := h.placed
  filled := h.filled
  leaves k hk id hid i hi := (h.ends k hk id (List.mem_of_getLast? hid) i hi).mpr hid
  name := h.name
  paramNames p hp := h.valueNames p.name (List.mem_append_left _ (List.mem_map_of_mem hp))
  labels k hk := h.labels k.name (List.mem_map_of_mem hk)
  resultNames name hname := by
    rw [h.resultNames_eq] at hname
    exact h.valueNames name (List.mem_append_right _ hname)
  distinct := by
    rw [h.resultNames_eq]
    exact (List.nodup_append'.mp h.distinct).2.1
  fresh name hname hmem := by
    rw [h.resultNames_eq] at hname
    exact (List.nodup_append'.mp h.distinct).2.2 hmem hname
  distinctLabels := h.distinctLabels
  reserved k hk heq := by
    refine h.reserved ?_
    rw [Function.labels, ← List.map_tail, ← heq]
    exact List.mem_map_of_mem hk
  writes {id i} hi := by
    rw [instruction?, Option.map_eq_some_iff] at hi
    obtain ⟨s, hs, rfl⟩ := hi
    exact h.writes (h.admits s (List.mem_of_getElem? hs))

end WellFormed

end Function

namespace Module

/-- A module whose functions can be written is read back as it is written. -/
theorem read_text_of_printable {m : Module} (h : ∀ f ∈ m.functions, f.Printable) :
    read m.text = .ok { functions := m.functions.map (·.asWritten) } := by
  have htext : Spells ((m.functions.map (·.tree)).foldr FunctionText.pieces []) m.text.toList := by
    have hlines := Spells.newlines (g := fun f n => f.tree.pieces n) (w := Function.text)
      (l := m.functions) (fun f hf _ _ hn => (h f hf).spells_text hn) (.nil (s := []) rfl)
    rw [List.append_nil] at hlines
    rwa [List.foldr_map]
  have hclean : ∀ t ∈ m.functions.map (·.tree), t.Clean := by
    intro t ht
    obtain ⟨f, hf, rfl⟩ := List.mem_map.mp ht
    exact (h f hf).clean_tree
  have hbind : (m.functions.map (·.tree)).mapM (·.bind) = .ok (m.functions.map (·.asWritten)) :=
    mapM_map_eq_ok fun f hf => (h f hf).bind_tree
  simp only [read, functions?_of_spells hclean htext, hbind]

/-- A well-formed module is read back from its written form. -/
theorem read_text {m : Module} (h : ∀ f ∈ m.functions, f.WellFormed) : read m.text = .ok m := by
  rw [read_text_of_printable fun f hf => (h f hf).printable]
  have hwritten : m.functions.map (·.asWritten) = m.functions :=
    (List.map_congr_left fun f hf => (h f hf).asWritten_eq).trans (List.map_id _)
  rw [hwritten]

end Module

/-- A table walk with quoted names, nested types, a phi that reads a later result and a call. -/
def tableWalk : Function where
  name := "walk on"
  ret := .int 32
  params := [⟨"table", .pointer (.array 4 (.pointer (.vector 2 (.int 8))))⟩, ⟨"count", .int 32⟩]
  blocks := [⟨"entry", [0]⟩, ⟨"next one", [1, 2, 3, 4, 5, 6]⟩, ⟨"done", [7]⟩]
  slots := [
    ⟨none, .jump 1, 0⟩,
    ⟨some "i", .phi (.int 32) [⟨.const ⟨.int 32, "0"⟩, 0⟩, ⟨.result 3, 1⟩], 1⟩,
    ⟨some "cell", .elementPtr (.array 4 (.pointer (.vector 2 (.int 8))))
      ⟨.pointer (.array 4 (.pointer (.vector 2 (.int 8)))), .param 0⟩
      [⟨.int 32, .const ⟨.int 32, "0"⟩⟩, ⟨.int 32, .result 1⟩], 1⟩,
    ⟨some "step", .binary .add (.int 32) (.result 1) (.const ⟨.int 32, "1"⟩), 1⟩,
    ⟨none, .call .void (.function "note") [⟨.int 32, .result 3⟩, ⟨.ptr, .global "log.txt"⟩], 1⟩,
    ⟨some "more", .compare (.int .ult) (.int 32) (.result 3) (.param 1), 1⟩,
    ⟨none, .branch (.result 5) 1 2, 1⟩,
    ⟨none, .ret (some ⟨.int 32, .result 3⟩), 2⟩]

/-- A walk over a table of pointers is read back from its text. -/
theorem read_text_tableWalk : (∀ f ∈ [tableWalk], f.WellFormed) ∧
    Module.read (Module.mk [tableWalk]).text = .ok ⟨[tableWalk]⟩ := by
  have hwell : ∀ f ∈ [tableWalk], f.WellFormed := by
    intro f hf
    rw [List.mem_singleton.mp hf]
    exact ⟨by decide, by decide, by decide, by decide, by decide, by decide, by decide, by decide,
      by decide, by decide, by decide, by decide, by decide⟩
  exact ⟨hwell, Module.read_text hwell⟩

end Dataflow
