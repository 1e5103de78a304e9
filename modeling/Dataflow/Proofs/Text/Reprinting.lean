import Dataflow.Proofs.Text.AsWritten
import Dataflow.Proofs.Text.ReadFunctions
import Dataflow.Proofs.Text.RoundTrip

/-!
# Printing what was read

Whether the text that is printed of a module that was read can be read again. It can, and is printed
the same, where names are not empty, no later label reads as an instruction, and every result that
is used is written with a name of its own (`reprints_of_spellable`). The reader does not promise
these: a name between double quotes may be empty, and an empty name is printed without quotes, so
there are texts whose printed form is no text of the grammar (`not_reprints_emptyName`).
-/

namespace Dataflow

open Lexeme Surface

namespace Instruction

variable (i : Instruction)

/-- What is written of an instruction uses no other results and symbols. -/
theorem mem_operands_of_asWritten {v : Operand} (hv : v ∈ i.asWritten.operands) :
    v ∈ i.operands ∨ ∃ c, v = .const c := by
  have hretype : ∀ (w : Operand) ty, w.retype ty = w ∨ ∃ c, w.retype ty = .const c := by
    intro w ty
    cases w with
    | const c => exact Or.inr ⟨_, rfl⟩
    | _ => exact Or.inl rfl
  have hmember : ∀ {w : Operand} {ty}, w ∈ i.operands → v = w.retype ty →
      v ∈ i.operands ∨ ∃ c, v = .const c := by
    rintro w ty hw rfl
    rcases hretype w ty with heq | hconst
    · exact Or.inl (heq.symm ▸ hw)
    · exact Or.inr hconst
  cases i with
  | select cond ty onTrue onFalse =>
      simp only [asWritten, operands, List.mem_cons, List.not_mem_nil, or_false] at hv
      rcases hv with hv | hv | hv
      · exact hmember (w := cond) (by simp [operands]) hv
      · exact Or.inl (by simp [operands, hv])
      · exact hmember (w := onFalse) (by simp [operands]) hv
  | branch cond onTrue onFalse =>
      exact hmember (w := cond) (by simp [operands]) (List.mem_singleton.mp hv)
  | _ => exact Or.inl hv

/-- The operands of an instruction, the callee included. -/
def uses (i : Instruction) : List Operand := i.operands ++ i.callee?.toList

end Instruction

namespace Function

variable {f : Function} {id : InstId} {i : Instruction}

/-! ## Functions that can be written -/

/-- What a function that was read lacks for its written form to be read again: no name is empty,
no label reads as an instruction, and each result that is used is written with a name of its own. -/
structure Spellable (f : Function) : Prop where
  /-- No name of the function is empty. -/
  named : "" ∉ f.name :: f.params.map (·.name) ++ f.labels ++ f.resultNames
  /-- No global or function that is used has the empty name. -/
  symbols : ∀ s ∈ f.slots, ∀ v ∈ s.instruction.uses, v ≠ .global "" ∧ v ≠ .function ""
  /-- No label but the first is the one word that is an instruction. -/
  reserved : ∀ k ∈ f.blocks.tail, k.name ≠ "unreachable"
  /-- No result of type `void` is used, as its name is not written. -/
  results : ∀ s ∈ f.slots, ∀ v ∈ s.instruction.uses, ∀ id ∈ v.result?,
    ∃ i ∈ f.instruction? id, i.resultTy ≠ .void
  /-- The number of a result without a name is the name of no other result. -/
  distinct : f.resultNames.Nodup
  /-- The number of a result without a name is the name of no parameter. -/
  fresh : ∀ name ∈ f.resultNames, name ∉ f.params.map (·.name)

/-- A name that is not empty and has no quote in it can be written. -/
theorem isName_of_ne {name : String} (hne : name ≠ "") (hquote : Unquoted name) : IsName name :=
  ⟨fun h => hne (String.toList_eq_nil_iff.mp h), hquote⟩

/-- The name of a result of a spelled function has no quote in it. -/
theorem Spelled.resultName (hs : f.Spelled) (id : InstId) : Unquoted (f.resultName id) := by
  rw [Function.resultName]
  cases hname : (f.slots[id]?).bind (·.name) with
  | none => exact unquoted_toString id
  | some name =>
      obtain ⟨s, hslot, hname⟩ := Option.bind_eq_some_iff.mp hname
      exact hs.results s (List.mem_of_getElem? hslot) name hname

namespace Spellable

/-- A name of a spellable function that has no quote in it can be written. -/
theorem isName_of_mem (h : f.Spellable) {name : String}
    (hmem : name ∈ f.name :: f.params.map (·.name) ++ f.labels ++ f.resultNames)
    (hquote : Unquoted name) : IsName name :=
  isName_of_ne (fun heq => h.named (heq ▸ hmem)) hquote

variable (h : f.Spellable) (hs : f.Spelled)

include h hs

/-- So can the name of a parameter. -/
theorem isName_param {p : Param} (hp : p ∈ f.params) : IsName p.name :=
  h.isName_of_mem (List.mem_append_left _ (List.mem_append_left _
    (List.mem_cons_of_mem _ (List.mem_map_of_mem hp)))) (hs.params p hp)

/-- So can the name of a result. -/
theorem isName_result {name : String} (hname : name ∈ f.resultNames) : IsName name := by
  refine h.isName_of_mem (List.mem_append_right _ hname) ?_
  obtain ⟨id, _, hwritten⟩ := List.mem_filterMap.mp hname
  obtain ⟨i, _, hi⟩ := Option.bind_eq_some_iff.mp hwritten
  rw [writtenName] at hi
  split at hi
  · cases hi
  · cases hi
    exact hs.resultName id

/-- A parameter or a result that an instruction uses is written by its name. -/
theorem defines {s : Slot} (hslot : s ∈ f.slots) {v : Operand} (hv : v ∈ s.instruction.uses)
    (hlocal : IsLocal (f.params.map (·.name)) v) : f.Defines v := by
  cases v with
  | param k =>
      obtain ⟨name, hget, hlast⟩ := hlocal
      rw [List.getElem?_map, Option.map_eq_some_iff] at hget
      obtain ⟨p, hp, rfl⟩ := hget
      refine ⟨p, hp, h.isName_param hs (List.mem_of_getElem? hp), fun later q hlater hq heq => ?_⟩
      exact hlast later hlater (by rw [List.getElem?_map, hq, Option.map_some, heq])
  | result id =>
      obtain ⟨i, hi, hty⟩ := h.results s hslot _ hv id rfl
      refine ⟨⟨i, hi, hty⟩, h.isName_result hs (List.mem_filterMap.mpr ⟨id, ?_, ?_⟩)⟩
      · rw [Option.mem_def, instruction?, Option.map_eq_some_iff] at hi
        obtain ⟨t, ht, _⟩ := hi
        exact List.mem_range.mpr (List.getElem?_eq_some_iff.mp ht).1
      · rw [Option.mem_def.mp hi, Option.bind_some, writtenName, if_neg hty]
  | const | global | function => exact hlocal.elim

/-- Every instruction of a spellable function that is bound has a written form. -/
theorem writes (hb : f.Bound) (hi : f.instruction? id = some i) : f.Writes i := by
  have hslot := hi
  rw [instruction?, Option.map_eq_some_iff] at hslot
  obtain ⟨s, hget, rfl⟩ := hslot
  have hmem := List.mem_of_getElem? hget
  refine ⟨fun t ht => ?_, fun v hv => ?_, fun c hc => hb.resolved.block hi hc, fun ty heq => ?_,
    fun t heq => ?_⟩
  · have hdata := hs.operands hi t ht
    have huse : t.value ∈ s.instruction.uses ∨ ∃ c, t.value = .const c := by
      have hoperand : t.value ∈ s.instruction.asWritten.operands := by
        rw [← Instruction.map_value_typedOperands]
        exact List.mem_map_of_mem ht
      exact (Instruction.mem_operands_of_asWritten _ hoperand).imp_left (List.mem_append_left _)
    obtain ⟨ty, v⟩ := t
    cases v with
    | const value => exact hdata
    | global name =>
        rcases huse with huse | ⟨c, hc⟩
        · exact isName_of_ne (fun heq => (h.symbols s hmem _ huse).1 (by rw [heq])) hdata
        · cases hc
    | param | result =>
        rcases huse with huse | ⟨c, hc⟩
        · exact h.defines hs hmem huse hdata
        · cases hc
    | function name => exact hdata.elim
  · have hcallee := hs.callee hi v hv
    have huse : v ∈ s.instruction.uses :=
      List.mem_append_right _ (Option.mem_toList.mpr hv)
    cases v with
    | function name =>
        exact isName_of_ne (fun heq => (h.symbols s hmem _ huse).2 (by rw [heq])) hcallee
    | param | result => exact h.defines hs hmem huse hcallee
    | const | global => exact hcallee.elim
  · exact hb.armed (hi.trans (congrArg some heq)) rfl
  · exact hs.returned (hi.trans (congrArg some heq))

/-- A spellable function that is checked is printable. -/
theorem printable (hf : f.Checked) (hpos : f.blocks ≠ []) : f.Printable where
  nonempty := hpos
  live_eq := hf.live_eq
  placed := hf.placed
  filled k hk := by
    obtain ⟨b, hb⟩ := List.mem_iff_getElem?.mp hk
    obtain ⟨t, ht⟩ := hf.shaped.terminated b (List.getElem?_eq_some_iff.mp hb).1
    have hmem := terminator_mem_body ht
    rw [body_eq_of_getElem? hb] at hmem
    exact List.ne_nil_of_mem hmem
  leaves k hk id hid i hi := by
    obtain ⟨b, hb⟩ := List.mem_iff_getElem?.mp hk
    obtain ⟨t, ht⟩ := hf.shaped.terminated b (List.getElem?_eq_some_iff.mp hb).1
    rw [terminator?, body_eq_of_getElem? hb, Option.mem_def.mp hid, Option.filter_some] at ht
    split at ht
    · rename_i hterm
      rwa [Option.mem_def.mp hi] at hterm
    · cases ht
  name := h.isName_of_mem (by simp) hs.name
  paramNames p hp := h.isName_param hs hp
  labels k hk := by
    have hlabel : k.name ∈ f.labels := List.mem_map_of_mem hk
    exact h.isName_of_mem (List.mem_append_left _ (List.mem_append_right _ hlabel))
      (hs.labels _ hlabel)
  resultNames name hname := h.isName_result hs hname
  distinct := h.distinct
  fresh := h.fresh
  distinctLabels := hs.distinctLabels
  reserved := h.reserved
  writes hi := h.writes hs hf.toBound hi

end Spellable

end Function

/-- What is printed of the module of a text is accepted again and printed the same. -/
def Reprints (text : String) : Prop :=
  ∀ m, Module.readChecked text = .ok m → ∃ n, Module.readChecked m.text = .ok n ∧ n.text = m.text

/-- A text whose functions are all spellable is read back from what it prints as. -/
theorem reprints_of_spellable {text : String}
    (h : ∀ m, Module.readChecked text = .ok m → ∀ f ∈ m.functions, f.Spellable) :
    Reprints text := by
  intro m hm
  obtain ⟨hread, hnone⟩ := Module.readChecked_eq_ok.mp hm
  have hprintable : ∀ f ∈ m.functions, f.Printable := fun f hf =>
    (h m hm f hf).printable (Module.read_spelled hread hf) (Module.readChecked_checked hm hf)
      (List.length_pos_iff.mp (Module.read_blocks_pos hread hf))
  refine ⟨⟨m.functions.map (·.asWritten)⟩, Module.readChecked_eq_ok.mpr
    ⟨Module.read_text_of_printable hprintable, ?_⟩, ?_⟩
  · refine List.flatMap_eq_nil_iff.mpr fun g hg => ?_
    obtain ⟨f, hf, rfl⟩ := List.mem_map.mp hg
    exact Function.violations_asWritten (List.flatMap_eq_nil_iff.mp hnone f hf)
  · have htexts : m.functions.map ((·.text) ∘ (·.asWritten)) = m.functions.map (·.text) :=
      List.map_congr_left fun f hf => (hprintable f hf).text_asWritten
    rw [Module.text, Module.text, List.map_map, htexts]

/-- A text whose printed form stands for another module, with a result by its number and constants
of the types that are printed before them. -/
def retypedText : String :=
  "define i32 @f(i32 %a, i32 %a) \x7b\nentry:\n  br i8 1, label %end, label %end\n" ++
    "end:\n  add i32 %a, 1\n  %s = select i8 1, i32 %a, i64 7\n  ret i32 %s\n\x7d\n"

/-- The function of `retypedText`. -/
def retyped : Function where
  name := "f"
  ret := .int 32
  params := [⟨"a", .int 32⟩, ⟨"a", .int 32⟩]
  blocks := [⟨"entry", [0]⟩, ⟨"end", [1, 2, 3]⟩]
  slots := [
    ⟨none, .branch (.const ⟨.int 8, "1"⟩) 1 1, 0⟩,
    ⟨none, .binary .add (.int 32) (.param 1) (.const ⟨.int 32, "1"⟩), 1⟩,
    ⟨some "s", .select (.const ⟨.int 8, "1"⟩) (.int 32) (.param 1) (.const ⟨.int 64, "7"⟩), 1⟩,
    ⟨none, .ret (some ⟨.int 32, .result 2⟩), 1⟩]

/-- A literal may change its type on the way, since it is printed without one. -/
theorem reprints_of_spellable_retyped :
    (∀ m, Module.readChecked retypedText = .ok m → ∀ f ∈ m.functions, f.Spellable) ∧
      Reprints retypedText := by
  have hread : Module.readChecked retypedText = .ok ⟨[retyped]⟩ := by decide +kernel
  have hspell : ∀ m, Module.readChecked retypedText = .ok m → ∀ f ∈ m.functions, f.Spellable := by
    intro m hm f hf
    rw [hread] at hm
    cases hm
    rw [List.mem_singleton.mp hf]
    exact ⟨by decide, by decide, by decide, by decide, by decide, by decide⟩
  exact ⟨hspell, reprints_of_spellable hspell⟩

/-- A function whose parameter has the empty name. -/
def emptyNameText : String :=
  "define i32 @f(i32 %\"\") \x7b\nentry:\n  ret i32 %\"\"\n\x7d\n"

/-- The function of `emptyNameText`. -/
def emptyName : Function where
  name := "f"
  ret := .int 32
  params := [⟨"", .int 32⟩]
  blocks := [⟨"entry", [0]⟩]
  slots := [⟨none, .ret (some ⟨.int 32, .param 0⟩), 0⟩]

/-- A percent sign without a name is no value. -/
theorem not_reprints_emptyName : ¬ Reprints emptyNameText := by
  have hread : Module.readChecked emptyNameText = .ok ⟨[emptyName]⟩ := by decide +kernel
  have hagain : Surface.functions? (Module.mk [emptyName]).text = none := by decide +kernel
  intro h
  obtain ⟨n, hn, _⟩ := h _ hread
  rw [Module.readChecked, Module.read, hagain] at hn
  cases hn

end Dataflow
