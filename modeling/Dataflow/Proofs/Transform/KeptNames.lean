import Dataflow.Proofs.Ssa.FreshNames
import Dataflow.Proofs.Transform.Edits

/-!
# Transformations keep names unambiguous

`Slot.Becomes` says what may become of one instruction with its name, and `Function.NamesOver` what
an edit may do to the names of a function: no name is lost, a store that becomes a call has a name
afterwards, and names that are apart stay apart. Each edit of merging and threading obeys it, a new
name because it is a fresh one, and so does any sequence of them (`NamesOver.of_edited`).
`NamesOver.keepsNames` says what that means for the instructions that are in the program at the end.
-/

namespace Dataflow

open MemoryToken

namespace Instruction

/-- The type of the value that an instruction writes to memory. -/
def storedTy? : Instruction → Option Ty
  | store value _ => some value.ty
  | _ => none

variable {i : Instruction}

@[simp] theorem storedTy?_mapOperands (g : Operand → Operand) :
    (i.mapOperands g).storedTy? = i.storedTy? := by
  cases i <;> rfl

@[simp] theorem storedTy?_mapBlocks (g : BlockId → BlockId) :
    (i.mapBlocks g).storedTy? = i.storedTy? := by
  cases i <;> rfl

/-- A store is an instruction that writes a value of some type to memory. -/
theorem isStore_eq : i.isStore = i.storedTy?.isSome := by
  cases i <;> rfl

/-- A call names a callee, a store does not. -/
theorem storedTy?_of_callee? {c : Operand} (h : i.callee? = some c) : i.storedTy? = none := by
  cases i with
  | call => rfl
  | _ => cases h

end Instruction

/-- What may become of an instruction with its name. -/
inductive Slot.Becomes (s t : Slot) : Prop where
  /-- It keeps the name. A store writes what it wrote, a call calls what it called. -/
  | kept (name : t.name = s.name) (stored : t.instruction.storedTy? = s.instruction.storedTy?)
      (callee : ∀ c, s.instruction.callee? = some c → t.instruction.callee? = some c)
  /-- It was a store, and is the call in its place, with a name. -/
  | replaced (ty : Ty) (stored : s.instruction.storedTy? = some ty)
      (callee : t.instruction.callee? = some (.function s!"{storeCallee}.{ty.text}"))
      (named : t.name.isSome)

namespace Slot.Becomes

variable {s t u : Slot}

theorem refl (s : Slot) : s.Becomes s := .kept rfl rfl fun _ h => h

/-- What becomes of an instruction may come about in steps. -/
theorem trans (h : s.Becomes t) (h' : t.Becomes u) : s.Becomes u := by
  cases h with
  | kept name stored callee =>
      cases h' with
      | kept name' stored' callee' =>
          exact .kept (name'.trans name) (stored'.trans stored) fun c hc => callee' c (callee c hc)
      | replaced ty stored' callee' named => exact .replaced ty (stored ▸ stored') callee' named
  | replaced ty stored callee named =>
      cases h' with
      | kept name' _ callee' => exact .replaced ty stored (callee' _ callee) (name'.symm ▸ named)
      | replaced ty' stored' =>
          -- what calls something stores nothing
          rw [Instruction.storedTy?_of_callee? callee] at stored'
          cases stored'

/-- A name is never lost. -/
theorem named (h : s.Becomes t) (hs : s.name.isSome) : t.name.isSome := by
  cases h with
  | kept name => rwa [name]
  | replaced _ _ _ named => exact named

end Slot.Becomes

namespace Function

variable {f g k : Function} {b : BlockId} {x y : InstId} {s t : Slot} {i : Instruction}

/-- What edits of `f` that made `g` did to its names. -/
structure NamesOver (f g : Function) : Prop where
  params : g.params = f.params
  old : ∀ {x : InstId} {s : Slot}, f.slots[x]? = some s →
    ∃ t : Slot, g.slots[x]? = some t ∧ s.Becomes t
  made : ∀ {x : InstId} {t : Slot}, g.slots[x]? = some t → f.slots.length ≤ x → t.name.isSome
  distinct : f.takenNames.Nodup → g.takenNames.Nodup

theorem slots_setInstruction_self (hs : f.slots[x]? = some s) :
    (f.setInstruction x i).slots[x]? = some { s with instruction := i } := by
  simp [setInstruction, hs]

theorem slots_setName_self {name : Option String} (hs : f.slots[x]? = some s) :
    (f.setName x name).slots[x]? = some { s with name } := by
  simp [setName, hs]

/-- A changed instruction takes no name. -/
theorem takenNames_setInstruction : (f.setInstruction x i).takenNames = f.takenNames := by
  refine takenNames_congr rfl (List.ext_getElem? fun y => ?_)
  rw [List.getElem?_map, List.getElem?_map]
  by_cases hy : y = x
  · subst hy
    cases hs : f.slots[y]? with
    | none => simp [setInstruction, hs]
    | some s => rw [slots_setInstruction_self hs]; rfl
  · rw [slots_setInstruction_of_ne hy]

namespace NamesOver

/-- What edits did to the names adds up. -/
theorem trans (h : f.NamesOver g) (h' : g.NamesOver k) : f.NamesOver k where
  params := h'.params.trans h.params
  old hs := by
    obtain ⟨t, ht, hst⟩ := h.old hs
    obtain ⟨u, hu, htu⟩ := h'.old ht
    exact ⟨u, hu, hst.trans htu⟩
  made {x u} hu hx := by
    by_cases hlt : x < g.slots.length
    · obtain ⟨u', hu', htu⟩ := h'.old (List.getElem?_eq_getElem hlt)
      rw [hu] at hu'
      cases hu'
      exact htu.named (h.made (List.getElem?_eq_getElem hlt) hx)
    · exact h'.made hu (Nat.le_of_not_lt hlt)
  distinct hnodup := h'.distinct (h.distinct hnodup)

/-- An edit that goes through the slots and keeps their names. -/
theorem of_slots {φ : InstId → Slot → Slot} (hparams : g.params = f.params)
    (hslots : ∀ x, g.slots[x]? = (f.slots[x]?).map (φ x))
    (hname : ∀ x s, (φ x s).name = s.name)
    (hstored : ∀ x s, (φ x s).instruction.storedTy? = s.instruction.storedTy?)
    (hcallee : ∀ x s, (φ x s).instruction.callee? = s.instruction.callee?) : f.NamesOver g where
  params := hparams
  old {x s} hs := by
    refine ⟨φ x s, by rw [hslots, hs, Option.map_some], .kept (hname x s) (hstored x s) ?_⟩
    intro c hc
    rwa [hcallee]
  made {x t} ht hx := by
    rw [hslots, List.getElem?_eq_none hx] at ht
    cases ht
  distinct hnodup := by
    rwa [takenNames_congr hparams]
    refine List.ext_getElem? fun x => ?_
    rw [List.getElem?_map, List.getElem?_map, hslots, Option.map_map]
    congr 1
    exact funext (hname x)

theorem refl (f : Function) : f.NamesOver f :=
  of_slots (φ := fun _ s => s) rfl (fun _ => by simp) (fun _ _ => rfl) (fun _ _ => rfl)
    fun _ _ => rfl

/-! ### The edits of a merge -/

theorem detach (f : Function) (x : InstId) : f.NamesOver (f.detach x) :=
  of_slots (φ := fun _ s => s) (by unfold Function.detach; split <;> rfl) (fun _ => by simp)
    (fun _ _ => rfl) (fun _ _ => rfl) fun _ _ => rfl

/-- Changing instructions in place keeps their names, if stores stay stores and calls keep their
callee. -/
theorem mapLive (f : Function) {φ : Instruction → Instruction}
    (hstored : ∀ i, (φ i).storedTy? = i.storedTy?) (hcallee : ∀ i, (φ i).callee? = i.callee?) :
    f.NamesOver (f.mapLive φ) := by
  refine of_slots rfl (fun x => slots_mapLive φ) (fun x s => ?_) (fun x s => ?_) fun x s => ?_
  · split <;> rfl
  · split
    · exact hstored _
    · rfl
  · split
    · exact hcallee _
    · rfl

/-- Neither does moving instructions from block to block. -/
theorem splice (f : Function) (source target : BlockId) : f.NamesOver (f.splice source target) := by
  refine of_slots rfl (fun x => slots_splice) (fun x s => ?_) (fun x s => ?_) fun x s => ?_ <;>
    split <;> rfl

/-- Neither does removing a block. -/
theorem removeBlock (f : Function) (b : BlockId) : f.NamesOver (f.removeBlock b) :=
  of_slots rfl (fun _ => slots_removeBlock) (fun _ _ => rfl) (fun _ _ => by simp)
    fun _ _ => by simp

/-! ### The edits of threading -/

/-- A new instruction with a fresh name. -/
theorem insert_fresh (f : Function) (b : BlockId) (position : Nat) (base : String)
    (i : Instruction) : f.NamesOver (f.insert b position (some (f.freshName base)) i) where
  params := rfl
  old {x s} hs := by
    refine ⟨s, ?_, .refl s⟩
    rwa [slots_insert, List.getElem?_append_left (List.getElem?_eq_some_iff.mp hs).1]
  made {x t} ht hx := by
    rw [slots_insert, List.getElem?_append_right hx] at ht
    rw [List.mem_singleton.mp (List.mem_of_getElem? ht)]
    rfl
  distinct hnodup := nodup_takenNames_insert hnodup (f.freshName_not_taken base) position i

/-- An edit of one instruction. -/
theorem of_slot (hparams : g.params = f.params) (hsize : g.slots.length = f.slots.length)
    (hother : ∀ y, y ≠ x → g.slots[y]? = f.slots[y]?) (hs : f.slots[x]? = some s)
    (ht : g.slots[x]? = some t) (hbecomes : s.Becomes t)
    (hdistinct : f.takenNames.Nodup → g.takenNames.Nodup) : f.NamesOver g where
  params := hparams
  old {y s'} hs' := by
    by_cases hy : y = x
    · subst hy
      rw [hs] at hs'
      cases hs'
      exact ⟨t, ht, hbecomes⟩
    · exact ⟨s', (hother y hy).trans hs', .refl s'⟩
  made {y t'} ht' hy := by
    rw [List.getElem?_eq_none (hsize ▸ hy)] at ht'
    cases ht'
  distinct := hdistinct

/-- A step names the store it makes a call of, by a name that is free. -/
theorem step (s : State) (x : InstId) : s.function.NamesOver (s.step x).function := by
  unfold State.step
  split
  · rename_i ty address hi
    obtain ⟨old, hold, hinst⟩ := Option.map_eq_some_iff.mp hi
    refine of_slot rfl (size_setInstruction _) (fun y hy => slots_setInstruction_of_ne hy) hold
      (slots_setInstruction_self hold) (.kept rfl ?_ fun c hc => ?_) fun hnodup => ?_
    · rw [hinst]
      rfl
    · rw [hinst] at hc
      cases hc
    · rwa [takenNames_setInstruction]
  · rename_i value address hi
    obtain ⟨old, hold, hinst⟩ := Option.map_eq_some_iff.mp hi
    refine of_slot rfl ((size_setInstruction _).trans (size_setName _))
      (fun y hy => (slots_setInstruction_of_ne hy).trans (slots_setName_of_ne hy)) hold
      (slots_setInstruction_self (slots_setName_self hold)) (.replaced value.ty ?_ rfl rfl)
      fun hnodup => ?_
    · rw [hinst]
      rfl
    · rw [takenNames_setInstruction]
      exact nodup_takenNames_setName hnodup (s.function.freshName_not_taken _)
  · exact refl _

/-- Giving a new instruction another meaning. -/
theorem setNew (h : f.NamesOver g) (hx : f.slots.length ≤ x) (i : Instruction) :
    f.NamesOver (g.setInstruction x i) where
  params := h.params
  old {y s} hs := by
    obtain ⟨t, ht, hst⟩ := h.old hs
    have hy : y ≠ x := fun heq => by
      rw [heq, List.getElem?_eq_none hx] at hs
      cases hs
    exact ⟨t, by rw [slots_setInstruction_of_ne hy, ht], hst⟩
  made {y t} ht hy := by
    have hlt := (List.getElem?_eq_some_iff.mp ht).1
    rw [size_setInstruction] at hlt
    have hold := List.getElem?_eq_getElem hlt
    have hnamed := h.made hold hy
    by_cases hyx : y = x
    · subst hyx
      rw [slots_setInstruction_self hold] at ht
      cases ht
      exact hnamed
    · rw [slots_setInstruction_of_ne hyx, hold] at ht
      cases ht
      exact hnamed
  distinct hnodup := by
    rw [takenNames_setInstruction]
    exact h.distinct hnodup

/-- One case for each edit. -/
theorem of_edited (h : f.Edited g) : f.NamesOver g := by
  induction h with
  | refl => exact refl f
  | detach x _ ih => exact ih.trans (detach _ x)
  | replace _ _ ih | redirect _ _ _ ih =>
      exact ih.trans (mapLive _ (fun _ => by simp) fun _ => by simp)
  | splice source target _ ih => exact ih.trans (splice _ source target)
  | removeBlock b _ ih => exact ih.trans (removeBlock _ b)
  | addTokenPhi b _ ih => exact ih.trans (insert_fresh _ b 0 "lso.token.phi" _)
  | step x _ _ ih => exact ih.trans (step _ x)
  | fill _ hx _ ih => exact ih.setNew hx _

/-- Transformations name what they name afresh, and leave the other names alone. -/
theorem transforms (f : Function) (runs : List TransformOptions) :
    f.NamesOver (f.transforms runs) := of_edited (.transforms f runs)

end NamesOver

/-- The names in `g`, which came from `f`, are unambiguous, and no instruction lost its name. -/
structure KeepsNames (f g : Function) : Prop where
  /-- Two parameters have two names. -/
  params : (g.params.map (·.name)).Nodup
  /-- No result in the program has the name of a parameter. -/
  apart : ∀ x ∈ g.live, ∀ name, g.resultName? x = some name → name ∉ g.params.map (·.name)
  /-- Two results in the program have two names. -/
  results : ∀ x ∈ g.live, ∀ y ∈ g.live, ∀ name, g.resultName? x = some name →
    g.resultName? y = some name → x = y
  /-- A store that is none any more is the call in its place, with a name. -/
  stores : ∀ x value address, f.instruction? x = some (.store value address) →
    g.storesAt x = false → (g.resultName? x).isSome ∧
      (g.instruction? x).bind (·.callee?) = some (.function s!"{storeCallee}.{value.ty.text}")
  /-- An instruction that was no store has the name it had, or none if it had none. -/
  same : ∀ x, x < f.slots.length → f.storesAt x = false → g.resultName? x = f.resultName? x
  /-- An instruction that had a name has one. -/
  named : ∀ x, (f.resultName? x).isSome → (g.resultName? x).isSome
  /-- A new instruction has a name. -/
  made : ∀ x, f.slots.length ≤ x → x < g.slots.length → (g.resultName? x).isSome

/-- Names that were unambiguous stay so. -/
theorem NamesOver.keepsNames (h : f.NamesOver g) (hnodup : f.takenNames.Nodup) :
    f.KeepsNames g := by
  obtain ⟨hparams, hapart, hresults⟩ := nodup_takenNames_iff.mp (h.distinct hnodup)
  refine ⟨hparams, fun x _ => hapart x, fun x _ y _ => hresults x y,
    fun x value address hi hgone => ?_, fun x hx hstore => ?_, fun x hnamed => ?_,
    fun x hx hlt => ?_⟩
  · obtain ⟨s, hs, hinst⟩ := Option.map_eq_some_iff.mp hi
    obtain ⟨t, ht, hst⟩ := h.old hs
    cases hst with
    | kept _ stored _ =>
        -- it would still be a store
        rw [storesAt, instruction?, ht, Option.map_some, Option.any_some, Instruction.isStore_eq,
          stored, hinst] at hgone
        cases hgone
    | replaced ty stored callee named =>
        rw [hinst] at stored
        cases stored
        exact ⟨by rwa [resultName?, ht], by rw [instruction?, ht]; exact callee⟩
  · have hs := List.getElem?_eq_getElem hx
    obtain ⟨t, ht, hst⟩ := h.old hs
    cases hst with
    | kept name => rw [resultName?, resultName?, ht, hs, Option.bind_some, Option.bind_some, name]
    | replaced ty stored =>
        rw [storesAt, instruction?, hs, Option.map_some, Option.any_some, Instruction.isStore_eq,
          stored] at hstore
        cases hstore
  · obtain ⟨name, hname⟩ := Option.isSome_iff_exists.mp hnamed
    obtain ⟨s, hs, hsname⟩ := Option.bind_eq_some_iff.mp hname
    obtain ⟨t, ht, hst⟩ := h.old hs
    rw [resultName?, ht]
    exact hst.named (by rw [hsname]; rfl)
  · have ht := List.getElem?_eq_getElem hlt
    rw [resultName?, ht]
    exact h.made ht hx

/-- A fresh name is the base itself if nothing bears it, and otherwise the base with the least
positive number that makes it free, which there always is. Where the names of parameters and
instructions are apart, any sequence of transformations leaves them so and takes no name away. -/
theorem freshName_and_keepsNames_transforms (f : Function) :
    (∀ base, (base ∉ f.takenNames → f.freshName base = base) ∧
      (base ∈ f.takenNames → ∃ n, 1 ≤ n ∧ f.freshName base = base ++ toString n ∧
        base ++ toString n ∉ f.takenNames ∧
        ∀ k, 1 ≤ k → k < n → base ++ toString k ∈ f.takenNames)) ∧
    (f.takenNames.Nodup → ∀ runs, f.KeepsNames (f.transforms runs)) :=
  ⟨fun _ => ⟨freshName_of_free, freshName_of_taken⟩,
    fun hnodup runs => (NamesOver.transforms f runs).keepsNames hnodup⟩

end Function

/-- A loop with a store that has a name, a store that has none, and a parameter with a name that a
store would get. -/
def namedStores : Function where
  name := "f"
  ret := .int 32
  params := [⟨"p", .ptr⟩, ⟨"lso.tok", .int 32⟩]
  blocks := [⟨"entry", [0, 1]⟩, ⟨"loop", [2, 3, 4]⟩, ⟨"body", [5, 6]⟩, ⟨"out", [7]⟩]
  slots := [
    ⟨some "s", .store ⟨.int 32, .param 1⟩ ⟨.ptr, .param 0⟩, 0⟩,
    ⟨none, .jump 1, 0⟩,
    ⟨none, .store ⟨.int 32, .const ⟨.int 32, "1"⟩⟩ ⟨.ptr, .param 0⟩, 1⟩,
    ⟨some "c", .call .bool (.function "g") [], 1⟩,
    ⟨none, .branch (.result 3) 1 2, 1⟩,
    ⟨some "v", .load (.int 32) ⟨.ptr, .param 0⟩, 2⟩,
    ⟨none, .jump 3, 2⟩,
    ⟨none, .ret (some ⟨.int 32, .result 5⟩), 3⟩]

/-- Threading, and then merging and threading again. -/
theorem keepsNames_namedStores : namedStores.takenNames.Nodup ∧
    namedStores.KeepsNames (namedStores.transforms [⟨false, true⟩, ⟨true, true⟩]) := by
  have hnodup : namedStores.takenNames.Nodup := by decide
  exact ⟨hnodup, (Function.freshName_and_keepsNames_transforms namedStores).2 hnodup _⟩

end Dataflow
