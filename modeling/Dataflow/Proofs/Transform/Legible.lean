import Dataflow.Proofs.Text.Marks
import Dataflow.Proofs.Ssa.FreshNames
import Dataflow.Proofs.Transform.Edits

/-!
# Transformations keep functions legible

No transformation brings a double quote into a name or a literal that the grammar does not have: the
names and callees that threading makes are words with a number or a type behind them, and every
other operand was in the function before. So the text of a transformed function shows its shape
(`Function.Legible.transform`).
-/

namespace Dataflow

open Lexeme MemoryToken

/-! ## Names that threading makes -/

/-- Whether a name has quotes is decided by its characters. -/
instance (name : String) : Decidable (Unquoted name) := inferInstanceAs (Decidable (_ ∉ _))

/-- Names without quotes make names without quotes. -/
theorem unquoted_append {s t : String} (hs : Unquoted s) (ht : Unquoted t) : Unquoted (s ++ t) := by
  rw [Unquoted, String.toList_append, List.mem_append, not_or]
  exact ⟨hs, ht⟩

/-- The written form of a type has no double quote. -/
theorem unquoted_ty (ty : Ty) : Unquoted ty.text := by
  induction ty with
  | int bits => exact unquoted_append (by decide) (Surface.unquoted_toString bits.toNat)
  | pointer target ih => exact unquoted_append ih (by decide)
  | array length element ih | vector length element ih =>
      have hlength : Unquoted (toString length) := Surface.unquoted_toString length.toNat
      exact unquoted_append (unquoted_append (unquoted_append (unquoted_append (by decide) hlength)
        (by decide)) ih) (by decide)
  | _ => decide

/-- A fresh name is the base with a number behind it, if any. -/
theorem unquoted_freshName {f : Function} {base : String} (h : Unquoted base) :
    Unquoted (f.freshName base) := by
  by_cases hfree : base ∉ f.takenNames
  · rwa [Function.freshName_of_free hfree]
  · obtain ⟨n, _, hn, _⟩ := Function.freshName_of_taken (not_not.mp hfree)
    rw [hn]
    exact unquoted_append h (Surface.unquoted_toString n)

/-- A token can be read. -/
theorem Operand.Legible.of_isToken {v : Operand} (h : IsToken v) : v.Legible := by
  rcases h with rfl | ⟨x, rfl⟩
  · exact (by decide : IsLiteral "true")
  · trivial

/-! ## Edits -/

namespace Slot.Legible

variable {s : Slot}

/-- Exchanging operands for legible ones keeps an instruction legible. -/
theorem mapOperands (h : s.Legible) {g : Operand → Operand}
    (hg : ∀ v, v.Legible → (g v).Legible) :
    Slot.Legible { s with instruction := s.instruction.mapOperands g } where
  name := h.name
  operands v hv := by
    rw [Instruction.uses, Instruction.operands_mapOperands, Instruction.callee?_mapOperands] at hv
    rcases List.mem_append.mp hv with hv | hv
    · obtain ⟨w, hw, rfl⟩ := List.mem_map.mp hv
      exact hg w (h.operands w (List.mem_append_left _ hw))
    · exact h.operands v (List.mem_append_right _ hv)

/-- Exchanging blocks keeps an instruction legible. -/
theorem mapBlocks (h : s.Legible) (k : BlockId → BlockId) (b : BlockId) :
    Slot.Legible { s with block := b, instruction := s.instruction.mapBlocks k } where
  name := h.name
  operands v hv := by
    rw [Instruction.uses, Instruction.operands_mapBlocks, Instruction.callee?_mapBlocks] at hv
    exact h.operands v hv

end Slot.Legible

namespace Function

variable {f g : Function} {b : BlockId} {x : InstId} {i : Instruction}

namespace Legible

/-- An edit that goes through the slots. -/
theorem of_slots (h : f.Legible) {φ : InstId → Slot → Slot} (hname : g.name = f.name)
    (hparams : g.params = f.params) (hlabels : ∀ label ∈ g.labels, label ∈ f.labels)
    (hslots : ∀ x, g.slots[x]? = (f.slots[x]?).map (φ x))
    (hφ : ∀ x s, s.Legible → (φ x s).Legible) : g.Legible where
  name := hname ▸ h.name
  params := hparams ▸ h.params
  labels label hlabel := h.labels label (hlabels label hlabel)
  slots {x t} ht := by
    rw [hslots, Option.map_eq_some_iff] at ht
    obtain ⟨s, hs, rfl⟩ := ht
    exact hφ x s (h.slots hs)

/-- Detaching an instruction keeps a function legible. -/
theorem detach (h : f.Legible) (x : InstId) : (f.detach x).Legible := by
  refine h.of_slots (φ := fun _ s => s) ?_ ?_ (by simp) (by simp) fun _ _ hs => hs
  all_goals
    unfold Function.detach
    split <;> rfl

/-- So does changing instructions into legible ones. -/
theorem mapLive (h : f.Legible) {φ : Instruction → Instruction}
    (hφ : ∀ s : Slot, s.Legible → Slot.Legible { s with instruction := φ s.instruction }) :
    (f.mapLive φ).Legible := by
  refine h.of_slots rfl rfl (by simp) (fun x => slots_mapLive φ) fun x s hs => ?_
  split
  · exact hφ s hs
  · exact hs

theorem splice (h : f.Legible) (source target : BlockId) : (f.splice source target).Legible := by
  refine h.of_slots rfl rfl (by simp) (fun x => slots_splice) fun x s hs => ?_
  split
  · exact ⟨hs.name, hs.operands⟩
  · exact hs

theorem removeBlock (h : f.Legible) (b : BlockId) : (f.removeBlock b).Legible := by
  refine h.of_slots rfl rfl (fun label hlabel => ?_) (fun x => slots_removeBlock) fun x s hs =>
    hs.mapBlocks _ _
  rw [labels_removeBlock] at hlabel
  exact List.mem_of_mem_eraseIdx hlabel

/-- Folding a phi keeps a function legible: the value that takes its place was legible. -/
theorem replace (h : f.Legible) {ty : Ty} {arm : Arm} {arms : List Arm}
    (hi : f.instruction? x = some (.phi ty (arm :: arms))) :
    (f.replaceUses (.result x) arm.value).Legible := by
  obtain ⟨s, hs, hinst⟩ := Option.map_eq_some_iff.mp hi
  have harm : arm.value.Legible :=
    (h.slots hs).operands _ (by simp [hinst, Instruction.uses, Instruction.operands])
  refine h.mapLive fun s hs => hs.mapOperands fun v hv => ?_
  split
  · exact harm
  · exact hv

/-- So does a new instruction with a legible name and legible operands. -/
theorem insert (h : f.Legible) {name : String} (hname : Unquoted name) (b : BlockId)
    (position : Nat) (hi : ∀ v ∈ i.uses, v.Legible) :
    (f.insert b position (some name) i).Legible where
  name := h.name
  params := h.params
  labels := by
    rw [labels_insert]
    exact h.labels
  slots {x s} hs := by
    rcases List.mem_append.mp (List.mem_of_getElem? hs) with hs | hs
    · obtain ⟨y, hy⟩ := List.mem_iff_getElem?.mp hs
      exact h.slots hy
    · rw [List.mem_singleton.mp hs]
      exact ⟨fun n hn => by cases hn; exact hname, hi⟩

theorem setInstruction (h : f.Legible) (x : InstId) (hi : ∀ v ∈ i.uses, v.Legible) :
    (f.setInstruction x i).Legible := by
  refine h.of_slots (φ := fun y s => if x = y then { s with instruction := i } else s) rfl rfl
    (by simp) (fun y => List.getElem?_modify ..) fun y s hs => ?_
  split
  · exact ⟨hs.name, hi⟩
  · exact hs

theorem setName (h : f.Legible) (x : InstId) {name : String} (hname : Unquoted name) :
    (f.setName x (some name)).Legible := by
  refine h.of_slots (φ := fun y s => if x = y then { s with name := some name } else s) rfl rfl
    (by simp) (fun y => List.getElem?_modify ..) fun y s hs => ?_
  split
  · exact ⟨fun n hn => by cases hn; exact hname, hs.operands⟩
  · exact hs

/-- A step of threading memory keeps a function legible. -/
theorem step {s : State} (h : s.function.Legible) (htoken : s.token.Legible) (x : InstId) :
    (s.step x).function.Legible := by
  unfold State.step
  split
  · rename_i ty address hi
    obtain ⟨old, hold, hinst⟩ := Option.map_eq_some_iff.mp hi
    have haddress := (h.slots hold).operands address.value
      (by simp [hinst, Instruction.uses, Instruction.operands])
    have hcallee : Unquoted s!"{loadCallee}.{ty.text}" :=
      unquoted_append (by decide) (unquoted_ty ty)
    refine h.setInstruction x ?_
    simpa [Instruction.uses, Instruction.operands, Instruction.callee?] using
      ⟨haddress, htoken, hcallee⟩
  · rename_i value address hi
    obtain ⟨old, hold, hinst⟩ := Option.map_eq_some_iff.mp hi
    have hvalue := (h.slots hold).operands value.value
      (by simp [hinst, Instruction.uses, Instruction.operands])
    have haddress := (h.slots hold).operands address.value
      (by simp [hinst, Instruction.uses, Instruction.operands])
    have hcallee : Unquoted s!"{storeCallee}.{value.ty.text}" :=
      unquoted_append (by decide) (unquoted_ty value.ty)
    refine (h.setName x (unquoted_freshName (by decide))).setInstruction x ?_
    simpa [Instruction.uses, Instruction.operands, Instruction.callee?] using
      ⟨haddress, hvalue, hcallee⟩
  · exact h

/-- One case for each edit. -/
theorem of_edited (h : f.Edited g) (hf : f.Legible) : g.Legible := by
  induction h with
  | refl => exact hf
  | detach x _ ih => exact ih.detach x
  | replace _ hi ih => exact ih.replace hi
  | splice source target _ ih => exact ih.splice source target
  | redirect old new _ ih => exact ih.mapLive fun s hs => hs.mapBlocks _ s.block
  | removeBlock b _ ih => exact ih.removeBlock b
  | addTokenPhi b _ ih =>
      exact ih.insert (unquoted_freshName (by decide)) b 0 fun v hv => absurd hv List.not_mem_nil
  | step x _ htoken ih => exact ih.step (.of_isToken htoken) x
  | fill _ _ harms ih =>
      refine ih.setInstruction _ fun v hv => ?_
      simp only [Instruction.uses, Instruction.operands, Instruction.callee?, Option.toList_none,
        List.append_nil, List.mem_map] at hv
      obtain ⟨a, ha, rfl⟩ := hv
      exact .of_isToken (harms a ha)

/-- So does a transformation. -/
theorem transform (h : f.Legible) (options : TransformOptions) :
    (f.transform options).function.Legible := h.of_edited (.transform f options)

end Legible

end Function

end Dataflow
