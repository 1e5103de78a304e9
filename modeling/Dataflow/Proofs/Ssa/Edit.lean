import Dataflow.Proofs.Ssa.Placement
import Dataflow.Ssa.Edit
import Mathlib.Data.List.InsertIdx

/-!
# What an edit changes and what it leaves alone

For each edit of a function, the bodies of its blocks and its instructions afterwards. Later proofs
about transformations use these equations and do not look into the edits.
-/

namespace Dataflow.Function

variable {f : Function} {b c source target : BlockId} {id x : InstId}

/-! ## Adding -/

/-- A new block is empty and changes no other body. -/
@[simp] theorem body_addBlock (name : String) : (f.addBlock name).body c = f.body c := by
  by_cases hc : c < f.blocks.length
  · simp [addBlock, body, List.getElem?_append_left hc]
  · rcases Nat.eq_or_lt_of_le (Nat.le_of_not_lt hc) with rfl | hlt
    · simp [addBlock, body]
    · have hnone : (f.blocks ++ [{ name, insts := [] }])[c]? = none :=
        List.getElem?_eq_none (by rw [List.length_append]; exact hlt)
      simp [addBlock, body, hnone, Nat.le_of_not_lt hc]

@[simp] theorem slots_addBlock (name : String) : (f.addBlock name).slots = f.slots := rfl

@[simp] theorem params_addBlock (name : String) : (f.addBlock name).params = f.params := rfl

/-- A new block stands behind all others. -/
theorem length_blocks_addBlock (name : String) :
    (f.addBlock name).blocks.length = f.blocks.length + 1 := by
  simp [addBlock]

/-- Only the block that takes the new instruction gets another body. -/
theorem body_insert (hb : b < f.blocks.length) (position : Nat) (name : Option String)
    (i : Instruction) :
    (f.insert b position name i).body c =
      if c = b then (f.body b).insertIdx position f.nextId else f.body c := by
  simp only [insert, body, List.getElem?_modify]
  by_cases hc : b = c
  · subst hc
    simp [List.getElem?_eq_getElem hb]
  · simp [hc, Ne.symm hc]

/-- An instruction is pushed to the end of its own block. -/
theorem body_push (hb : b < f.blocks.length) (name : Option String) (i : Instruction) :
    (f.push b name i).body c = if c = b then f.body b ++ [f.nextId] else f.body c := by
  rw [push, body_insert hb, List.insertIdx_length_self]

/-- Inserting an instruction makes no block. -/
@[simp] theorem length_blocks_insert (position : Nat) (name : Option String) (i : Instruction) :
    (f.insert b position name i).blocks.length = f.blocks.length := by
  simp [insert]

/-- An inserted instruction takes the slot behind all others. -/
@[simp] theorem slots_insert (position : Nat) (name : Option String) (i : Instruction) :
    (f.insert b position name i).slots = f.slots ++ [{ name, instruction := i, block := b }] := rfl

/-- An inserted instruction has the next number, and the others are as before. -/
theorem instruction?_insert (position : Nat) (name : Option String) (i : Instruction) :
    (f.insert b position name i).instruction? x =
      if x = f.nextId then some i else f.instruction? x := by
  simp only [instruction?, slots_insert, nextId]
  rcases Nat.lt_trichotomy x f.slots.length with hlt | rfl | hgt
  · simp [List.getElem?_append_left hlt, Nat.ne_of_lt hlt]
  · simp
  · rw [List.getElem?_eq_none (by rw [List.length_append]; exact hgt)]
    simp [Nat.le_of_lt hgt, Nat.ne_of_gt hgt]

/-! ## Changing instructions -/

/-- Setting an instruction leaves the bodies as they are. -/
@[simp] theorem body_setInstruction (i : Instruction) :
    (f.setInstruction id i).body c = f.body c := rfl

/-- Setting an instruction changes this one alone, if it is there. -/
theorem instruction?_setInstruction (i : Instruction) :
    (f.setInstruction id i).instruction? x =
      if x = id then (f.instruction? x).map fun _ => i else f.instruction? x := by
  simp only [setInstruction, instruction?, List.getElem?_modify]
  by_cases hx : id = x
  · subst hx
    simp [Option.map_map, Function.comp_def]
  · simp [hx, Ne.symm hx]

/-- A name is no part of the instruction. -/
@[simp] theorem instruction?_setName (name : Option String) :
    (f.setName id name).instruction? x = f.instruction? x := by
  simp only [setName, instruction?, List.getElem?_modify]
  cases f.slots[x]? with
  | none => rfl
  | some s => by_cases hx : id = x <;> simp [hx]

/-- Changing live instructions leaves the blocks as they are. -/
@[simp] theorem blocks_mapLive (g : Instruction → Instruction) :
    (f.mapLive g).blocks = f.blocks := rfl

@[simp] theorem body_mapLive (g : Instruction → Instruction) :
    (f.mapLive g).body c = f.body c := rfl

/-- Changing live instructions changes the slots of these alone. -/
theorem slots_mapLive (g : Instruction → Instruction) :
    (f.mapLive g).slots[x]? = (f.slots[x]?).map fun s =>
      if x ∈ f.live then { s with instruction := g s.instruction } else s := by
  simp [mapLive]

/-- Changing live instructions leaves detached ones as they are. -/
theorem instruction?_mapLive (g : Instruction → Instruction) :
    (f.mapLive g).instruction? x =
      if x ∈ f.live then (f.instruction? x).map g else f.instruction? x := by
  simp only [instruction?, slots_mapLive, Option.map_map]
  by_cases hx : x ∈ f.live <;> simp [hx, Function.comp_def]

/-! ## Moving and removing -/

/-- A detached instruction keeps its slot. -/
@[simp] theorem slots_detach : (f.detach id).slots = f.slots := by
  unfold detach
  split <;> rfl

/-- Detaching takes an instruction out of a body and does not change it. -/
@[simp] theorem instruction?_detach : (f.detach id).instruction? x = f.instruction? x := by
  simp [instruction?]

/-- Detaching removes no block. -/
@[simp] theorem length_blocks_detach : (f.detach id).blocks.length = f.blocks.length := by
  unfold detach
  split <;> simp

/-- Detaching takes an instruction out of every body. -/
theorem body_detach (hf : f.Placed) : (f.detach id).body c = (f.body c).filter (· ≠ id) := by
  unfold detach
  split
  · rename_i hnone
    refine (List.filter_eq_self.mpr fun x hx => ?_).symm
    obtain ⟨s, hs, _⟩ := hf.slot hx
    have hne : x ≠ id := fun e => by simp [← e, hs] at hnone
    simp [hne]
  · rename_i slot hslot
    simp only [body, List.getElem?_modify]
    by_cases hc : slot.block = c
    · subst hc
      cases f.blocks[slot.block]? <;> simp
    · have hself : (f.body c).filter (· ≠ id) = f.body c := by
        refine List.filter_eq_self.mpr fun x hx => ?_
        obtain ⟨s, hs, hsb⟩ := hf.slot hx
        have hne : x ≠ id := by
          intro heq
          subst heq
          rw [hslot] at hs
          cases hs
          exact hc hsb
        simp [hne]
      simpa [hc, body] using hself.symm

/-- A block that is spliced away stays, without a body. -/
@[simp] theorem length_blocks_splice :
    (f.splice source target).blocks.length = f.blocks.length := by
  simp [splice]

/-- Splicing moves a body to the end of another one. -/
theorem body_splice (hne : source ≠ target) (htarget : target < f.blocks.length) :
    (f.splice source target).body c =
      if c = target then f.body target ++ f.body source
      else if c = source then [] else f.body c := by
  simp only [splice, body, List.getElem?_modify]
  by_cases ht : target = c
  · subst ht
    simp [hne, List.getElem?_eq_getElem htarget]
  · by_cases hs : source = c
    · subst hs
      cases f.blocks[source]? <;> simp [ht, Ne.symm ht]
    · cases f.blocks[c]? <;> simp [ht, hs, Ne.symm ht, Ne.symm hs]

/-- The instructions of the spliced block belong to the target from then on. -/
theorem slots_splice :
    (f.splice source target).slots[x]? = (f.slots[x]?).map fun s =>
      if x ∈ f.body source then { s with block := target } else s := by
  simp [splice]

/-- Splicing moves instructions and does not change them. -/
@[simp] theorem instruction?_splice :
    (f.splice source target).instruction? x = f.instruction? x := by
  simp only [instruction?, slots_splice, Option.map_map]
  congr 1
  funext s
  by_cases hx : x ∈ f.body source <;> simp [hx]

/-- Removing a block leaves one fewer. -/
theorem length_blocks_removeBlock (hb : b < f.blocks.length) :
    (f.removeBlock b).blocks.length = f.blocks.length - 1 := by
  simp [removeBlock, List.length_eraseIdx, hb]

/-- Removing a block moves the later blocks down by one. -/
theorem body_removeBlock :
    (f.removeBlock b).body c = if c < b then f.body c else f.body (c + 1) := by
  simp only [removeBlock, body, List.getElem?_eraseIdx]
  by_cases hc : c < b <;> simp [hc]

/-- A block other than the removed one keeps its body under its new number. -/
theorem body_removeBlock_shiftPast (hc : c ≠ b) :
    (f.removeBlock b).body (shiftPast b c) = f.body c := by
  rw [body_removeBlock]
  rcases Nat.lt_or_gt_of_ne hc with hlt | hgt
  · rw [shiftPast, if_neg (Nat.lt_asymm hlt), if_pos hlt]
  · have hpos : c - 1 + 1 = c := Nat.succ_pred_eq_of_pos (Nat.lt_of_le_of_lt (Nat.zero_le b) hgt)
    rw [shiftPast, if_pos hgt, if_neg (Nat.not_lt.mpr (Nat.le_sub_one_of_lt hgt)), hpos]

/-- Removing a block renumbers the blocks that slots and instructions name. -/
theorem slots_removeBlock :
    (f.removeBlock b).slots[x]? = (f.slots[x]?).map fun s =>
      { s with
        block := shiftPast b s.block
        instruction := s.instruction.mapBlocks (shiftPast b) } := by
  simp [removeBlock]

/-- Removing a block renumbers the targets of branches and the sources of arms. -/
theorem instruction?_removeBlock :
    (f.removeBlock b).instruction? x =
      (f.instruction? x).map (·.mapBlocks (shiftPast b)) := by
  simp [instruction?, slots_removeBlock, Function.comp_def]

/-! ## Edits keep the agreement of blocks and slots -/

/-- Detaching keeps the placement. -/
theorem Placed.detach (hf : f.Placed) (id : InstId) : (f.detach id).Placed where
  nodup c := by
    rw [body_detach hf]
    exact (hf.nodup c).filter _
  slot {c x} hx := by
    rw [body_detach hf] at hx
    rw [slots_detach]
    exact hf.slot (List.mem_filter.mp hx).1

/-- Changing live instructions keeps the placement. -/
theorem Placed.mapLive (hf : f.Placed) (g : Instruction → Instruction) : (f.mapLive g).Placed where
  nodup := hf.nodup
  slot {c x} hx := by
    obtain ⟨s, hs, rfl⟩ := hf.slot hx
    refine ⟨_, by rw [slots_mapLive, hs, Option.map_some], ?_⟩
    split <;> rfl

/-- Splicing one block to another keeps the placement. -/
theorem Placed.splice (hf : f.Placed) (hne : source ≠ target) (htarget : target < f.blocks.length) :
    (f.splice source target).Placed where
  nodup c := by
    rw [body_splice hne htarget]
    split
    · refine List.nodup_append.mpr ⟨hf.nodup target, hf.nodup source, fun x hx y hy hxy => ?_⟩
      subst hxy
      exact hne (hf.block_unique hy hx)
    · split
      · exact List.nodup_nil
      · exact hf.nodup c
  slot {c x} hx := by
    rw [body_splice hne htarget] at hx
    rw [slots_splice]
    split at hx
    · rename_i hc
      rcases List.mem_append.mp hx with hx | hx
      · obtain ⟨s, hs, hsb⟩ := hf.slot hx
        -- an instruction of the target is not moved, so its slot stays
        have hnot : x ∉ f.body source := fun hmem => hne (hf.block_unique hmem hx)
        exact ⟨s, by rw [hs, Option.map_some, if_neg hnot], hsb.trans hc.symm⟩
      · obtain ⟨s, hs, _⟩ := hf.slot hx
        exact ⟨{ s with block := target }, by rw [hs, Option.map_some, if_pos hx], hc.symm⟩
    · split at hx
      · cases hx
      · rename_i hc
        obtain ⟨s, hs, hsb⟩ := hf.slot hx
        have hnot : x ∉ f.body source := fun hmem => hc (hf.block_unique hx hmem)
        exact ⟨s, by rw [hs, Option.map_some, if_neg hnot], hsb⟩

/-- Removing a block keeps the placement, as its instructions go out of all bodies. -/
theorem Placed.removeBlock (hf : f.Placed) : (f.removeBlock b).Placed where
  nodup c := by
    rw [body_removeBlock]
    split <;> exact hf.nodup _
  slot {c x} hx := by
    rw [body_removeBlock] at hx
    have hslot : ∃ d, x ∈ f.body d ∧ shiftPast b d = c := by
      split at hx
      · rename_i hlt
        exact ⟨c, hx, if_neg (Nat.not_lt.mpr (Nat.le_of_lt hlt))⟩
      · rename_i hle
        exact ⟨c + 1, hx, if_pos (Nat.lt_succ_of_le (Nat.le_of_not_lt hle))⟩
    obtain ⟨d, hd, hshift⟩ := hslot
    obtain ⟨s, hs, rfl⟩ := hf.slot hd
    exact ⟨_, by rw [slots_removeBlock, hs, Option.map_some], hshift⟩

/-- Inserting an instruction into a block keeps the placement. -/
theorem Placed.insert (hf : f.Placed) (hb : b < f.blocks.length) {position : Nat}
    (hposition : position ≤ (f.body b).length) (name : Option String) (i : Instruction) :
    (f.insert b position name i).Placed where
  nodup c := by
    rw [body_insert hb]
    split
    · rw [(List.perm_insertIdx f.nextId _ hposition).nodup_iff, List.nodup_cons]
      exact ⟨fun hmem => absurd (hf.lt_length hmem) (Nat.lt_irrefl _), hf.nodup b⟩
    · exact hf.nodup c
  slot {c x} hx := by
    have hold : x ∈ f.body c → ∃ s, (f.insert b position name i).slots[x]? = some s ∧
        s.block = c := by
      intro hmem
      obtain ⟨s, hs, hsc⟩ := hf.slot hmem
      exact ⟨s, by rw [slots_insert, List.getElem?_append_left (hf.lt_length hmem), hs], hsc⟩
    rw [body_insert hb] at hx
    split at hx
    · rename_i hc
      subst hc
      rw [List.mem_insertIdx hposition] at hx
      rcases hx with rfl | hx
      · exact ⟨_, by rw [slots_insert, nextId, List.getElem?_concat_length], rfl⟩
      · exact hold hx
    · exact hold hx

/-- Setting an instruction keeps the placement. -/
theorem Placed.setInstruction (hf : f.Placed) (i : Instruction) :
    (f.setInstruction id i).Placed where
  nodup := hf.nodup
  slot {c x} hx := by
    obtain ⟨s, hs, rfl⟩ := hf.slot hx
    by_cases hid : id = x <;> simp [Function.setInstruction, hs, hid]

/-- Setting a name keeps the placement. -/
theorem Placed.setName (hf : f.Placed) (name : Option String) : (f.setName id name).Placed where
  nodup := hf.nodup
  slot {c x} hx := by
    obtain ⟨s, hs, rfl⟩ := hf.slot hx
    by_cases hid : id = x <;> simp [Function.setName, hs, hid]

/-! ## Names and labels -/

@[simp] theorem name_detach : (f.detach id).name = f.name := by
  unfold detach
  split <;> rfl

@[simp] theorem name_mapLive (g : Instruction → Instruction) : (f.mapLive g).name = f.name := rfl

/-- The labels of the blocks, in order. -/
def labels (f : Function) : List String := f.blocks.map (·.name)

/-- The name of a block is its label, or empty where there is no such block. -/
theorem blockName_eq : f.blockName b = (f.labels[b]?).getD "" := by
  rw [blockName, labels, List.getElem?_map]
  cases f.blocks[b]? <;> rfl

/-- Every block has one label. -/
theorem length_labels : f.labels.length = f.blocks.length := List.length_map _

/-- Changing what a block lists does not change its label. -/
theorem map_name_modify (insts : Block → List InstId) (ks : List Block) :
    (ks.modify b fun k => { k with insts := insts k }).map (·.name) = ks.map (·.name) := by
  refine List.ext_getElem? fun c => ?_
  rw [List.getElem?_map, List.getElem?_map, List.getElem?_modify]
  cases ks[c]? with
  | none => rfl
  | some k => by_cases hb : b = c <;> simp [hb]

/-- Inserting an instruction leaves the labels as they are. -/
@[simp] theorem labels_insert (position : Nat) (name : Option String) (i : Instruction) :
    (f.insert b position name i).labels = f.labels := map_name_modify _ _

@[simp] theorem labels_setInstruction (i : Instruction) :
    (f.setInstruction id i).labels = f.labels := rfl

@[simp] theorem labels_setName (name : Option String) : (f.setName id name).labels = f.labels := rfl

/-- Changing live instructions leaves the labels as they are. -/
@[simp] theorem labels_mapLive (g : Instruction → Instruction) :
    (f.mapLive g).labels = f.labels := rfl

/-- Detaching leaves the labels as they are. -/
@[simp] theorem labels_detach : (f.detach id).labels = f.labels := by
  unfold detach
  split
  · rfl
  · exact map_name_modify _ _

/-- Splicing leaves the labels as they are. -/
@[simp] theorem labels_splice : (f.splice source target).labels = f.labels :=
  (map_name_modify _ _).trans (map_name_modify _ _)

/-- A removed block takes its label along. -/
theorem labels_removeBlock : (f.removeBlock b).labels = f.labels.eraseIdx b :=
  (List.eraseIdx_map ..).symm

/-! ## The number of slots -/

/-- Setting an instruction makes no slot. -/
@[simp] theorem size_setInstruction (i : Instruction) :
    (f.setInstruction id i).slots.length = f.slots.length := List.length_modify ..

@[simp] theorem size_setName (name : Option String) :
    (f.setName id name).slots.length = f.slots.length := List.length_modify ..

/-- Changing live instructions makes no slot. -/
@[simp] theorem size_mapLive (g : Instruction → Instruction) :
    (f.mapLive g).slots.length = f.slots.length := List.length_mapIdx ..

/-- Splicing makes no slot and frees none. -/
@[simp] theorem size_splice :
    (f.splice source target).slots.length = f.slots.length := List.length_mapIdx ..

/-- Removing a block frees no slot. -/
@[simp] theorem size_removeBlock : (f.removeBlock b).slots.length = f.slots.length :=
  List.length_map ..

end Dataflow.Function
