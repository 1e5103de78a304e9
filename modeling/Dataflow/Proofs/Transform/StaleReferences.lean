import Dataflow.Proofs.Text.ReadFunctions
import Dataflow.Proofs.Transform.Reports

/-!
# Blocks that slots name

No transformation takes a slot away, so a number stands for an instruction for good, also once that
is out of the program. But a merge redirects only what is in the program: a jump or a phi that it
takes out still names the block that is gone, by a number that the next block takes over, or that is
one too high if the last block went. So the slots name blocks that are there as long as the last
block is not appended to another one, and from then on one of them does not (`Module.read_names`,
`plainJump_names_gone`).
-/

namespace Dataflow

open MemoryToken

/-- The blocks that a slot names: the one of its instruction, and those in the instruction. -/
def Slot.places (s : Slot) : List BlockId := s.block :: s.instruction.blockRefs

namespace Function

variable {f g : Function} {b c l r : BlockId} {t x y : InstId} {front : List InstId}
  {σ : Operand → Operand} {i : Instruction} {bs : List BlockId} {last : String}
  {phis : List (BlockId × InstId)}

/-- The blocks that the slot of a number names. -/
def placesAt (f : Function) (x : InstId) : Option (List BlockId) := (f.slots[x]?).map Slot.places

/-- Some slot names a block. -/
def Names (f : Function) (b : BlockId) : Prop := ∃ x ps, f.placesAt x = some ps ∧ b ∈ ps

/-- A function names a block when one of its slots does. -/
theorem names_iff : f.Names b ↔ ∃ s ∈ f.slots, b ∈ s.places := by
  constructor
  · rintro ⟨x, ps, hps, hb⟩
    obtain ⟨s, hs, rfl⟩ := Option.map_eq_some_iff.mp hps
    exact ⟨s, List.mem_of_getElem? hs, hb⟩
  · rintro ⟨s, hs, hb⟩
    obtain ⟨x, hx⟩ := List.getElem?_of_mem hs
    exact ⟨x, s.places, by rw [placesAt, hx]; rfl, hb⟩

/-- What a slot names depends on the slot only. -/
theorem placesAt_congr (h : g.slots[x]? = f.slots[x]?) : g.placesAt x = f.placesAt x := by
  rw [placesAt, h, placesAt]

/-- What is in the program names blocks that are there. -/
theorem Linked.place_lt (h : f.Linked) (hx : x ∈ f.live) {ps : List BlockId}
    (hps : f.placesAt x = some ps) (hb : b ∈ ps) : b < f.blocks.length := by
  obtain ⟨c, hc⟩ := mem_live.mp hx
  obtain ⟨s, hs, rfl⟩ := h.placed.slot hc
  rw [placesAt, hs, Option.map_some, Option.some.injEq] at hps
  subst hps
  rcases List.mem_cons.mp hb with rfl | hb
  · exact lt_length_of_mem_body hc
  · exact h.target hx (by rw [instruction?, hs]; rfl) hb

/-! ## Merging -/

/-- Exchanging operands changes nothing that slots name. -/
theorem placesAt_mapLive_mapOperands (g : Operand → Operand) :
    (f.mapLive (·.mapOperands g)).placesAt x = f.placesAt x := by
  rw [placesAt, slots_mapLive, Option.map_map, placesAt]
  congr 1
  funext s
  simp only [Function.comp_apply]
  split
  · simp only [Slot.places, Instruction.blockRefs_mapOperands]
  · rfl

theorem placesAt_foldPhi : (f.foldPhi y).placesAt x = f.placesAt x := by
  unfold foldPhi
  split
  · rw [placesAt_congr (congrArg (·[x]?) slots_detach), replaceUses, placesAt_mapLive_mapOperands]
  · rfl

/-- Folding the phis of a block changes nothing that slots name. -/
theorem placesAt_foldPhis : (f.foldPhis b).placesAt x = f.placesAt x :=
  List.foldlRecOn _ _ (motive := fun g : Function => g.placesAt x = f.placesAt x) rfl
    fun _ hg _ _ => placesAt_foldPhi.trans hg

/-- Neither does dropping its jump. -/
theorem placesAt_dropBranch : (f.dropBranch b).placesAt x = f.placesAt x := by
  unfold dropBranch
  cases f.terminator? b with
  | none => rfl
  | some t => exact placesAt_congr (congrArg (·[x]?) slots_detach)

/-- Removing a block moves the later blocks that slots name down by one. -/
theorem placesAt_removeBlock :
    (f.removeBlock b).placesAt x = (f.placesAt x).map (List.map (shiftPast b)) := by
  rw [placesAt, slots_removeBlock, Option.map_map, placesAt, Option.map_map]
  congr 1
  funext s
  simp only [Function.comp_apply, Slot.places, Instruction.blockRefs_mapBlocks, List.map_cons]

/-- What a merge leaves out of the program is not redirected, and the numbers in it move down with
those of the blocks. -/
theorem placesAt_join {h : Function} (hne : r ≠ l) (hl : l < h.blocks.length)
    (hx : x ∉ (((h.splice r l).redirect r l).removeBlock r).live) :
    (((h.splice r l).redirect r l).removeBlock r).placesAt x =
      (h.placesAt x).map (List.map (shiftPast r)) := by
  have hsplice : x ∉ (h.splice r l).live := by
    intro hmem
    obtain ⟨c, hc⟩ := mem_live.mp hmem
    have hcr : c ≠ r := by
      rintro rfl
      rw [body_splice hne hl, if_neg hne, if_pos rfl] at hc
      cases hc
    refine hx (mem_live_of_mem_body (b := shiftPast r c) ?_)
    rwa [body_removeBlock_shiftPast hcr]
  have hright : x ∉ h.body r := by
    intro hmem
    refine hsplice (mem_live_of_mem_body (b := l) ?_)
    rw [body_splice hne hl, if_pos rfl]
    exact List.mem_append_right _ hmem
  have hslot : ((h.splice r l).redirect r l).slots[x]? = h.slots[x]? := by
    rw [redirect, slots_mapLive, slots_splice]
    simp [hsplice, hright]
  rw [placesAt_removeBlock, placesAt_congr hslot]

namespace Merges

variable (m : f.Merges (f.mergePair l r) l r t front σ)

include m

/-- For an instruction out of the program a merge only moves down the later blocks that its slot
names. -/
theorem placesAt_mergePair (hx : x ∉ (f.mergePair l r).live) :
    (f.mergePair l r).placesAt x = (f.placesAt x).map (List.map (shiftPast r)) := by
  have hlength : ((f.dropBranch l).foldPhis r).blocks.length = f.blocks.length := by
    have hfold := (f.dropBranch l).frame_foldl_foldPhi
      (((f.dropBranch l).body r).filter (f.dropBranch l).isPhiAt)
    rw [← length_labels, ← length_labels]
    exact congrArg List.length (hfold.1.trans frame_dropBranch.1)
  have hl := lt_length_of_mem_body (terminator_mem_body m.pair.term)
  rw [mergePair] at hx ⊢
  rw [placesAt_join m.pair.ne (hlength ▸ hl) hx, placesAt_foldPhis, placesAt_dropBranch]

/-- The jump that a merge takes out still names the block that is gone. -/
theorem names_jump (hf : f.Linked) : (f.mergePair l r).Names r := by
  have hgone : t ∉ (f.mergePair l r).live := fun ht =>
    ((m.mem_live_iff hf.placed).mp ht).2.1 rfl
  obtain ⟨s, hs, hi⟩ := Option.map_eq_some_iff.mp m.pair.jump
  refine ⟨t, _, by rw [m.placesAt_mergePair hgone, placesAt, hs]; rfl, ?_⟩
  refine List.mem_map.mpr ⟨r, ?_, if_neg (Nat.lt_irrefl r)⟩
  rw [Slot.places, hi]
  exact List.mem_cons_of_mem _ List.mem_cons_self

/-- A slot names a block that is there, or one that it named before, by its number now. -/
theorem names_cases (hf : f.Linked) (hb : (f.mergePair l r).Names b) :
    b < (f.mergePair l r).blocks.length ∨ ∃ c, f.Names c ∧ shiftPast r c = b := by
  obtain ⟨x, ps, hps, hb⟩ := hb
  by_cases hx : x ∈ (f.mergePair l r).live
  · exact Or.inl ((m.linked hf).place_lt hx hps hb)
  · rw [m.placesAt_mergePair hx] at hps
    obtain ⟨qs, hqs, rfl⟩ := Option.map_eq_some_iff.mp hps
    obtain ⟨c, hc, rfl⟩ := List.mem_map.mp hb
    exact Or.inr ⟨c, ⟨x, qs, hqs, hc⟩, rfl⟩

/-- What names the number after the last block goes on to do so. -/
theorem names_length (hf : f.Linked) (h : f.Names f.blocks.length) :
    (f.mergePair l r).Names (f.mergePair l r).blocks.length := by
  obtain ⟨x, ps, hps, hb⟩ := h
  have hx : x ∉ (f.mergePair l r).live := fun hx =>
    Nat.lt_irrefl _ (hf.place_lt ((m.mem_live_iff hf.placed).mp hx).1 hps hb)
  refine ⟨x, _, by rw [m.placesAt_mergePair hx, hps]; rfl, List.mem_map.mpr ⟨_, hb, ?_⟩⟩
  rw [m.length]
  exact if_pos (hf.lt_right m.pair)

end Merges

/-! ## Threading -/

theorem placesAt_setInstruction (hi : ∀ j, f.instruction? y = some j → i.blockRefs = j.blockRefs) :
    (f.setInstruction y i).placesAt x = f.placesAt x := by
  by_cases hx : x = y
  · subst hx
    rw [placesAt, setInstruction, List.getElem?_modify, placesAt]
    cases hs : f.slots[x]? with
    | none => rfl
    | some s =>
        have hrefs := hi s.instruction (by rw [instruction?, hs]; rfl)
        simp [Slot.places, hrefs]
  · exact placesAt_congr (slots_setInstruction_of_ne hx)

theorem placesAt_setName {name : Option String} :
    (f.setName y name).placesAt x = f.placesAt x := by
  rw [placesAt, setName, List.getElem?_modify, placesAt]
  cases f.slots[x]? with
  | none => rfl
  | some s => by_cases hx : y = x <;> simp [hx, Slot.places]

/-- Loads and stores name no blocks, nor do the calls that they become. -/
theorem placesAt_step {s : State} : (s.step y).function.placesAt x = s.function.placesAt x := by
  unfold State.step
  split
  · rename_i hi
    refine placesAt_setInstruction fun j hj => ?_
    rw [hi] at hj
    cases hj
    rfl
  · rename_i hi
    refine (placesAt_setInstruction fun j hj => ?_).trans placesAt_setName
    rw [instruction?_setName, hi] at hj
    cases hj
    rfl
  · rfl

/-- Threading blocks changes nothing that slots name. -/
theorem placesAt_threadBlocks : (threadBlocks phis bs f).1.placesAt x = f.placesAt x := by
  induction bs generalizing f with
  | nil => rfl
  | cons b bs ih =>
      refine ih.trans ?_
      exact List.foldlRecOn _ _ (motive := fun s : State => s.function.placesAt x = f.placesAt x)
        rfl fun _ hs _ _ => placesAt_step.trans hs

/-- Filling phis changes nothing that other slots name. -/
theorem placesAt_fillTokenPhis {tokens : List (BlockId × Operand)}
    (hx : ∀ phi ∈ phis, x ≠ phi.2) :
    (phis.foldl (fillTokenPhi tokens) f).placesAt x = f.placesAt x :=
  List.foldlRecOn _ _ (motive := fun g : Function => g.placesAt x = f.placesAt x) rfl
    fun _ hg phi hphi => (placesAt_congr (slots_setInstruction_of_ne (hx phi hphi))).trans hg

/-- Threading changes no block that an old slot names. -/
theorem placesAt_threadMemory (hx : x < f.slots.length) :
    f.threadMemory.function.placesAt x = f.placesAt x := by
  unfold threadMemory
  split
  · rfl
  · have ha : f.AddsPhis f.tokenBlocks _ _ :=
      addsPhis_addTokenPhis (List.nodup_range.filter _) fun b hb => (mem_tokenBlocks.mp hb).1
    refine (placesAt_fillTokenPhis fun phi hphi => ?_).trans
      (placesAt_threadBlocks.trans (placesAt_congr (ha.old hx)))
    rw [ha.numbered] at hphi
    exact Nat.ne_of_lt (Nat.lt_of_lt_of_le hx (List.le_snd_of_mem_zipIdx hphi))

/-- Threading keeps what merging needs of a function. -/
theorem Threads.linked {phi : BlockId → Option InstId} (ht : f.Threads g phi)
    (hplaced : g.Placed) (h : f.Linked) : g.Linked where
  placed := hplaced
  target {x i b} hx hi hb := by
    obtain ⟨c, hc⟩ := mem_live.mp hx
    rw [ht.length]
    rw [ht.body, List.mem_append, Option.mem_toList] at hc
    rcases hc with hp | hc
    · -- the arms of a new phi are the predecessors of its block
      rw [ht.arms hp] at hi
      cases hi
      obtain ⟨a, ha, rfl⟩ := List.mem_map.mp hb
      obtain ⟨q, hq, rfl⟩ := List.mem_map.mp ha
      exact (mem_predecessors.mp hq).1
    · obtain ⟨done, after, hsplit⟩ := List.append_of_mem hc
      rw [ht.tied hsplit] at hi
      obtain ⟨j, hj, rfl⟩ := Option.map_eq_some_iff.mp hi
      refine h.target (mem_live_of_mem_body hc) hj ?_
      cases j <;> exact hb
  armed {x ty arms} hx hi := by
    obtain ⟨c, hc⟩ := mem_live.mp hx
    rcases ht.phi_cases hc hi with hp | ⟨hx, hi⟩
    · rw [ht.arms hp] at hi
      cases hi
      simpa using ht.entered hp
    · exact h.armed (mem_live_of_mem_body hx) hi

/-- Threading keeps the blocks that the program refers to in place. -/
theorem Linked.threadMemory (h : f.Linked) : f.threadMemory.function.Linked := by
  obtain ⟨phi, ht⟩ := threads_threadMemory h.placed
  exact ht.linked (f.revised_threadMemory.placed h.placed) h

/-- After threading a slot names a block that is there, or one that it named before. -/
theorem names_threadMemory (h : f.Linked) (hb : f.threadMemory.function.Names b) :
    b < f.blocks.length ∨ f.Names b := by
  obtain ⟨phi, ht⟩ := threads_threadMemory h.placed
  obtain ⟨x, ps, hps, hb⟩ := hb
  by_cases hx : x < f.slots.length
  · exact Or.inr ⟨x, ps, placesAt_threadMemory hx ▸ hps, hb⟩
  · obtain ⟨s, hs, _⟩ := Option.map_eq_some_iff.mp hps
    obtain ⟨c, hc⟩ := ht.placed (Nat.le_of_not_lt hx) (List.getElem?_eq_some_iff.mp hs).1
    have hlive : x ∈ f.threadMemory.function.live := by
      refine mem_live_of_mem_body (b := c) ?_
      rw [ht.body, hc]
      exact List.mem_append_left _ (by simp)
    exact Or.inl (ht.length ▸ h.threadMemory.place_lt hlive hps hb)

/-! ## Any number of transformations -/

/-- The blocks that slots name, in a function that comes from one whose last label was `last`.
Either all of them are there and the last block still is the last, or that block is gone and its
number is named. -/
structure Spans (last : String) (f : Function) : Prop where
  linked : f.Linked
  distinct : f.labels.Nodup
  bound : ∀ b, f.Names b → b ≤ f.blocks.length
  cases : (∀ b, f.Names b → b < f.blocks.length) ∧ f.labels.getLast? = some last ∨
    f.Names f.blocks.length ∧ last ∉ f.labels

/-- Past one of `n` blocks a number up to `n` becomes one up to `n - 1`. -/
theorem shiftPast_le {k n m : Nat} (hm : m < n) (hk : k ≤ n) : shiftPast m k ≤ n - 1 := by
  unfold shiftPast
  dsimp only [BlockId] at *
  split <;> omega

/-- Past one of `n` blocks that is not the last, a number below `n` becomes one below `n - 1`. -/
theorem shiftPast_lt {k n m : Nat} (hm : m + 1 < n) (hk : k < n) : shiftPast m k < n - 1 := by
  unfold shiftPast
  dsimp only [BlockId] at *
  split <;> omega

/-- Taking out an element before the last leaves the last one. -/
theorem getLast?_eraseIdx {ls : List String} {k : Nat} (hk : k + 1 < ls.length) :
    (ls.eraseIdx k).getLast? = ls.getLast? := by
  have hlength : (ls.eraseIdx k).length = ls.length - 1 :=
    List.length_eraseIdx_of_lt (Nat.lt_of_succ_lt hk)
  have hpred : ls.length - 1 - 1 + 1 = ls.length - 1 := by omega
  rw [List.getLast?_eq_getElem?, List.getLast?_eq_getElem?, hlength,
    List.getElem?_eraseIdx_of_ge (by omega), hpred]

/-- Taking out the last of distinct elements leaves it nowhere. -/
theorem not_mem_eraseIdx_of_getLast? {ls : List String} (hnodup : ls.Nodup)
    (hr : r + 1 = ls.length) (hlast : ls.getLast? = some last) : last ∉ ls.eraseIdx r := by
  rw [List.getLast?_eq_getElem?, ← hr, Nat.add_sub_cancel] at hlast
  intro hmem
  obtain ⟨k, hk, heq⟩ := List.mem_eraseIdx_iff_getElem?.mp hmem
  obtain ⟨hlt, _⟩ := List.getElem?_eq_some_iff.mp hlast
  exact hk ((List.getElem?_inj hlt hnodup).mp (hlast.trans heq.symm)).symm

namespace Spans

/-- Every block that is named exists while the last block is still the last. -/
theorem lt_of_names (h : f.Spans last) (hlast : f.labels.getLast? = some last) (hb : f.Names b) :
    b < f.blocks.length := by
  rcases h.cases with ⟨hall, _⟩ | ⟨_, hnone⟩
  · exact hall b hb
  · exact absurd (List.mem_of_getLast? hlast) hnone

/-- One merge. -/
theorem mergePair (h : f.Spans last) (m : f.Merges (f.mergePair l r) l r t front σ) :
    (f.mergePair l r).Spans last := by
  have hr : r < f.blocks.length := h.linked.lt_right m.pair
  have hlabels : (f.mergePair l r).labels = f.labels.eraseIdx r := frame_mergePair.1
  refine ⟨m.linked h.linked, hlabels ▸ h.distinct.eraseIdx r, fun b hb => ?_, ?_⟩
  · rcases m.names_cases h.linked hb with hlt | ⟨c, hc, rfl⟩
    · exact Nat.le_of_lt hlt
    · rw [m.length]
      exact shiftPast_le hr (h.bound c hc)
  · rcases h.cases with ⟨hall, hlast⟩ | ⟨hstale, hnone⟩
    · by_cases hend : r + 1 = f.blocks.length
      · -- the last block goes, and the jump to it still names it
        refine Or.inr ⟨?_, ?_⟩
        · rw [m.length, ← hend, Nat.add_sub_cancel]
          exact m.names_jump h.linked
        · rw [hlabels]
          exact not_mem_eraseIdx_of_getLast? h.distinct (length_labels ▸ hend) hlast
      · have hlt : r + 1 < f.blocks.length := Nat.lt_of_le_of_ne hr hend
        refine Or.inl ⟨fun b hb => ?_, ?_⟩
        · rcases m.names_cases h.linked hb with hthere | ⟨c, hc, rfl⟩
          · exact hthere
          · rw [m.length]
            exact shiftPast_lt hlt (hall c hc)
        · rw [hlabels, getLast?_eraseIdx (length_labels ▸ hlt), hlast]
    · refine Or.inr ⟨m.names_length h.linked hstale, fun hmem => hnone ?_⟩
      exact List.mem_of_mem_eraseIdx (hlabels ▸ hmem)

/-- Merging chains keeps what can be said of the named blocks. -/
theorem mergeChains (h : f.Spans last) : f.mergeChains.function.Spans last := by
  rw [mergeChains_function]
  exact Linked.mergePairs (P := fun f g => f.Spans last → g.Spans last) (fun _ h => h)
    (fun _ m hrest h => hrest (h.mergePair m)) h.linked f.blocks.length h

/-- So does threading memory. -/
theorem threadMemory (h : f.Spans last) : f.threadMemory.function.Spans last := by
  have hlabels := f.revised_threadMemory.labels
  have hlength := f.revised_threadMemory.length
  refine ⟨h.linked.threadMemory, hlabels ▸ h.distinct, fun b hb => ?_, ?_⟩
  · rw [hlength]
    exact (names_threadMemory h.linked hb).elim Nat.le_of_lt (h.bound b)
  · rw [hlabels, hlength]
    refine h.cases.imp (fun ⟨hall, hlast⟩ => ⟨fun b hb => ?_, hlast⟩) fun ⟨hstale, hnone⟩ => ?_
    · exact (names_threadMemory h.linked hb).elim id (hall b)
    · obtain ⟨x, ps, hps, hb⟩ := hstale
      obtain ⟨s, hs, _⟩ := Option.map_eq_some_iff.mp hps
      refine ⟨⟨x, ps, ?_, hb⟩, hnone⟩
      rw [placesAt_threadMemory (List.getElem?_eq_some_iff.mp hs).1, hps]

/-- So does a transformation. -/
theorem transform (h : f.Spans last) (options : TransformOptions) :
    (f.transform options).function.Spans last := by
  rw [Function.transform]
  cases options.mergeChains <;> cases options.threadMemory
  · exact h
  · exact h.threadMemory
  · exact h.mergeChains
  · exact h.mergeChains.threadMemory

/-- So does any sequence of transformations. -/
theorem transforms (h : f.Spans last) (runs : List TransformOptions) :
    (f.transforms runs).Spans last := by
  induction runs generalizing f with
  | nil => exact h
  | cons options runs ih => exact ih (h.transform options)

end Spans

/-- A function that was read spans its blocks. -/
theorem Bound.spans (h : f.Bound) (hdistinct : f.labels.Nodup)
    (hlast : f.labels.getLast? = some last) : f.Spans last := by
  have hall : ∀ b, f.Names b → b < f.blocks.length := by
    rintro b ⟨x, ps, hps, hb⟩
    obtain ⟨s, hs, _⟩ := Option.map_eq_some_iff.mp hps
    have hx : x ∈ f.live := by
      rw [h.live_eq]
      exact List.mem_range.mpr (List.getElem?_eq_some_iff.mp hs).1
    exact h.linked.place_lt hx hps hb
  exact ⟨h.linked, hdistinct, fun b hb => Nat.le_of_lt (hall b hb), Or.inl ⟨hall, hlast⟩⟩

/-- What is left of the numbers of instructions and blocks in `g`, which came from `f`. -/
structure KeepsNumbers (f g : Function) : Prop where
  /-- Every number that an instruction got still leads to a slot. -/
  size : f.slots.length ≤ g.slots.length
  /-- The slots of the program name blocks that are there. -/
  live : ∀ x ∈ g.live, ∀ s, g.slots[x]? = some s → ∀ b ∈ s.places, b < g.blocks.length
  /-- No slot names a block by more than the number after the last. -/
  bound : ∀ s ∈ g.slots, ∀ b ∈ s.places, b ≤ g.blocks.length
  /-- All slots name blocks that are there as long as the last block is still the last. -/
  places_lt_iff : (∀ s ∈ g.slots, ∀ b ∈ s.places, b < g.blocks.length) ↔
    g.labels.getLast? = f.labels.getLast?

/-- What a later function spans is what is left of the numbers. -/
theorem Spans.keepsNumbers (h : g.Spans last) (hsize : f.slots.length ≤ g.slots.length)
    (hlast : f.labels.getLast? = some last) : f.KeepsNumbers g where
  size := hsize
  live x hx s hs b hb := h.linked.place_lt hx (by rw [placesAt, hs]; rfl) hb
  bound s hs b hb := h.bound b (names_iff.mpr ⟨s, hs, hb⟩)
  places_lt_iff := by
    rw [hlast]
    constructor
    · intro hall
      rcases h.cases with ⟨_, hsame⟩ | ⟨hstale, _⟩
      · exact hsame
      · obtain ⟨s, hs, hb⟩ := names_iff.mp hstale
        exact absurd (hall s hs _ hb) (Nat.lt_irrefl _)
    · intro hsame s hs b hb
      exact h.lt_of_names hsame (names_iff.mpr ⟨s, hs, hb⟩)

end Function

/-- After any transformations of a function that was read, its numbers lead to slots, and the blocks
that the slots name are there exactly as long as the last block was not appended to another one. -/
theorem Module.read_names {text : String} {m : Module} {f : Function} (h : read text = .ok m)
    (hf : f ∈ m.functions) (runs : List TransformOptions) : f.KeepsNumbers (f.transforms runs) := by
  obtain ⟨last, hlast⟩ : ∃ last, f.labels.getLast? = some last := by
    have hpos := Module.read_blocks_pos h hf
    rw [← Function.length_labels] at hpos
    exact ⟨_, List.getLast?_eq_some_getLast (List.ne_nil_of_length_pos hpos)⟩
  have hspans := (Module.read_bound h hf).spans (Module.read_spelled h hf).distinctLabels hlast
  exact (hspans.transforms runs).keepsNumbers (Function.Edited.transforms f runs).size hlast

/-- A merge inside a loop leaves the last block alone. -/
theorem read_names_storingLoop : Module.read storingLoopText = .ok ⟨[storingLoop]⟩ ∧
    storingLoop.KeepsNumbers (storingLoop.transforms [⟨true, true⟩, ⟨true, false⟩]) ∧
    (storingLoop.transforms [⟨true, true⟩, ⟨true, false⟩]).labels.getLast? = some "exit" :=
  ⟨read_storingLoop, Module.read_names read_storingLoop List.mem_cons_self _, by decide +kernel⟩

/-- Once its two blocks are one, the jump of `plainJump` names a block that is not there, and then
the next block that is added. -/
theorem plainJump_names_gone : Module.readChecked plainJumpText = .ok ⟨[plainJump]⟩ ∧
    (¬ ∀ s ∈ (plainJump.transforms [⟨true, false⟩]).slots, ∀ b ∈ s.places,
      b < (plainJump.transforms [⟨true, false⟩]).blocks.length) ∧
    ((plainJump.transforms [⟨true, false⟩]).addBlock "z").instructionText 0 = "br label %z" :=
  ⟨by decide +kernel, by decide +kernel, by decide +kernel⟩

end Dataflow
