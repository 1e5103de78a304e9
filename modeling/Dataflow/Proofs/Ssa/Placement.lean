import Dataflow.Check.Dependence
import Mathlib.Data.List.Basic
import Mathlib.Data.List.Nodup

/-!
# Where instructions stand

`Function.Placed` says that the blocks of a function and its table of instructions agree: a block
lists a number at most once, and the number leads to an instruction that was put in that block. So
no two blocks share an instruction. `Function.Resolved` says that every reference leads somewhere.

`Function.WellShaped` collects what a function without violations promises about its blocks.
-/

namespace Dataflow

namespace Function

variable {f : Function} {b c : BlockId} {id : InstId}

/-! ## Bodies and the program order -/

/-- The body of a block is the list in its record. -/
theorem body_eq_of_getElem? {k : Block} (h : f.blocks[b]? = some k) : f.body b = k.insts := by
  simp [body, h]

/-- A number that names no block has an empty body. -/
theorem body_eq_nil_of_le (h : f.blocks.length ≤ b) : f.body b = [] := by
  simp [body, List.getElem?_eq_none h]

/-- Only blocks that exist have instructions. -/
theorem lt_length_of_mem_body (h : id ∈ f.body b) : b < f.blocks.length := by
  by_contra hle
  rw [body_eq_nil_of_le (Nat.le_of_not_lt hle)] at h
  cases h

/-- What is live stands in some block. -/
theorem mem_live : id ∈ f.live ↔ ∃ b, id ∈ f.body b := by
  simp only [live, List.mem_flatMap]
  constructor
  · intro hex
    obtain ⟨k, hk, hid⟩ := hex
    obtain ⟨b, hb⟩ := List.mem_iff_getElem?.mp hk
    exact ⟨b, by rwa [body_eq_of_getElem? hb]⟩
  · intro hex
    obtain ⟨b, hid⟩ := hex
    have hb := lt_length_of_mem_body hid
    refine ⟨f.blocks[b], List.getElem_mem hb, ?_⟩
    rwa [body_eq_of_getElem? (List.getElem?_eq_getElem hb)] at hid

theorem mem_live_of_mem_body (h : id ∈ f.body b) : id ∈ f.live := mem_live.mpr ⟨b, h⟩

/-- The program order is the bodies of the blocks one after another. -/
theorem live_eq_flatMap_body : f.live = f.blockIds.flatMap f.body := by
  have hmap : f.blockIds.map f.body = f.blocks.map (·.insts) := by
    apply List.ext_getElem?
    intro b
    by_cases hb : b < f.blocks.length
    · simp [blockIds, body, List.getElem?_range hb, List.getElem?_eq_getElem hb]
    · simp [blockIds, Nat.le_of_not_lt hb]
  rw [live, List.flatMap_def, ← hmap, ← List.flatMap_def]

/-- The numbers of blocks are those below their count. -/
theorem mem_blockIds : b ∈ f.blockIds ↔ b < f.blocks.length := by
  simp [blockIds]

/-- A function with a block starts at the first. -/
theorem entry?_of_lt (hb : b < f.blocks.length) : f.entry? = some 0 := by
  refine if_neg fun hempty => ?_
  rw [List.isEmpty_iff.mp hempty] at hb
  exact absurd hb (Nat.not_lt_zero b)

/-- The steps are the live instructions with what they do. -/
theorem mem_steps {i : Instruction} :
    (id, i) ∈ f.steps ↔ id ∈ f.live ∧ f.instruction? id = some i := by
  simp only [steps, List.mem_filterMap, Option.map_eq_some_iff, Prod.mk.injEq]
  constructor
  · intro hex
    obtain ⟨x, hx, j, hj, rfl, rfl⟩ := hex
    exact ⟨hx, hj⟩
  · intro hex
    obtain ⟨hid, hi⟩ := hex
    exact ⟨id, hid, i, hi, rfl, rfl⟩

/-- Of the instructions `ids`, `s` is the last one before `x` that `p` picks. -/
def LastBefore (p : InstId → Bool) (ids : List InstId) (s x : InstId) : Prop :=
  ∃ front mid after, ids = front ++ s :: mid ++ x :: after ∧ p s = true ∧ ∀ y ∈ mid, p y = false

/-- A search backwards from `x` finds it. -/
theorem lastBefore_iff {p : InstId → Bool} {done after : List InstId} {s x : InstId}
    (hnodup : (done ++ x :: after).Nodup) :
    LastBefore p (done ++ x :: after) s x ↔ done.reverse.find? p = some s := by
  rw [List.find?_eq_some_iff_append]
  constructor
  · intro hex
    obtain ⟨front, mid, after', hids, hs, hmid⟩ := hex
    -- `x` stands only once in the list
    rw [List.nodup_append, List.nodup_cons] at hnodup
    have hx : x ∉ done := fun hmem => hnodup.2.2 x hmem x List.mem_cons_self rfl
    obtain ⟨rfl, _⟩ := (List.append_cons_inj_of_notMem hx hnodup.2.1.1).mp hids
    exact ⟨hs, mid.reverse, front.reverse, by simp, fun y hy => by
      simp [hmid y (List.mem_reverse.mp hy)]⟩
  · intro hex
    obtain ⟨hs, back, rest, hdone, hback⟩ := hex
    rw [List.reverse_eq_iff] at hdone
    refine ⟨rest.reverse, back.reverse, after, by simp [hdone], hs, fun y hy => ?_⟩
    simpa using hback y (List.mem_reverse.mp hy)

/-- One more instruction at the end may come after the last one that `p` picks. -/
theorem lastBefore_concat {p : InstId → Bool} {done : List InstId} {s x y : InstId} :
    LastBefore p (done ++ [x]) s y ↔
      LastBefore p done s y ∨ y = x ∧ done.reverse.find? p = some s := by
  rw [List.find?_eq_some_iff_append]
  constructor
  · intro hex
    obtain ⟨front, mid, after, hids, hs, hmid⟩ := hex
    rcases List.eq_nil_or_concat after with rfl | ⟨after, z, rfl⟩
    · obtain ⟨rfl, heq⟩ := List.append_inj' hids rfl
      exact Or.inr ⟨(List.singleton_inj.mp heq).symm, hs, mid.reverse, front.reverse, by simp,
        fun z hz => by simp [hmid z (List.mem_reverse.mp hz)]⟩
    · rw [List.concat_eq_append, ← List.cons_append, ← List.append_assoc] at hids
      exact Or.inl ⟨front, mid, after, (List.append_inj' hids rfl).1, hs, hmid⟩
  · intro hex
    rcases hex with ⟨front, mid, after, hids, hs, hmid⟩ | ⟨rfl, hs, back, rest, hdone, hback⟩
    · exact ⟨front, mid, after ++ [x], by simp [hids], hs, hmid⟩
    · rw [List.reverse_eq_iff] at hdone
      refine ⟨rest.reverse, back.reverse, [], by simp [hdone], hs, fun z hz => ?_⟩
      simpa using hback z (List.mem_reverse.mp hz)

/-- A predecessor is a block that has the other one among its targets. -/
theorem mem_predecessors : b ∈ f.predecessors c ↔ b < f.blocks.length ∧ c ∈ f.successors b := by
  simp [predecessors, mem_blockIds]

/-- The successors of a block are those of the instruction it ends in. -/
theorem successors_eq_of_terminator {i : Instruction} (hid : f.terminator? b = some id)
    (hi : f.instruction? id = some i) : f.successors b = i.successors := by
  simp [successors, hid, hi]

/-- What ends a block stands in it. -/
theorem terminator_mem_body (h : f.terminator? b = some id) : id ∈ f.body b := by
  rw [terminator?, Option.filter_eq_some_iff] at h
  exact List.mem_of_getLast? h.1

/-- Only blocks that exist have successors. -/
theorem lt_length_of_mem_successors (h : c ∈ f.successors b) : b < f.blocks.length := by
  cases hid : f.terminator? b with
  | none => simp [successors, hid] at h
  | some id => exact lt_length_of_mem_body (terminator_mem_body hid)

/-- A block that does not exist leads nowhere. -/
theorem successors_eq_nil_of_le (h : f.blocks.length ≤ b) : f.successors b = [] :=
  List.eq_nil_iff_forall_not_mem.mpr fun _ hc =>
    Nat.not_lt.mpr h (lt_length_of_mem_successors hc)

theorem mem_predecessors_of_mem_successors (h : c ∈ f.successors b) : b ∈ f.predecessors c :=
  mem_predecessors.mpr ⟨lt_length_of_mem_successors h, h⟩

/-- Only what ends a block has targets. -/
theorem isTerminator_of_mem_successors {i : Instruction} (h : c ∈ i.successors) :
    i.isTerminator = true := by
  cases i <;> simp_all [Instruction.successors, Instruction.isTerminator]

/-- The successors of a block are those of its last instruction. -/
theorem successors_eq_last : f.successors b =
    ((f.body b).getLast?.bind f.instruction?).elim [] (·.successors) := by
  rw [successors, terminator?]
  cases hlast : (f.body b).getLast? with
  | none => rfl
  | some id =>
      cases hi : f.instruction? id with
      | none => simp [Option.filter_some, hi]
      | some i =>
          cases hterm : i.isTerminator with
          | true => simp [Option.filter_some, hi, hterm]
          | false =>
              have hnone : i.successors = [] := List.eq_nil_iff_forall_not_mem.mpr fun c hc => by
                simp [isTerminator_of_mem_successors hc] at hterm
              simp [Option.filter_some, hi, hterm, hnone]

/-- Predecessors depend only on the number of blocks and their targets. -/
theorem predecessors_congr {g : Function} (hlength : g.blocks.length = f.blocks.length)
    (hsucc : ∀ b, g.successors b = f.successors b) : g.predecessors c = f.predecessors c := by
  simp only [predecessors, blockIds, hlength, hsucc]

/-! ## Agreement of blocks and slots -/

theorem instruction?_congr {g : Function} (h : g.slots[id]? = f.slots[id]?) :
    g.instruction? id = f.instruction? id := by
  rw [instruction?, instruction?, h]

/-- The blocks and the table of instructions agree. -/
structure Placed (f : Function) : Prop where
  /-- A block lists a number at most once. -/
  nodup : ∀ b, (f.body b).Nodup
  /-- A listed number leads to an instruction of that block. -/
  slot : ∀ {b id}, id ∈ f.body b → ∃ s, f.slots[id]? = some s ∧ s.block = b

namespace Placed

/-- No two blocks list one instruction. -/
theorem block_unique (h : f.Placed) (hb : id ∈ f.body b) (hc : id ∈ f.body c) : b = c := by
  obtain ⟨s, hs, rfl⟩ := h.slot hb
  obtain ⟨t, ht, rfl⟩ := h.slot hc
  rw [hs] at ht
  cases ht
  rfl

/-- What a block lists is an instruction. -/
theorem instruction (h : f.Placed) (hb : id ∈ f.body b) : ∃ i, f.instruction? id = some i := by
  obtain ⟨s, hs, _⟩ := h.slot hb
  exact ⟨s.instruction, by simp [instruction?, hs]⟩

/-- What stands in a block has a slot. -/
theorem lt_length (h : f.Placed) (hb : id ∈ f.body b) : id < f.slots.length := by
  obtain ⟨s, hs, _⟩ := h.slot hb
  exact (List.getElem?_eq_some_iff.mp hs).1

/-- The program order lists an instruction once. -/
theorem live_nodup (h : f.Placed) : f.live.Nodup := by
  rw [live_eq_flatMap_body, List.nodup_flatMap]
  refine ⟨fun b _ => h.nodup b, List.Pairwise.imp ?_ (List.nodup_range (n := f.blocks.length))⟩
  intro b c hne id hb hc
  exact hne (h.block_unique hb hc)

end Placed

/-! ## References -/

/-- Every reference of an instruction leads to an instruction, a parameter or a block. Data operands
are no callees. -/
structure Resolved (f : Function) : Prop where
  /-- Results that are read are in the table. -/
  result : ∀ {id i x}, f.instruction? id = some i → .result x ∈ i.operands → x < f.slots.length
  /-- Parameters that are read exist. -/
  param : ∀ {id i k}, f.instruction? id = some i → .param k ∈ i.operands → k < f.params.length
  /-- A callee is not read as data. -/
  function : ∀ {id i name}, f.instruction? id = some i → .function name ∉ i.operands
  /-- Branches and arms name blocks. -/
  block : ∀ {id i b}, f.instruction? id = some i → b ∈ i.blockRefs → b < f.blocks.length

/-- Every instruction in the table stands in a block, and every reference leads somewhere. -/
structure Whole (f : Function) : Prop where
  /-- An instruction in the table stands in a block. -/
  mem_live : ∀ {id i}, f.instruction? id = some i → id ∈ f.live
  /-- A listed number leads to an instruction. -/
  instruction : ∀ {b id}, id ∈ f.body b → ∃ i, f.instruction? id = some i
  resolved : f.Resolved

/-- What is live has a slot. -/
theorem Whole.lt_length (hf : f.Whole) (hid : id ∈ f.live) : id < f.slots.length := by
  obtain ⟨b, hb⟩ := Function.mem_live.mp hid
  obtain ⟨i, hi⟩ := hf.instruction hb
  by_contra hle
  simp [instruction?, Nat.le_of_not_lt hle] at hi

/-! ## Functions without violations -/

/-- What a function without violations promises about the order of its blocks and its phis. -/
structure WellShaped (f : Function) : Prop where
  /-- A block ends by leaving it. -/
  terminated : ∀ b, b < f.blocks.length → ∃ id, f.terminator? b = some id
  /-- Control leaves a block only at its end. -/
  terminator_last : ∀ {b front id rest}, f.body b = front ++ id :: rest →
    (f.instruction? id).any (·.isTerminator) = true → rest = []
  /-- Phis stand in front. -/
  phi_first : ∀ {b front id rest}, f.body b = front ++ id :: rest →
    (f.instruction? id).any (·.isPhi) = true →
    ∀ x ∈ front, (f.instruction? x).any (·.isPhi) = true
  /-- An arm names a predecessor. -/
  arm : ∀ {id s ty arms a}, id ∈ f.live → f.slots[id]? = some s → s.instruction = .phi ty arms →
    a ∈ arms → a.source ∈ f.predecessors s.block

/-- If the order of a body is right, then so is that of its rest, with what came before in mind. -/
theorem orderViolations_append (label : String) (after : Bool) (front rest : List InstId) :
    ∃ after', (f.orderViolations label after (front ++ rest) = [] →
      f.orderViolations label after' rest = []) ∧
      (after = true ∨ (∃ x ∈ front, (f.instruction? x).any (·.isPhi) = false) → after' = true) := by
  induction front generalizing after with
  | nil => exact ⟨after, by simp, by simp⟩
  | cons id front ih =>
      obtain ⟨after', hrest, hafter⟩ := ih (after || !(f.instruction? id).any (·.isPhi))
      refine ⟨after', fun h => hrest ?_, fun h => hafter ?_⟩
      · simp only [List.cons_append, orderViolations, List.append_eq_nil_iff] at h
        exact h.2
      · rcases h with rfl | ⟨x, hx, hphi⟩
        · exact Or.inl (by simp)
        · rcases List.mem_cons.mp hx with rfl | hx
          · exact Or.inl (by simp [hphi])
          · exact Or.inr ⟨x, hx, hphi⟩

/-- A function without violations of the rules on blocks and arms is well shaped. -/
theorem wellShaped_of_structureViolations (h : f.structureViolations = []) : f.WellShaped := by
  simp only [structureViolations, List.append_eq_nil_iff, List.flatMap_eq_nil_iff] at h
  obtain ⟨hblocks, harms⟩ := h
  have horder : ∀ {b front rest}, f.body b = front ++ rest → rest ≠ [] →
      f.orderViolations (f.blockName b) false (front ++ rest) = [] := by
    intro b front rest hbody hne
    have hb : b < f.blocks.length := by
      by_contra hle
      rw [body_eq_nil_of_le (Nat.le_of_not_lt hle)] at hbody
      exact hne (List.append_eq_nil_iff.mp hbody.symm).2
    have hnone := hblocks b (mem_blockIds.mpr hb)
    rw [blockViolations, List.append_eq_nil_iff, hbody] at hnone
    exact hnone.2
  refine ⟨fun b hb => ?_, fun {b front id rest} hbody hterm => ?_,
    fun {b front id rest} hbody hphi x hx => ?_, fun {id s ty arms a} hid hs hi ha => ?_⟩
  · have hnone := hblocks b (mem_blockIds.mpr hb)
    rw [blockViolations, List.append_eq_nil_iff] at hnone
    cases hid : f.terminator? b with
    | none => simp [hid] at hnone
    | some id => exact ⟨id, rfl⟩
  · obtain ⟨after, hrest, _⟩ := orderViolations_append (f.blockName b) false front (id :: rest)
    have hnone := hrest (horder hbody (by simp))
    simp only [orderViolations, List.append_eq_nil_iff, hterm] at hnone
    cases rest with
    | nil => rfl
    | cons _ _ => simp at hnone
  · -- something in front of the phi is no phi, which would be reported at the phi
    by_contra hx'
    obtain ⟨after, hrest, hafter⟩ := orderViolations_append (f.blockName b) false front (id :: rest)
    have hnone := hrest (horder hbody (by simp))
    rw [hafter (Or.inr ⟨x, hx, by simpa using hx'⟩)] at hnone
    simp [orderViolations, hphi] at hnone
  · obtain ⟨name, i, block⟩ := s
    cases hi
    have hnone := harms id hid
    simp only [strayArms, hs, List.map_eq_nil_iff, List.filter_eq_nil_iff] at hnone
    simpa using hnone a ha

/-- Instructions in order violate no rule: control leaves at the last one, and phis come first. -/
theorem orderViolations_eq_nil (label : String) {after : Bool} {ids : List InstId}
    (hterm : ∀ {l id rest}, ids = l ++ id :: rest →
      (f.instruction? id).any (·.isTerminator) = true → rest = [])
    (hphi : ∀ {l id rest}, ids = l ++ id :: rest →
      (f.instruction? id).any (·.isPhi) = true →
      after = false ∧ ∀ x ∈ l, (f.instruction? x).any (·.isPhi) = true) :
    f.orderViolations label after ids = [] := by
  induction ids generalizing after with
  | nil => rfl
  | cons id ids ih =>
      have hrest :
          f.orderViolations label (after || !(f.instruction? id).any (·.isPhi)) ids = [] := by
        refine ih (fun {front x rest} hsplit => hterm (l := id :: front) (by rw [hsplit]; rfl))
          fun {front x rest} hsplit hx => ?_
        obtain ⟨hafter, hfront⟩ := hphi (l := id :: front) (by rw [hsplit]; rfl) hx
        refine ⟨?_, fun y hy => hfront y (List.mem_cons_of_mem _ hy)⟩
        rw [hafter, hfront id List.mem_cons_self]
        rfl
      rw [orderViolations, hrest, List.append_nil, List.append_eq_nil_iff]
      refine ⟨if_neg fun hearly => ?_, if_neg fun hlate => ?_⟩
      · rw [Bool.and_eq_true] at hearly
        simp [hterm (l := []) rfl hearly.1] at hearly
      · rw [Bool.and_eq_true] at hlate
        simp [(hphi (l := []) rfl hlate.1).1] at hlate

/-- A well shaped function has no violations of the rules on blocks and arms. -/
theorem WellShaped.structureViolations (h : f.WellShaped) : f.structureViolations = [] := by
  rw [Function.structureViolations, List.append_eq_nil_iff, List.flatMap_eq_nil_iff,
    List.flatMap_eq_nil_iff]
  refine ⟨fun b hb => ?_, fun id hid => ?_⟩
  · obtain ⟨t, ht⟩ := h.terminated b (mem_blockIds.mp hb)
    rw [blockViolations, ht, orderViolations_eq_nil _ h.terminator_last fun hsplit hphi =>
      ⟨rfl, h.phi_first hsplit hphi⟩]
    rfl
  · unfold strayArms
    split
    · rename_i hslot
      rw [List.map_eq_nil_iff, List.filter_eq_nil_iff]
      intro a ha
      simpa using h.arm hid hslot rfl ha
    · rfl

/-- The rules on blocks and arms are not the rule on cycles. -/
theorem kind_of_mem_structureViolations {v : Violation} (hv : v ∈ f.structureViolations) :
    v.kind ≠ .circularDependency := by
  have horder : ∀ (label : String) (after : Bool) (ids : List InstId),
      v ∈ f.orderViolations label after ids → v.kind ≠ .circularDependency := by
    intro label after ids
    induction ids generalizing after with
    | nil => simp [orderViolations]
    | cons id ids ih =>
        intro hv
        rw [orderViolations, List.mem_append, List.mem_append] at hv
        rcases hv with (hv | hv) | hv
        · split at hv <;> simp_all
        · split at hv <;> simp_all
        · exact ih _ hv
  rw [Function.structureViolations, List.mem_append, List.mem_flatMap, List.mem_flatMap] at hv
  rcases hv with ⟨b, _, hv⟩ | ⟨id, _, hv⟩
  · rw [blockViolations, List.mem_append] at hv
    rcases hv with hv | hv
    · split at hv <;> simp_all
    · exact horder _ _ _ hv
  · unfold strayArms at hv
    split at hv
    · obtain ⟨a, _, rfl⟩ := List.mem_map.mp hv
      simp
    · cases hv

end Function

end Dataflow
