import Dataflow.Proofs.Transform.MergeRuns
import Dataflow.Proofs.Transform.Threading
import Dataflow.Transform.Pipeline

/-!
# Transformations keep the structure

A function is in order if its blocks end by leaving them to other blocks, its phis stand in front,
and each phi has arms, all of which name predecessors (`Function.InOrder`). A merge keeps a function
in order (`Merges.inOrder`), and so does threading (`Threads.inOrder`), so any number of
transformations does (`keepsStructure_transforms`). What stays of the first block is followed from
step to step (`Function.KeepsEntry`).
-/

namespace Dataflow

namespace Function

variable {f g k : Function} {b c l r : BlockId} {p t x : InstId} {bs : List BlockId}
  {front : List InstId} {σ : Operand → Operand} {phi : BlockId → Option InstId}

/-- Blocks and phis are in order: the invariant of all transformations. -/
structure InOrder (f : Function) : Prop extends f.Flows where
  phi_first : ∀ {b front id rest}, f.body b = front ++ id :: rest → f.isPhiAt id = true →
    ∀ x ∈ front, f.isPhiAt x = true
  arm : f.ArmsEnter

/-- A bound function that is well shaped is in order. -/
theorem Bound.inOrder (h : f.Bound) (hshaped : f.WellShaped) : f.InOrder where
  toFlows := h.flows hshaped
  phi_first := hshaped.phi_first
  arm := hshaped.armsEnter h.placed

namespace InOrder

variable (h : f.InOrder)

include h

/-- A function whose blocks and phis are in order is well shaped. -/
theorem wellShaped : f.WellShaped where
  terminated b hb := by
    obtain ⟨init, t, hend⟩ := h.ends hb
    exact ⟨t, hend.terminator?⟩
  terminator_last {b front id rest} hbody hterm := by
    have hid : id ∈ f.body b := by simp [hbody]
    have hb := lt_length_of_mem_body hid
    obtain ⟨init, t, hend⟩ := h.ends hb
    rcases List.eq_nil_or_concat' rest with rfl | ⟨rest, y, rfl⟩
    · rfl
    · -- control would leave before the last instruction
      have hsplit : init ++ [t] = (front ++ id :: rest) ++ [y] := by
        rw [← hend.body, hbody, List.append_assoc, List.cons_append]
      obtain ⟨rfl, _⟩ := List.append_inj' hsplit rfl
      rw [hend.stays id (by simp)] at hterm
      cases hterm
  phi_first := h.phi_first
  arm {id s ty arms a} hid hs hi ha := by
    obtain ⟨b, hb⟩ := mem_live.mp hid
    obtain ⟨s', hs', rfl⟩ := h.placed.slot hb
    rw [hs] at hs'
    cases hs'
    exact h.arm hb (by rw [instruction?, hs, Option.map_some, hi]) ha

/-- Every block that an instruction names exists. -/
theorem blockRefs_lt {i : Instruction} (hx : x ∈ f.body b) (hi : f.instruction? x = some i)
    (hc : c ∈ i.blockRefs) : c < f.blocks.length := by
  have hterm : i.isTerminator = true → c ∈ i.successors → c < f.blocks.length := by
    intro hleaves hsucc
    obtain ⟨front, rest, hsplit⟩ := List.append_of_mem hx
    -- control leaves only at the end of the block
    obtain rfl := h.wellShaped.terminator_last hsplit (by rw [hi]; exact hleaves)
    refine h.target (b := b) ?_
    rw [successors_eq_last, hsplit, List.getLast?_concat, Option.bind_some, hi]
    exact hsucc
  cases i with
  | jump target => exact hterm rfl hc
  | branch cond onTrue onFalse => exact hterm rfl hc
  | phi ty arms =>
      obtain ⟨a, ha, rfl⟩ := List.mem_map.mp hc
      exact (mem_predecessors.mp (h.arm hx hi ha)).1
  | _ => cases hc

end InOrder

/-! ## The first block -/

/-- What a step makes of the first block: it stays the first and keeps its label and those of its
instructions that are still in the program. -/
structure KeepsEntry (f g : Function) : Prop where
  pos : 0 < f.blocks.length → 0 < g.blocks.length
  label : g.labels.head? = f.labels.head?
  size : f.slots.length ≤ g.slots.length
  /-- An instruction that was taken out of the program does not come back. -/
  live : ∀ x ∈ g.live, x ∈ f.live ∨ f.slots.length ≤ x
  body : ∀ x ∈ f.body 0, x ∈ g.live → x ∈ g.body 0

namespace KeepsEntry

/-- A function keeps its own first block. -/
theorem refl (f : Function) : f.KeepsEntry f where
  pos hpos := hpos
  label := rfl
  size := Nat.le_refl _
  live _ hx := Or.inl hx
  body _ hx _ := hx

/-- What keeps the first block may be done in steps. -/
theorem trans (hf : f.Placed) (h : f.KeepsEntry g) (h' : g.KeepsEntry k) : f.KeepsEntry k where
  pos hpos := h'.pos (h.pos hpos)
  label := h'.label.trans h.label
  size := Nat.le_trans h.size h'.size
  live x hx := by
    rcases h'.live x hx with hx | hle
    · exact h.live x hx
    · exact Or.inr (Nat.le_trans h.size hle)
  body x hx hlive := by
    have hlt : x < g.slots.length := Nat.lt_of_lt_of_le (hf.lt_length hx) h.size
    have hmid : x ∈ g.live := (h'.live x hlive).resolve_right (Nat.not_le.mpr hlt)
    exact h'.body x (h.body x hx hmid) hlive

end KeepsEntry

/-! ## Merging -/

namespace Merges

variable (m : f.Merges g l r t front σ)

include m

/-- After a merge phis stand in front, as those of the appended block are gone. -/
theorem phi_first (h : f.InOrder) {rest : List InstId} {init : List InstId} {e : BlockId}
    (hbody : g.body e = init ++ p :: rest) (hp : g.isPhiAt p = true) :
    ∀ x ∈ init, g.isPhiAt x = true := by
  intro x hx
  have hlive : ∀ {y}, y ∈ g.body e → y ∈ g.live := mem_live_of_mem_body
  rw [m.isPhiAt_eq (hlive (by simp [hbody]))] at hp
  rw [m.isPhiAt_eq (hlive (by simp [hbody, hx]))]
  obtain ⟨c, hcr, rfl⟩ := exists_mergedIndex l r e
  by_cases hcl : c = l
  · subst hcl
    rw [m.body_merged] at hbody
    -- a phi among the instructions of the appended block would have been folded
    have hnot : p ∉ (f.body r).filter fun id => ¬ f.isPhiAt id := by simp [hp]
    rcases List.append_eq_append_iff.mp hbody with ⟨later, _, hafter⟩ | ⟨later, hfront, hafter⟩
    · exact absurd (by rw [hafter]; simp) hnot
    · cases later with
      | nil => exact absurd (by rw [← List.nil_append (List.filter _ _), ← hafter]; simp) hnot
      | cons q later =>
          obtain ⟨rfl, _⟩ := List.cons.inj hafter
          have hold : f.body c = init ++ p :: (later ++ [t]) := by
            rw [m.body_old, hfront, List.append_assoc, List.cons_append]
          exact h.phi_first hold hp x hx
  · rw [m.body c hcl hcr] at hbody
    exact h.phi_first hbody hp x hx

/-- A merge keeps blocks and phis in order. -/
theorem inOrder (h : f.InOrder) : g.InOrder where
  toFlows := m.flows h.toFlows
  phi_first := m.phi_first h
  arm := m.armsEnter h.toFlows h.arm

end Merges

/-- A merge keeps the first block: nothing is appended in front of it. -/
theorem keepsEntry_mergePair (h : f.Flows) (hpair : f.ChainPair l r t) :
    f.KeepsEntry (f.mergePair l r) := by
  obtain ⟨front, σ, m⟩ := h.merges hpair
  obtain ⟨hlabels, hsize⟩ := f.frame_mergePair (l := l) (r := r)
  have hr := h.lt_right hpair
  have hr0 := Nat.pos_of_ne_zero hpair.ne_entry
  refine ⟨fun _ => ?_, ?_, Nat.le_of_eq hsize.symm, fun x hx => ?_, fun x hx hlive => ?_⟩
  · rw [m.length]
    exact Nat.sub_pos_of_lt (Nat.lt_of_le_of_lt hr0 hr)
  · rw [hlabels, List.head?_eq_getElem?, List.head?_eq_getElem?, List.getElem?_eraseIdx, if_pos hr0]
  · obtain ⟨e, he⟩ := mem_live.mp hx
    obtain ⟨c, hc, _⟩ := m.mem_body he
    exact Or.inl (mem_live_of_mem_body hc)
  · obtain ⟨e, he⟩ := mem_live.mp hlive
    obtain ⟨c, hc, rfl, _⟩ := m.mem_body he
    rwa [h.placed.block_unique hc hx, mergedIndex_zero hpair.ne_entry] at he

/-- Merging pair by pair keeps a function in order. -/
theorem inOrder_mergePairs (h : f.InOrder) (bound : Nat) :
    (mergePairs bound f).1.InOrder ∧ f.KeepsEntry (mergePairs bound f).1 := by
  induction bound generalizing f with
  | zero => exact ⟨h, .refl f⟩
  | succ bound ih =>
      cases hpair : f.chainPair? with
      | none => simpa only [mergePairs, hpair] using ⟨h, .refl f⟩
      | some pair =>
          obtain ⟨l, r⟩ := pair
          obtain ⟨t, hchain⟩ := chainPair?_eq_some hpair
          obtain ⟨front, σ, m⟩ := h.merges hchain
          obtain ⟨horder, hentry⟩ := ih (m.inOrder h)
          simp only [mergePairs, hpair]
          exact ⟨horder, (keepsEntry_mergePair h.toFlows hchain).trans h.placed hentry⟩

/-! ## Threading -/

/-- `g` is `f` after instructions were put in front of blocks and others were changed in place. -/
inductive Revised (f : Function) : Function → Prop where
  | refl : Revised f f
  | insert {g b name i} : Revised f g → b < g.blocks.length → Revised f (g.insert b 0 name i)
  | setInstruction {g id i} : Revised f g → Revised f (g.setInstruction id i)
  | setName {g id name} : Revised f g → Revised f (g.setName id name)

namespace Revised

/-- Revising keeps the labels. -/
theorem labels (h : f.Revised g) : g.labels = f.labels := by
  induction h with
  | refl => rfl
  | insert _ _ ih => rw [labels_insert, ih]
  | setInstruction _ ih => exact ih
  | setName _ ih => exact ih

theorem length (h : f.Revised g) : g.blocks.length = f.blocks.length := by
  rw [← length_labels, h.labels, length_labels]

/-- Revising loses no instruction. -/
theorem size (h : f.Revised g) : f.slots.length ≤ g.slots.length := by
  induction h with
  | refl => exact Nat.le_refl _
  | insert _ _ ih =>
      rw [slots_insert, List.length_append]
      exact Nat.le_add_right_of_le ih
  | setInstruction _ ih => rwa [size_setInstruction]
  | setName _ ih => rwa [size_setName]

/-- Revising keeps instructions in their blocks. -/
theorem placed (h : f.Revised g) (hf : f.Placed) : g.Placed := by
  induction h with
  | refl => exact hf
  | insert _ hb ih => exact ih.insert hb (Nat.zero_le _) _ _
  | setInstruction _ ih => exact ih.setInstruction _
  | setName _ ih => exact ih.setName _

/-- Phis in front of blocks revise a function. -/
theorem addTokenPhis (h : f.Revised g) (hbs : ∀ b ∈ bs, b < f.blocks.length) :
    f.Revised (addTokenPhis bs g).1 := by
  induction bs generalizing g with
  | nil => exact h
  | cons b bs ih =>
      have hb : b < g.blocks.length := h.length ▸ hbs b List.mem_cons_self
      exact ih (.insert h hb) fun c hc => hbs c (List.mem_cons_of_mem _ hc)

/-- A step at an instruction revises it. -/
theorem step {s : MemoryToken.State} (h : f.Revised s.function) :
    f.Revised (s.step x).function := by
  unfold MemoryToken.State.step
  split
  · exact h.setInstruction
  · exact h.setName.setInstruction
  · exact h

/-- Threading blocks revises it. -/
theorem threadBlocks {phis : List (BlockId × InstId)} (h : f.Revised g) :
    f.Revised (threadBlocks phis bs g).1 := by
  induction bs generalizing g with
  | nil => exact h
  | cons b bs ih =>
      have hrun : ∀ (ids : List InstId) (s : MemoryToken.State), f.Revised s.function →
          f.Revised (ids.foldl MemoryToken.State.step s).function := by
        intro ids
        induction ids with
        | nil => exact fun _ hs => hs
        | cons x ids ih => exact fun s hs => ih (s.step x) hs.step
      exact ih (hrun (g.body b) _ h)

/-- Filling phis revises it. -/
theorem fillTokenPhis {tokens : List (BlockId × Operand)} {phis : List (BlockId × InstId)}
    (h : f.Revised g) : f.Revised (phis.foldl (fillTokenPhi tokens) g) := by
  induction phis generalizing g with
  | nil => exact h
  | cons phi phis ih => exact ih (.setInstruction h)

end Revised

/-- Threading only puts phis in front of blocks and changes instructions in place. -/
theorem revised_threadMemory (f : Function) : f.Revised f.threadMemory.function := by
  unfold threadMemory
  split
  · exact .refl
  · have hbs : ∀ b ∈ f.tokenBlocks, b < f.blocks.length := fun b hb => (mem_tokenBlocks.mp hb).1
    exact (Revised.refl.addTokenPhis hbs).threadBlocks.fillTokenPhis

theorem isPhi_tie {i : Instruction} {token : Operand} : (i.tie token).isPhi = i.isPhi := by
  cases i <;> rfl

theorem isTerminator_tie {i : Instruction} {token : Operand} :
    (i.tie token).isTerminator = i.isTerminator := by
  cases i <;> rfl

namespace Threads

variable (ht : f.Threads g phi)

include ht

/-- An old instruction has the properties it had that a tie does not change. -/
theorem any_instruction (hx : x ∈ f.body b) {q : Instruction → Bool}
    (hq : ∀ (i : Instruction) token, q (i.tie token) = q i) :
    (g.instruction? x).any q = (f.instruction? x).any q := by
  obtain ⟨done, after, hsplit⟩ := List.append_of_mem hx
  rw [ht.tied hsplit]
  cases f.instruction? x with
  | none => rfl
  | some i => exact hq i _

/-- An instruction of a block is a phi after threading when it was one before. -/
theorem isPhiAt (hx : x ∈ f.body b) : g.isPhiAt x = f.isPhiAt x :=
  ht.any_instruction hx fun _ _ => isPhi_tie

/-- A phi is a new one or was one before, with the same arms. -/
theorem phi_cases {ty : Ty} {arms : List Arm} (hx : x ∈ g.body b)
    (hi : g.instruction? x = some (.phi ty arms)) :
    phi b = some x ∨ x ∈ f.body b ∧ f.instruction? x = some (.phi ty arms) := by
  rw [ht.body, List.mem_append, Option.mem_toList] at hx
  refine hx.imp_right fun hx => ⟨hx, ?_⟩
  obtain ⟨done, after, hsplit⟩ := List.append_of_mem hx
  rw [ht.tied hsplit] at hi
  obtain ⟨i, hi, htie⟩ := Option.map_eq_some_iff.mp hi
  cases i with
  | phi ty' arms' => rw [hi, ← htie]; rfl
  | _ => cases htie

/-- A block still ends in its terminator. -/
theorem ends (h : f.Flows) (hb : b < f.blocks.length) : ∃ init t, g.EndsIn b init t := by
  obtain ⟨init, t, hend⟩ := h.ends hb
  have hbody := hend.body
  refine ⟨(phi b).toList ++ init, t, by rw [ht.body, hbody, List.append_assoc], ?_, fun x hx => ?_⟩
  · rw [ht.any_instruction (b := b) (by simp [hbody]) fun _ _ => isTerminator_tie]
    exact hend.leaves
  · rcases List.mem_append.mp hx with hx | hx
    · rw [ht.arms (Option.mem_toList.mp hx)]
      rfl
    · rw [ht.any_instruction (b := b) (by simp [hbody, hx]) fun _ _ => isTerminator_tie]
      exact hend.stays x hx

/-- Blocks have the same predecessors. -/
theorem predecessors : g.predecessors b = f.predecessors b :=
  predecessors_congr ht.length ht.successors

/-- Phis still come first, the new one in front of the old ones. -/
theorem phi_first (h : f.InOrder) {init rest : List InstId}
    (hbody : g.body b = init ++ p :: rest) (hp : g.isPhiAt p = true) :
    ∀ x ∈ init, g.isPhiAt x = true := by
  intro x hx
  have hold : ∀ {y}, y ∈ f.body b → g.isPhiAt y = f.isPhiAt y := ht.isPhiAt
  rw [ht.body] at hbody
  cases hphi : phi b with
  | none =>
      rw [hphi, Option.toList_none, List.nil_append] at hbody
      rw [hold (by simp [hbody])] at hp
      rw [hold (by simp [hbody, hx])]
      exact h.phi_first hbody hp x hx
  | some q =>
      rw [hphi, Option.toList_some, List.singleton_append] at hbody
      cases init with
      | nil => cases hx
      | cons y init =>
          obtain ⟨rfl, hrest⟩ := List.cons.inj hbody
          rcases List.mem_cons.mp hx with rfl | hx
          · simp [Function.isPhiAt, ht.arms hphi, Instruction.isPhi]
          · rw [hold (by simp [hrest])] at hp
            rw [hold (by simp [hrest, hx])]
            exact h.phi_first hrest hp x hx

/-- Threading keeps a function in order. -/
theorem inOrder (hplaced : g.Placed) (h : f.InOrder) : g.InOrder where
  placed := hplaced
  ends hb := ht.ends h.toFlows (ht.length ▸ hb)
  target {b c} hc := by
    rw [ht.length]
    rw [ht.successors] at hc
    exact h.target hc
  armed {x b ty arms} hx hi := by
    rcases ht.phi_cases hx hi with hp | ⟨hx, hi⟩
    · rw [ht.arms hp] at hi
      cases hi
      simpa using ht.entered hp
    · exact h.armed hx hi
  phi_first := ht.phi_first h
  arm {x b ty arms a} hx hi ha := by
    rw [ht.predecessors]
    rcases ht.phi_cases hx hi with hp | ⟨hx, hi⟩
    · rw [ht.arms hp] at hi
      cases hi
      obtain ⟨q, hq, rfl⟩ := List.mem_map.mp ha
      exact hq
    · exact h.arm hx hi ha

end Threads

/-- Threading keeps blocks and phis in order, and the first block. -/
theorem inOrder_threadMemory (h : f.InOrder) : f.threadMemory.function.InOrder ∧
    f.KeepsEntry f.threadMemory.function := by
  obtain ⟨phi, ht⟩ := threads_threadMemory h.placed
  have hrev := f.revised_threadMemory
  refine ⟨ht.inOrder (hrev.placed h.placed) h, ⟨fun hpos => ?_, ?_, hrev.size, fun x hx => ?_,
    fun x hx _ => ?_⟩⟩
  · rwa [hrev.length]
  · rw [hrev.labels]
  · obtain ⟨b, hb⟩ := mem_live.mp hx
    rw [ht.body, List.mem_append, Option.mem_toList] at hb
    exact hb.symm.imp mem_live_of_mem_body ht.new
  · rw [ht.body]
    exact List.mem_append_right _ hx

/-! ## Any number of transformations -/

/-- A transformation keeps blocks and phis in order, and the first block. -/
theorem inOrder_transform (h : f.InOrder) (options : TransformOptions) :
    (f.transform options).function.InOrder ∧ f.KeepsEntry (f.transform options).function := by
  have hmerge : ∀ wanted : Bool, ((⟨f, false, []⟩ : Change).andThen wanted
      mergeChains).function.InOrder ∧
      f.KeepsEntry ((⟨f, false, []⟩ : Change).andThen wanted mergeChains).function := by
    intro wanted
    cases wanted with
    | false => exact ⟨h, .refl f⟩
    | true =>
        simp only [Change.andThen, if_true, mergeChains_function]
        exact inOrder_mergePairs h f.blocks.length
  obtain ⟨horder, hentry⟩ := hmerge options.mergeChains
  rw [transform]
  cases options.threadMemory with
  | false => exact ⟨horder, hentry⟩
  | true =>
      obtain ⟨horder', hentry'⟩ := inOrder_threadMemory horder
      exact ⟨horder', hentry.trans h.placed hentry'⟩

/-- The function after transformations with each of the given options, one after another. -/
def transforms (f : Function) (runs : List TransformOptions) : Function :=
  runs.foldl (fun g options => (g.transform options).function) f

/-- So does any sequence of transformations. -/
theorem inOrder_transforms (h : f.InOrder) (runs : List TransformOptions) :
    (f.transforms runs).InOrder ∧ f.KeepsEntry (f.transforms runs) := by
  induction runs generalizing f with
  | nil => exact ⟨h, .refl f⟩
  | cons options runs ih =>
      obtain ⟨horder, hentry⟩ := inOrder_transform h options
      obtain ⟨horder', hentry'⟩ := ih horder
      exact ⟨horder', hentry.trans h.placed hentry'⟩

/-- A check finds nothing wrong with blocks and arms. Whether it finds circular dependencies is left
open. -/
def Structured (f : Function) : Prop := ∀ v ∈ f.violations, v.kind = .circularDependency

/-- A function is structured when no rule about blocks and arms is broken. -/
theorem structured_iff : f.Structured ↔ f.structureViolations = [] := by
  constructor
  · intro h
    refine List.eq_nil_iff_forall_not_mem.mpr fun v hv => ?_
    exact kind_of_mem_structureViolations hv (h v (List.mem_append_left _ hv))
  · intro h v hv
    rw [violations, h, List.nil_append] at hv
    obtain ⟨cycle, _, rfl⟩ := List.mem_map.mp hv
    rfl

/-- Function `g` came from `f` with its structure kept. -/
structure KeepsStructure (f g : Function) : Prop where
  /-- A check finds nothing wrong with blocks and arms. -/
  structured : g.Structured
  /-- An instruction of the program stands once in the block that its slot names, and nowhere
  else. -/
  listed : ∀ x ∈ g.live, ∃ s, g.slots[x]? = some s ∧
    ∀ b, (g.body b).count x = if b = s.block then 1 else 0
  /-- Every block that an instruction of the program names exists. -/
  blockRefs_lt : ∀ x ∈ g.live, ∀ i, g.instruction? x = some i → ∀ b ∈ i.blockRefs,
    b < g.blocks.length
  /-- The first block is still the first. -/
  entry : g.entry? = some 0
  /-- It has the label it had. -/
  label : g.blockName 0 = f.blockName 0
  /-- It has the instructions it had, as far as they are in the program. -/
  body : ∀ x ∈ f.body 0, x ∈ g.live → x ∈ g.body 0
  /-- Every phi has an arm. -/
  armed : ∀ x ∈ g.live, ∀ ty arms, g.instruction? x = some (.phi ty arms) → arms ≠ []

/-- An instruction of the program is in its block once and in no other. -/
theorem Placed.count (h : f.Placed) (hx : x ∈ f.live) : ∃ s, f.slots[x]? = some s ∧
    ∀ b, (f.body b).count x = if b = s.block then 1 else 0 := by
  obtain ⟨c, hc⟩ := mem_live.mp hx
  obtain ⟨s, hs, rfl⟩ := h.slot hc
  refine ⟨s, hs, fun b => ?_⟩
  split
  · rename_i hb
    rw [hb]
    exact List.count_eq_one_of_mem (h.nodup _) hc
  · rename_i hb
    exact List.count_eq_zero.mpr fun hmem => hb (h.block_unique hmem hc)

end Function

/-- Transformations keep the structure of a function that was read and in which a check finds
nothing wrong with blocks and arms. -/
theorem keepsStructure_transforms {text : String} {source : Module} {f : Function}
    (hread : Module.read text = .ok source) (hf : f ∈ source.functions) (h : f.Structured)
    (runs : List TransformOptions) : f.KeepsStructure (f.transforms runs) := by
  have hshaped := Function.wellShaped_of_structureViolations (Function.structured_iff.mp h)
  obtain ⟨horder, hentry⟩ :=
    Function.inOrder_transforms ((Module.read_bound hread hf).inOrder hshaped) runs
  have hpos := hentry.pos (Module.read_blocks_pos hread hf)
  refine ⟨Function.structured_iff.mpr horder.wellShaped.structureViolations,
    fun x hx => horder.placed.count hx, fun x hx i hi b hb => ?_, Function.entry?_of_lt hpos, ?_,
    hentry.body, fun x hx ty arms hi => ?_⟩
  · obtain ⟨c, hc⟩ := Function.mem_live.mp hx
    exact horder.blockRefs_lt hc hi hb
  · rw [Function.blockName_eq, Function.blockName_eq, ← List.head?_eq_getElem?,
      ← List.head?_eq_getElem?, hentry.label]
  · obtain ⟨c, hc⟩ := Function.mem_live.mp hx
    exact horder.armed hc hi

/-- A loop that stores its counter, with a block in it that can be appended to the one before. -/
def storingLoop : Function where
  name := "f"
  ret := .int 32
  params := [⟨"p", .ptr⟩, ⟨"n", .int 32⟩]
  blocks := [⟨"entry", [0]⟩, ⟨"head", [1, 2, 3]⟩, ⟨"body", [4, 5]⟩, ⟨"latch", [6, 7]⟩,
    ⟨"exit", [8, 9]⟩]
  slots := [
    ⟨none, .jump 1, 0⟩,
    ⟨some "i", .phi (.int 32) [⟨.const ⟨.int 32, "0"⟩, 0⟩, ⟨.result 6, 3⟩], 1⟩,
    ⟨some "go", .compare (.int .slt) (.int 32) (.result 1) (.param 1), 1⟩,
    ⟨none, .branch (.result 2) 2 4, 1⟩,
    ⟨none, .store ⟨.int 32, .result 1⟩ ⟨.ptr, .param 0⟩, 2⟩,
    ⟨none, .jump 3, 2⟩,
    ⟨some "j", .binary .add (.int 32) (.result 1) (.const ⟨.int 32, "1"⟩), 3⟩,
    ⟨none, .jump 1, 3⟩,
    ⟨some "r", .load (.int 32) ⟨.ptr, .param 0⟩, 4⟩,
    ⟨none, .ret (some ⟨.int 32, .result 8⟩), 4⟩]

/-- The text of `storingLoop`. -/
def storingLoopText : String :=
  "define i32 @f(ptr %p, i32 %n) \x7b\nentry:\n  br label %head\nhead:\n" ++
    "  %i = phi i32 [ 0, %entry ], [ %j, %latch ]\n  %go = icmp slt i32 %i, %n\n" ++
    "  br i1 %go, label %body, label %exit\nbody:\n  store i32 %i, ptr %p\n  br label %latch\n" ++
    "latch:\n  %j = add i32 %i, 1\n  br label %head\nexit:\n  %r = load i32, ptr %p\n" ++
    "  ret i32 %r\n\x7d\n"

theorem read_storingLoop : Module.read storingLoopText = .ok ⟨[storingLoop]⟩ := by
  decide +kernel

/-- Merging and threading, and then both again one after the other. -/
theorem keepsStructure_transforms_storingLoop :
    storingLoop.Structured ∧
      storingLoop.KeepsStructure
        (storingLoop.transforms [⟨true, true⟩, ⟨true, false⟩, ⟨false, true⟩]) := by
  have hstructured : storingLoop.Structured := Function.structured_iff.mpr (by decide +kernel)
  exact ⟨hstructured, keepsStructure_transforms read_storingLoop List.mem_cons_self hstructured _⟩

end Dataflow
