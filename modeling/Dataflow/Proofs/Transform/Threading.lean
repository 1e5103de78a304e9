import Dataflow.Proofs.Ssa.Edit
import Dataflow.Transform.MemoryToken
import Mathlib.Data.List.Induction

/-!
# What threading makes of a function

`Function.Threads` tells what `threadMemory` does without its three sweeps over the blocks: which
blocks start with a phi for the token, which token each load and store is tied to, and which tokens
the arms of the phis take. `threads_threadMemory` is proved sweep by sweep (`addsPhis_addTokenPhis`,
`tiesBlocks_threadBlocks`, `fillsPhis_foldl`).
-/

namespace Dataflow

namespace Instruction

/-- Whether an instruction reads memory. -/
def isLoad : Instruction → Bool
  | load _ _ => true
  | _ => false

/-- Whether an instruction writes memory. -/
def isStore : Instruction → Bool
  | store _ _ => true
  | _ => false

/-- What becomes of an instruction where `token` is the token. -/
def tie (token : Operand) : Instruction → Instruction
  | load ty address =>
    call ty (.function s!"{MemoryToken.loadCallee}.{ty.text}") [address, ⟨.bool, token⟩]
  | store value address =>
    call .bool (.function s!"{MemoryToken.storeCallee}.{value.ty.text}") [address, value]
  | other => other

variable {i : Instruction} {token : Operand}

@[simp] theorem successors_tie : (i.tie token).successors = i.successors := by
  cases i <;> rfl

end Instruction

namespace Function

open MemoryToken

variable {f g h : Function} {b c : BlockId} {p x y : InstId} {ids done after : List InstId}
  {start token : Operand} {s : State}

/-- Whether instruction `x` reads memory. -/
def loadsAt (f : Function) (x : InstId) : Bool := (f.instruction? x).any (·.isLoad)

/-- Whether instruction `x` writes memory. -/
def storesAt (f : Function) (x : InstId) : Bool := (f.instruction? x).any (·.isStore)

/-- Whether a number stands for a load depends on its instruction only. -/
theorem loadsAt_congr (h : g.instruction? x = f.instruction? x) : g.loadsAt x = f.loadsAt x := by
  rw [loadsAt, loadsAt, h]

/-- So does whether it stands for a store. -/
theorem storesAt_congr (h : g.instruction? x = f.instruction? x) :
    g.storesAt x = f.storesAt x := by
  rw [storesAt, storesAt, h]

/-- The token after the instructions `done`, if `start` is the token before them. -/
def tokenAfter (f : Function) (start : Operand) (done : List InstId) : Operand :=
  (done.reverse.find? f.storesAt).elim start .result

@[simp] theorem tokenAfter_nil : f.tokenAfter start [] = start := rfl

/-- After a store the token is the store, and after anything else it is what it was. -/
theorem tokenAfter_concat : f.tokenAfter start (done ++ [x]) =
    if f.storesAt x then .result x else f.tokenAfter start done := by
  simp only [tokenAfter, List.reverse_append, List.reverse_singleton, List.singleton_append,
    List.find?_cons]
  cases f.storesAt x <;> rfl

/-- The token after two runs of instructions is that after the second, from the token of the
first. -/
theorem tokenAfter_append : f.tokenAfter start (done ++ after) =
    f.tokenAfter (f.tokenAfter start done) after := by
  induction after using List.reverseRecOn with
  | nil => rw [List.append_nil, tokenAfter_nil]
  | append_singleton after x ih =>
      rw [← List.append_assoc, tokenAfter_concat, tokenAfter_concat, ih]

/-- The token depends on the instructions it passes only. -/
theorem tokenAfter_congr (hsame : ∀ x ∈ done, g.instruction? x = f.instruction? x) :
    g.tokenAfter start done = f.tokenAfter start done := by
  induction done using List.reverseRecOn with
  | nil => rfl
  | append_singleton done x ih =>
      rw [tokenAfter_concat, tokenAfter_concat, ih fun y hy => hsame y (by simp [hy]),
        storesAt_congr (hsame x (by simp))]

/-! ## One instruction -/

theorem slots_setName_of_ne {name : Option String} (hx : y ≠ x) :
    (f.setName x name).slots[y]? = f.slots[y]? := by
  simp [setName, hx.symm]

theorem slots_setInstruction_of_ne {i : Instruction} (hx : y ≠ x) :
    (f.setInstruction x i).slots[y]? = f.slots[y]? := by
  simp [setInstruction, hx.symm]

/-- A step leaves the blocks as they are. -/
theorem blocks_step : (s.step x).function.blocks = s.function.blocks := by
  unfold State.step
  split <;> rfl

theorem params_step : (s.step x).function.params = s.function.params := by
  unfold State.step
  split <;> rfl

theorem size_step : (s.step x).function.slots.length = s.function.slots.length := by
  unfold State.step
  split <;> simp [setInstruction, setName]

/-- Tying an instruction leaves the other slots alone. -/
theorem slots_step_of_ne (hx : y ≠ x) :
    (s.step x).function.slots[y]? = s.function.slots[y]? := by
  unfold State.step
  split
  · exact slots_setInstruction_of_ne hx
  · exact (slots_setInstruction_of_ne hx).trans (slots_setName_of_ne hx)
  · rfl

/-- A step does nothing for an instruction that is no memory access. -/
theorem step_of_not_memory (hload : s.function.loadsAt x = false)
    (hstore : s.function.storesAt x = false) : s.step x = s := by
  unfold State.step
  split
  · rename_i hi
    simp [loadsAt, hi, Instruction.isLoad] at hload
  · rename_i hi
    simp [storesAt, hi, Instruction.isStore] at hstore
  · rfl

/-- A step ties its instruction to the current token. -/
theorem instruction?_step :
    (s.step x).function.instruction? x = (s.function.instruction? x).map (·.tie s.token) := by
  unfold State.step
  split
  · rename_i hi
    simp [instruction?_setInstruction, hi, Instruction.tie]
  · rename_i hi
    simp [instruction?_setInstruction, hi, Instruction.tie]
  · rename_i hload hstore
    cases hi : s.function.instruction? x with
    | none => rfl
    | some i =>
        cases i with
        | load ty address => exact absurd hi (hload ty address)
        | store value address => exact absurd hi (hstore value address)
        | _ => rfl

/-- A step at a store makes the store the token. -/
theorem token_step :
    (s.step x).token = if s.function.storesAt x then .result x else s.token := by
  unfold State.step storesAt
  split
  · rename_i hi
    simp [hi, Instruction.isStore]
  · rename_i hi
    simp [hi, Instruction.isStore]
  · rename_i hstore
    cases hi : s.function.instruction? x with
    | none => rfl
    | some i =>
        cases i with
        | store value address => exact absurd hi (hstore value address)
        | _ => rfl

/-! ## One block -/

/-- What tying the instructions `ids` to tokens makes of `h`, from the token `start` on. -/
structure Ties (h : Function) (start : Operand) (ids : List InstId) (s : State) : Prop where
  params : s.function.params = h.params
  size : s.function.slots.length = h.slots.length
  blocks : s.function.blocks = h.blocks
  token : s.token = h.tokenAfter start ids
  other : ∀ {x}, x ∉ ids → s.function.slots[x]? = h.slots[x]?
  plain : ∀ {x}, h.loadsAt x = false → h.storesAt x = false → s.function.slots[x]? = h.slots[x]?
  tied : ∀ {done x after}, ids = done ++ x :: after →
    s.function.instruction? x = (h.instruction? x).map (·.tie (h.tokenAfter start done))

/-- Tying the instructions of a block one by one ties each to the token before it. -/
theorem ties_foldl (hnodup : ids.Nodup) (count : Nat) :
    h.Ties start ids (ids.foldl State.step { function := h, token := start, count := count }) := by
  induction ids using List.reverseRecOn with
  | nil => exact ⟨rfl, rfl, rfl, rfl, fun _ => rfl, fun _ _ => rfl, fun hnil => by simp at hnil⟩
  | append_singleton done x ih =>
      rw [List.nodup_append] at hnodup
      obtain ⟨hnodup, -, hdisjoint⟩ := hnodup
      have hx : x ∉ done := fun hmem => hdisjoint x hmem x (by simp) rfl
      have ht := ih hnodup
      rw [List.foldl_concat]
      generalize done.foldl State.step { function := h, token := start, count := count } = s at ht
      -- only instructions before `x` were tied so far, so `x` is as it was
      have hsame : s.function.instruction? x = h.instruction? x := instruction?_congr (ht.other hx)
      have hstores := storesAt_congr hsame
      have hloads := loadsAt_congr hsame
      refine ⟨params_step.trans ht.params, size_step.trans ht.size, blocks_step.trans ht.blocks,
        ?_, fun {y} hy => ?_, fun {y} hload hstore => ?_, fun {front y rest} hsplit => ?_⟩
      · rw [token_step, hstores, ht.token, tokenAfter_concat]
      · rw [List.mem_append, List.mem_singleton, not_or] at hy
        rw [slots_step_of_ne hy.2, ht.other hy.1]
      · by_cases hyx : y = x
        · subst hyx
          rw [step_of_not_memory (hloads.trans hload) (hstores.trans hstore), ht.other hx]
        · rw [slots_step_of_ne hyx, ht.plain hload hstore]
      · -- `y` is the instruction that was tied last, or one before it
        rcases List.eq_nil_or_concat' rest with rfl | ⟨rest, z, rfl⟩
        · obtain ⟨rfl, heq⟩ := List.append_inj' hsplit rfl
          cases heq
          rw [instruction?_step, hsame, ht.token]
        · rw [← List.cons_append, ← List.append_assoc] at hsplit
          obtain ⟨rfl, heq⟩ := List.append_inj' hsplit rfl
          cases heq
          have hyx : y ≠ x := by
            intro heq
            subst heq
            exact hx (by simp)
          rw [instruction?_congr (slots_step_of_ne hyx), ht.tied rfl]

/-! ## All blocks -/

theorem body_congr (hblocks : g.blocks = f.blocks) : g.body c = f.body c := by
  rw [body, body, hblocks]

/-- What tying the blocks `bs` to tokens makes of `h`, where `first` gives the tokens they start
with. -/
structure TiesBlocks (h : Function) (first : BlockId → Operand) (bs : List BlockId) (g : Function)
    (tokens : List (BlockId × Operand)) : Prop where
  params : g.params = h.params
  size : g.slots.length = h.slots.length
  blocks : g.blocks = h.blocks
  token : ∀ {b}, b ∈ bs → tokens.lookup b = some (h.tokenAfter (first b) (h.body b))
  other : ∀ {x}, (∀ b ∈ bs, x ∉ h.body b) → g.slots[x]? = h.slots[x]?
  plain : ∀ {x}, h.loadsAt x = false → h.storesAt x = false → g.slots[x]? = h.slots[x]?
  tied : ∀ {b done x after}, b ∈ bs → h.body b = done ++ x :: after →
    g.instruction? x = (h.instruction? x).map (·.tie (h.tokenAfter (first b) done))

/-- Threading block after block ties every block, since no instruction is in two of them. -/
theorem tiesBlocks_threadBlocks (phis : List (BlockId × InstId)) {bs : List BlockId}
    (hbs : bs.Nodup) (hnodup : ∀ b, (h.body b).Nodup)
    (hunique : ∀ {x b c}, x ∈ h.body b → x ∈ h.body c → b = c) :
    h.TiesBlocks (firstToken phis) bs (threadBlocks phis bs h).1 (threadBlocks phis bs h).2.1 := by
  induction bs generalizing h with
  | nil =>
      exact ⟨rfl, rfl, rfl, fun hb => absurd hb List.not_mem_nil, fun _ => rfl, fun _ _ => rfl,
        fun hb => absurd hb List.not_mem_nil⟩
  | cons b bs ih =>
      obtain ⟨hb, hbs⟩ := List.nodup_cons.mp hbs
      have ht : h.Ties (firstToken phis b) (h.body b) _ := ties_foldl (hnodup b) 0
      rw [threadBlocks]
      generalize (h.body b).foldl State.step
        { function := h, token := firstToken phis b, count := 0 } = s at ht
      have hbody : ∀ c, s.function.body c = h.body c := fun c => body_congr ht.blocks
      have hrest := ih (h := s.function) hbs (fun c => by rw [hbody]; exact hnodup c)
        fun {x c d} hc hd => hunique (hbody c ▸ hc) (hbody d ▸ hd)
      generalize threadBlocks phis bs s.function = result at hrest
      obtain ⟨g, tokens, count⟩ := result
      -- the other blocks list none of the instructions tied so far
      have hsame : ∀ {c}, c ∈ bs → ∀ x ∈ h.body c, s.function.slots[x]? = h.slots[x]? := by
        intro c hc x hx
        refine ht.other fun hxb => hb ?_
        rwa [hunique hxb hx]
      have hinst : ∀ {c}, c ∈ bs → ∀ x ∈ h.body c, s.function.instruction? x = h.instruction? x :=
        fun hc x hx => instruction?_congr (hsame hc x hx)
      refine ⟨hrest.params.trans ht.params, hrest.size.trans ht.size,
        hrest.blocks.trans ht.blocks, fun {c} hc => ?_, fun {x} hx => ?_,
        fun {x} hload hstore => ?_, fun {c done x after} hc hsplit => ?_⟩
      · rcases List.mem_cons.mp hc with rfl | hcs
        · rw [List.lookup_cons_self, ht.token]
        · have hcb : (c == b) = false := by
            rw [beq_eq_false_iff_ne]
            intro heq
            subst heq
            exact hb hcs
          rw [List.lookup_cons, hcb, hrest.token hcs, hbody, tokenAfter_congr (hinst hcs)]
      · rw [hrest.other fun c hc => by rw [hbody]; exact hx c (List.mem_cons_of_mem _ hc),
          ht.other (hx b List.mem_cons_self)]
      · have hslot := ht.plain hload hstore
        rw [← hslot]
        have hinst := instruction?_congr hslot
        exact hrest.plain ((loadsAt_congr hinst).trans hload) ((storesAt_congr hinst).trans hstore)
      · have hx : x ∈ h.body c := by simp [hsplit]
        rcases List.mem_cons.mp hc with rfl | hcs
        · have hother : ∀ d ∈ bs, x ∉ s.function.body d := by
            intro d hd hxd
            rw [hbody] at hxd
            rw [hunique hx hxd] at hb
            exact hb hd
          rw [instruction?_congr (hrest.other hother), ht.tied hsplit]
        · rw [hrest.tied hcs ((hbody c).trans hsplit), hinst hcs x hx]
          rw [tokenAfter_congr fun y hy => hinst hcs y (by simp [hsplit, hy])]

/-! ## The phis for the token -/

/-- What giving each of the blocks `bs` a phi for the token makes of `f`. The phis take the next
numbers. -/
structure AddsPhis (f : Function) (bs : List BlockId) (g : Function)
    (phis : List (BlockId × InstId)) : Prop where
  params : g.params = f.params
  size : g.slots.length = f.slots.length + bs.length
  numbered : phis = bs.zipIdx f.nextId
  length : g.blocks.length = f.blocks.length
  body : ∀ b, g.body b = (phis.lookup b).toList ++ f.body b
  old : ∀ {x}, x < f.slots.length → g.slots[x]? = f.slots[x]?
  new : ∀ {b p}, (b, p) ∈ phis → g.instruction? p = some (.phi .bool [])

theorem slots_insert_of_lt {position : Nat} {name : Option String} {i : Instruction}
    (hx : x < f.slots.length) : (f.insert b position name i).slots[x]? = f.slots[x]? := by
  rw [slots_insert, List.getElem?_append_left hx]

theorem lookup_zipIdx_of_not_mem {bs : List BlockId} {n : Nat} (hb : b ∉ bs) :
    (bs.zipIdx n).lookup b = none := by
  rw [List.lookup_eq_none_iff]
  intro hex hmem
  obtain ⟨c, p⟩ := hex
  rw [bne_iff_ne]
  intro heq
  subst heq
  exact hb (List.fst_mem_of_mem_zipIdx hmem)

/-- Each block in turn gets a phi with the next number. -/
theorem addsPhis_addTokenPhis {bs : List BlockId} (hbs : bs.Nodup)
    (hlt : ∀ b ∈ bs, b < f.blocks.length) :
    f.AddsPhis bs (addTokenPhis bs f).1 (addTokenPhis bs f).2 := by
  induction bs generalizing f with
  | nil =>
      exact ⟨rfl, rfl, rfl, rfl, fun _ => rfl, fun _ => rfl, fun hb => absurd hb List.not_mem_nil⟩
  | cons b bs ih =>
      obtain ⟨hb, hbs⟩ := List.nodup_cons.mp hbs
      have hslots : (f.addTokenPhi b).slots.length = f.slots.length + 1 := by simp [addTokenPhi]
      have hrest := ih (f := f.addTokenPhi b) hbs fun c hc => by
        rw [addTokenPhi, length_blocks_insert]
        exact hlt c (List.mem_cons_of_mem _ hc)
      rw [addTokenPhis]
      generalize addTokenPhis bs (f.addTokenPhi b) = result at hrest
      obtain ⟨g, phis⟩ := result
      have hrest : (f.addTokenPhi b).AddsPhis bs g phis := hrest
      show f.AddsPhis (b :: bs) g ((b, f.nextId) :: phis)
      -- the other blocks take later numbers, and none of them is `b`
      refine ⟨hrest.params, ?_, ?_, hrest.length.trans (length_blocks_insert _ _ _), fun c => ?_,
        fun {x} hx => ?_, fun {c p} hp => ?_⟩
      · rw [hrest.size, hslots, List.length_cons, Nat.add_assoc, Nat.add_comm 1]
      · rw [hrest.numbered, List.zipIdx_cons, nextId, nextId, hslots]
      · rw [hrest.body, addTokenPhi, body_insert (hlt b List.mem_cons_self), List.lookup_cons]
        by_cases hcb : c = b
        · subst hcb
          rw [hrest.numbered, lookup_zipIdx_of_not_mem hb]
          simp
        · rw [if_neg hcb, beq_false_of_ne hcb]
      · rw [hrest.old (by rw [hslots]; exact Nat.lt_succ_of_lt hx), addTokenPhi,
          slots_insert_of_lt hx]
      · rcases List.mem_cons.mp hp with heq | hp
        · cases heq
          rw [instruction?_congr (hrest.old (by rw [hslots]; exact Nat.lt_succ_self _)),
            addTokenPhi, instruction?_insert, if_pos rfl]
        · exact hrest.new hp

/-! ## The arms of the phis -/

/-- Filling a phi changes no other instruction. -/
theorem instruction?_fillTokenPhi {tokens : List (BlockId × Operand)} {phi : BlockId × InstId}
    (hx : x ≠ phi.2) : (fillTokenPhi tokens f phi).instruction? x = f.instruction? x := by
  rw [fillTokenPhi, instruction?_setInstruction, if_neg hx]

/-- Giving a phi arms keeps the ways between blocks. -/
theorem successors_fillTokenPhi {tokens : List (BlockId × Operand)} {phi : BlockId × InstId}
    {arms : List Arm} (hphi : f.instruction? phi.2 = some (.phi .bool arms)) :
    (fillTokenPhi tokens f phi).successors c = f.successors c := by
  rw [successors_eq_last, successors_eq_last, fillTokenPhi, body_setInstruction]
  cases (f.body c).getLast? with
  | none => rfl
  | some x =>
      simp only [Option.bind_some, instruction?_setInstruction]
      by_cases hx : x = phi.2
      · subst hx
        simp [hphi, Instruction.successors]
      · rw [if_neg hx]

/-- What giving the phis `phis` their arms makes of `h`. -/
structure FillsPhis (h : Function) (tokens : List (BlockId × Operand))
    (phis : List (BlockId × InstId)) (g : Function) : Prop where
  params : g.params = h.params
  size : g.slots.length = h.slots.length
  blocks : g.blocks = h.blocks
  other : ∀ {x}, (∀ b, (b, x) ∉ phis) → g.slots[x]? = h.slots[x]?
  arms : ∀ {b p}, (b, p) ∈ phis → g.instruction? p = some (.phi .bool (h.tokenArms tokens b))

/-- Filling the phis in turn gives each its arms. -/
theorem fillsPhis_foldl (tokens : List (BlockId × Operand)) {phis : List (BlockId × InstId)}
    (hnodup : (phis.map (·.2)).Nodup)
    (hphis : ∀ {b p}, (b, p) ∈ phis → ∃ arms, h.instruction? p = some (.phi .bool arms)) :
    h.FillsPhis tokens phis (phis.foldl (fillTokenPhi tokens) h) := by
  induction phis generalizing h with
  | nil => exact ⟨rfl, rfl, rfl, fun _ => rfl, fun hb => absurd hb List.not_mem_nil⟩
  | cons phi phis ih =>
      obtain ⟨b, p⟩ := phi
      obtain ⟨hp, hnodup⟩ := List.nodup_cons.mp hnodup
      obtain ⟨arms, hi⟩ := hphis List.mem_cons_self
      have hne : ∀ {c q}, (c, q) ∈ phis → q ≠ p := by
        intro c q hq heq
        subst heq
        exact hp (List.mem_map_of_mem (f := (·.2)) hq)
      have hrest := ih (h := fillTokenPhi tokens h (b, p)) hnodup fun {c q} hq => by
        obtain ⟨arms, hq'⟩ := hphis (List.mem_cons_of_mem _ hq)
        exact ⟨arms, (instruction?_fillTokenPhi (hne hq)).trans hq'⟩
      -- ways stay as they were, so the arms of the other phis are still the same
      have harms : ∀ c, (fillTokenPhi tokens h (b, p)).tokenArms tokens c =
          h.tokenArms tokens c := by
        intro c
        have hpred : (fillTokenPhi tokens h (b, p)).predecessors c = h.predecessors c :=
          predecessors_congr rfl fun d => successors_fillTokenPhi hi
        rw [tokenArms, tokenArms, hpred]
      have hsize : (fillTokenPhi tokens h (b, p)).slots.length = h.slots.length := by
        simp [fillTokenPhi, setInstruction]
      refine ⟨hrest.params, hrest.size.trans hsize, hrest.blocks, fun {x} hx => ?_,
        fun {c q} hq => ?_⟩
      · rw [List.foldl_cons, hrest.other fun c hc => hx c (List.mem_cons_of_mem _ hc), fillTokenPhi]
        refine slots_setInstruction_of_ne ?_
        intro heq
        subst heq
        exact hx b List.mem_cons_self
      · rw [List.foldl_cons]
        rcases List.mem_cons.mp hq with heq | hq
        · cases heq
          rw [instruction?_congr (hrest.other fun c hc => hne hc rfl), fillTokenPhi,
            instruction?_setInstruction, if_pos rfl, hi, Option.map_some]
        · rw [hrest.arms hq, harms]

/-! ## The whole transformation -/

/-- The token a block starts with, if `phi` gives its phi for the token. -/
def startToken (phi : BlockId → Option InstId) (b : BlockId) : Operand :=
  (phi b).elim initial .result

/-- What threading makes of `f`, where `phi` gives the phi for the token of each block. -/
structure Threads (f g : Function) (phi : BlockId → Option InstId) : Prop where
  params : g.params = f.params
  length : g.blocks.length = f.blocks.length
  body : ∀ b, g.body b = (phi b).toList ++ f.body b
  new : ∀ {b p}, phi b = some p → f.slots.length ≤ p
  placed : ∀ {x}, f.slots.length ≤ x → x < g.slots.length → ∃ b, phi b = some x
  needed : ∀ {b}, b < f.blocks.length → b ≠ 0 → f.predecessors b ≠ [] → ∃ p, phi b = some p
  first : phi 0 = none
  entered : ∀ {b p}, phi b = some p → f.predecessors b ≠ []
  successors : ∀ b, g.successors b = f.successors b
  plain : ∀ {x}, x < f.slots.length → f.loadsAt x = false → f.storesAt x = false →
    g.slots[x]? = f.slots[x]?
  tied : ∀ {b done x after}, f.body b = done ++ x :: after → g.instruction? x =
    (f.instruction? x).map (·.tie (f.tokenAfter (startToken phi b) done))
  arms : ∀ {b p}, phi b = some p → g.instruction? p = some (.phi .bool
    ((f.predecessors b).map fun q => ⟨f.tokenAfter (startToken phi q) (f.body q), q⟩))

/-- A phi for the token is no store of the function. -/
theorem Threads.not_stores {phi : BlockId → Option InstId} (ht : f.Threads g phi)
    (hp : phi b = some p) : f.storesAt p = false := by
  have hnone : f.slots[p]? = none := List.getElem?_eq_none (ht.new hp)
  simp [storesAt, instruction?, hnone]

/-- The phi for the token is no store, so the search for one goes past it. -/
theorem Threads.find?_reverse {phi : BlockId → Option InstId} (ht : f.Threads g phi) :
    ((phi b).toList ++ done).reverse.find? f.storesAt = done.reverse.find? f.storesAt := by
  cases hp : phi b with
  | none => rfl
  | some p =>
      rw [List.reverse_append, List.find?_append]
      simp [ht.not_stores hp]

/-- The new phis leave the instructions of the function as they are. -/
theorem AddsPhis.instruction? {bs : List BlockId} {phis : List (BlockId × InstId)}
    (ha : f.AddsPhis bs g phis) (hx : x < f.slots.length) :
    g.instruction? x = f.instruction? x :=
  instruction?_congr (ha.old hx)

/-- The phi of a block has a number that no instruction of the function has. -/
theorem AddsPhis.mem {bs : List BlockId} {phis : List (BlockId × InstId)}
    (ha : f.AddsPhis bs g phis) (hp : phis.lookup b = some p) :
    (b, p) ∈ phis ∧ f.slots.length ≤ p := by
  obtain ⟨front, rest, hphis, _⟩ := List.lookup_eq_some_iff.mp hp
  have hmem : (b, p) ∈ phis := by simp [hphis]
  refine ⟨hmem, ?_⟩
  rw [ha.numbered] at hmem
  exact List.le_snd_of_mem_zipIdx hmem

/-- Each of the blocks has its phi. -/
theorem AddsPhis.lookup {bs : List BlockId} {phis : List (BlockId × InstId)}
    (ha : f.AddsPhis bs g phis) (hb : b ∈ bs) : ∃ p, phis.lookup b = some p := by
  cases hp : phis.lookup b with
  | some p => exact ⟨p, rfl⟩
  | none =>
      rw [← List.zipIdx_map_fst f.nextId bs, ← ha.numbered, List.mem_map] at hb
      obtain ⟨q, hq, rfl⟩ := hb
      simpa using List.lookup_eq_none_iff.mp hp q hq

/-- The new phis are no stores. -/
theorem AddsPhis.tokenAfter {bs : List BlockId} {phis : List (BlockId × InstId)}
    (ha : f.AddsPhis bs g phis) (hdone : ∀ x ∈ done, x < f.slots.length) :
    g.tokenAfter start ((phis.lookup b).toList ++ done) = f.tokenAfter start done := by
  rw [tokenAfter_append, tokenAfter_congr fun x hx => ha.instruction? (hdone x hx)]
  cases hp : phis.lookup b with
  | none => rw [Option.toList_none, tokenAfter_nil]
  | some p =>
      have hstore : g.storesAt p = false := by
        simp [storesAt, ha.new (ha.mem hp).1, Instruction.isStore]
      rw [Option.toList_some, ← List.nil_append [p], tokenAfter_concat, hstore, tokenAfter_nil,
        if_neg Bool.false_ne_true]

/-- A phi in front and tied instructions leave control as it was. -/
theorem successors_of_tied {phi : Option InstId} (hbody : g.body b = phi.toList ++ f.body b)
    (hphi : ∀ p, phi = some p → ∃ arms, g.instruction? p = some (.phi .bool arms))
    (hinst : ∀ x ∈ f.body b, ∃ token, g.instruction? x = (f.instruction? x).map (·.tie token)) :
    g.successors b = f.successors b := by
  rw [successors_eq_last, successors_eq_last, hbody]
  rcases List.eq_nil_or_concat' (f.body b) with hnil | ⟨front, x, hx⟩
  · cases phi with
    | none => rw [hnil]; rfl
    | some p =>
        obtain ⟨arms, hp⟩ := hphi p rfl
        simp [hnil, hp, Instruction.successors]
  · obtain ⟨token, htie⟩ := hinst x (by simp [hx])
    rw [hx, ← List.append_assoc, List.getLast?_concat, List.getLast?_concat, Option.bind_some,
      Option.bind_some, htie]
    cases f.instruction? x with
    | none => rfl
    | some i => exact Instruction.successors_tie

/-- A block gets a phi when it is not the first and control can come to it from some block. -/
theorem mem_tokenBlocks : b ∈ f.tokenBlocks ↔
    b < f.blocks.length ∧ b ≠ 0 ∧ f.predecessors b ≠ [] := by
  simp only [tokenBlocks, List.mem_filter, mem_blockIds, decide_eq_true_eq]
  refine and_congr_right fun hb => ?_
  rw [entry?_of_lt hb, Ne, Option.some.injEq]

/-- No two blocks have the same phi. -/
theorem AddsPhis.phis_nodup {bs : List BlockId} {phis : List (BlockId × InstId)}
    (ha : f.AddsPhis bs g phis) : (phis.map (·.2)).Nodup := by
  rw [ha.numbered, List.zipIdx_map_snd]
  exact List.nodup_range'

/-- What is new is the phi for the token of some block. -/
theorem AddsPhis.exists_lookup {bs : List BlockId} {phis : List (BlockId × InstId)}
    (ha : f.AddsPhis bs g phis) (hbs : bs.Nodup) (hle : f.slots.length ≤ x)
    (hx : x < g.slots.length) : ∃ b, phis.lookup b = some x := by
  rw [ha.size] at hx
  have hlt : x - f.slots.length < bs.length := Nat.sub_lt_left_of_lt_add hle hx
  obtain ⟨p, hp⟩ := ha.lookup (List.getElem_mem hlt)
  refine ⟨_, hp.trans (congrArg some ?_)⟩
  -- the block stands once in the list, so it has one number
  obtain ⟨hmem, hle'⟩ := ha.mem hp
  rw [ha.numbered, List.mk_mem_zipIdx_iff_le_and_getElem?_sub, nextId] at hmem
  have heq : x - f.slots.length = p - f.slots.length :=
    (List.getElem?_inj hlt hbs).mp (by rw [hmem.2, List.getElem?_eq_getElem hlt])
  rw [← Nat.sub_add_cancel hle', ← heq, Nat.sub_add_cancel hle]

/-- A phi for the token belongs to one block. -/
theorem AddsPhis.unique {bs : List BlockId} {phis : List (BlockId × InstId)}
    (ha : f.AddsPhis bs g phis) (hb : (b, p) ∈ phis) (hc : (c, p) ∈ phis) : b = c := by
  rw [ha.numbered, List.mk_mem_zipIdx_iff_le_and_getElem?_sub] at hb hc
  rw [hb.2, Option.some.injEq] at hc
  exact hc.2

/-- A block has its new phi and what it had. -/
theorem AddsPhis.mem_body {bs : List BlockId} {phis : List (BlockId × InstId)}
    (ha : f.AddsPhis bs g phis) (hx : x ∈ g.body b) :
    (b, x) ∈ phis ∧ f.slots.length ≤ x ∨ x ∈ f.body b := by
  rw [ha.body, List.mem_append, Option.mem_toList] at hx
  exact hx.imp_left ha.mem

section Placed

variable {bs : List BlockId} {phis : List (BlockId × InstId)} (hf : f.Placed)
  (ha : f.AddsPhis bs g phis)

include hf ha

/-- No block has an instruction twice after that. -/
theorem AddsPhis.nodup : (g.body b).Nodup := by
  rw [ha.body]
  cases hp : phis.lookup b with
  | none => simpa using hf.nodup b
  | some p =>
      refine List.nodup_cons.mpr ⟨fun hmem => ?_, hf.nodup b⟩
      exact absurd (hf.lt_length hmem) (Nat.not_lt.mpr (ha.mem hp).2)

/-- No instruction is in two blocks after that. -/
theorem AddsPhis.block_unique (hb : x ∈ g.body b) (hc : x ∈ g.body c) : b = c := by
  rcases ha.mem_body hb with ⟨hb, hle⟩ | hb <;> rcases ha.mem_body hc with ⟨hc, hle'⟩ | hc
  · exact ha.unique hb hc
  · exact absurd (hf.lt_length hc) (Nat.not_lt.mpr hle)
  · exact absurd (hf.lt_length hb) (Nat.not_lt.mpr hle')
  · exact hf.block_unique hb hc

end Placed

section Sweeps

variable {k : Function} {phis : List (BlockId × InstId)} {tokens : List (BlockId × Operand)}
  (hf : f.Placed) (ha : f.AddsPhis f.tokenBlocks g phis)
  (ht : g.TiesBlocks (firstToken phis) g.blockIds h tokens)

include hf ha ht

/-- After the second sweep every old instruction is tied. -/
theorem tied_of_sweeps (hsplit : f.body b = done ++ x :: after) : h.instruction? x =
    (f.instruction? x).map (·.tie (f.tokenAfter (startToken (phis.lookup ·) b) done)) := by
  have hlt : ∀ y ∈ f.body b, y < f.slots.length := fun y hy => hf.lt_length hy
  have hx : x ∈ f.body b := by simp [hsplit]
  have hb : b ∈ g.blockIds := by
    rw [mem_blockIds, ha.length]
    exact lt_length_of_mem_body hx
  have hbody : g.body b = ((phis.lookup b).toList ++ done) ++ x :: after := by
    rw [ha.body, hsplit, List.append_assoc]
  rw [ht.tied hb hbody, ha.instruction? (hlt x hx),
    ha.tokenAfter fun y hy => hlt y (by simp [hsplit, hy])]
  rfl

omit hf in
/-- After the second sweep the phis for the token are as they were. -/
theorem phi_of_sweeps (hp : (b, p) ∈ phis) : h.instruction? p = some (.phi .bool []) := by
  have hphi := ha.new hp
  have hload : g.loadsAt p = false := by simp [loadsAt, hphi, Instruction.isLoad]
  have hstore : g.storesAt p = false := by simp [storesAt, hphi, Instruction.isStore]
  rw [instruction?_congr (ht.plain hload hstore), hphi]

/-- Threading leaves the successors of blocks as they are. -/
theorem successors_of_sweeps : h.successors b = f.successors b := by
  refine successors_of_tied ((body_congr ht.blocks).trans (ha.body b)) (fun p hp => ?_)
    fun x hx => ?_
  · exact ⟨[], phi_of_sweeps ha ht (ha.mem hp).1⟩
  · obtain ⟨done, after, hsplit⟩ := List.append_of_mem hx
    exact ⟨_, tied_of_sweeps hf ha ht hsplit⟩

/-- The arms take the last tokens of the predecessors. -/
theorem tokenArms_of_sweeps : h.tokenArms tokens b = (f.predecessors b).map fun q =>
    ⟨f.tokenAfter (startToken (phis.lookup ·) q) (f.body q), q⟩ := by
  have hpred : h.predecessors b = f.predecessors b :=
    predecessors_congr ((congrArg _ ht.blocks).trans ha.length)
      fun c => successors_of_sweeps hf ha ht
  rw [tokenArms, hpred]
  refine List.map_congr_left fun q hq => ?_
  have hq' : q ∈ g.blockIds := by
    rw [mem_blockIds, ha.length]
    exact (mem_predecessors.mp hq).1
  rw [ht.token hq', ha.body, ha.tokenAfter fun x hx => hf.lt_length hx]
  rfl

/-- The phis, the ties and the arms together thread a function. -/
theorem threads_of_sweeps (hk : h.FillsPhis tokens phis k) :
    f.Threads k (phis.lookup ·) := by
  have hblocks : k.blocks = g.blocks := hk.blocks.trans ht.blocks
  -- the third sweep changes only new phis
  have hold : ∀ {x}, x < f.slots.length → k.slots[x]? = h.slots[x]? := by
    refine fun hx => hk.other fun b hb => ?_
    rw [ha.numbered] at hb
    exact absurd hx (Nat.not_lt.mpr (List.le_snd_of_mem_zipIdx hb))
  have htied : ∀ {b done x after}, f.body b = done ++ x :: after → k.instruction? x =
      (f.instruction? x).map (·.tie (f.tokenAfter (startToken (phis.lookup ·) b) done)) := by
    intro b done x after hsplit
    have hx : x ∈ f.body b := by simp [hsplit]
    rw [← tied_of_sweeps hf ha ht hsplit, instruction?_congr (hold (hf.lt_length hx))]
  refine ⟨hk.params.trans (ht.params.trans ha.params), (congrArg _ hblocks).trans ha.length,
    fun b => (body_congr hblocks).trans (ha.body b), fun hp => (ha.mem hp).2,
    fun {x} hle hx => ?_, fun {b} hb hne hpred => ?_, ?_, fun {b p} hp => ?_, fun b => ?_,
    fun {x} hx hload hstore => ?_, htied, fun {b p} hp => ?_⟩
  · rw [hk.size, ht.size] at hx
    exact ha.exists_lookup (List.nodup_range.filter _) hle hx
  · exact ha.lookup (mem_tokenBlocks.mpr ⟨hb, hne, hpred⟩)
  · rw [ha.numbered]
    exact lookup_zipIdx_of_not_mem fun hzero => (mem_tokenBlocks.mp hzero).2.1 rfl
  · have hmem := (ha.mem hp).1
    rw [ha.numbered] at hmem
    exact (mem_tokenBlocks.mp (List.fst_mem_of_mem_zipIdx hmem)).2.2
  · refine successors_of_tied ((body_congr hblocks).trans (ha.body b)) (fun p hp => ?_)
      fun x hx => ?_
    · exact ⟨_, hk.arms (ha.mem hp).1⟩
    · obtain ⟨done, after, hsplit⟩ := List.append_of_mem hx
      exact ⟨_, htied hsplit⟩
  · have hinst := ha.instruction? hx
    rw [hold hx, ht.plain ((loadsAt_congr hinst).trans hload)
      ((storesAt_congr hinst).trans hstore), ha.old hx]
  · rw [hk.arms (ha.mem hp).1, tokenArms_of_sweeps hf ha ht]

end Sweeps

/-- What threading makes of a function whose blocks and slots agree. -/
theorem threads_threadMemory (hf : f.Placed) : ∃ phi, f.Threads f.threadMemory.function phi := by
  unfold threadMemory
  split
  · rename_i hentry
    have hnil : ∀ b, ¬ b < f.blocks.length := fun b hb => by simp [entry?_of_lt hb] at hentry
    refine ⟨fun _ => none, rfl, rfl, fun b => rfl, fun hp => by simp at hp,
      fun hle hx => absurd hx (Nat.not_lt.mpr hle), fun {b} hb => absurd hb (hnil b), rfl,
      fun hp => by simp at hp, fun b => rfl, fun _ _ _ => rfl, fun {b done x after} hsplit => ?_,
      fun hp => by simp at hp⟩
    have hx : x ∈ f.body b := by simp [hsplit]
    exact absurd (lt_length_of_mem_body hx) (hnil b)
  · have ha : f.AddsPhis f.tokenBlocks _ _ :=
      addsPhis_addTokenPhis (List.nodup_range.filter _) fun b hb => (mem_tokenBlocks.mp hb).1
    generalize addTokenPhis f.tokenBlocks f = result at ha
    obtain ⟨g, phis⟩ := result
    have ht : g.TiesBlocks (firstToken phis) g.blockIds _ _ :=
      tiesBlocks_threadBlocks phis List.nodup_range (fun _ => ha.nodup hf)
        fun hb hc => ha.block_unique hf hb hc
    have hk := fillsPhis_foldl (threadBlocks phis g.blockIds g).2.1 ha.phis_nodup
      fun hp => ⟨[], phi_of_sweeps ha ht hp⟩
    exact ⟨_, threads_of_sweeps hf ha ht hk⟩

end Function

end Dataflow
