import Dataflow.Proofs.Text.Binding
import Dataflow.Proofs.Transform.Threading

/-!
# What reads tokens

A token is the constant for memory before any store, or the result of an instruction that some block
lists, so threading keeps a function whole (`Threads.whole`). `Unbroken` tells from which stores
control can come to a place with no other store in between. The token at that place then comes from
the store through phis, so it has every property of the token of the store that an instruction takes
over from what it reads (`Threads.token_of_unbroken`).
-/

namespace Dataflow

namespace Instruction

variable {i : Instruction} {token v : Operand}

/-- A tied instruction reads what it read before, and a load the token. -/
theorem mem_operands_tie :
    v ∈ (i.tie token).operands ↔ v ∈ i.operands ∨ i.isLoad = true ∧ v = token := by
  cases i with
  | store value address => simp [tie, operands, isLoad, or_comm]
  | _ => simp [tie, operands, isLoad]

theorem blockRefs_tie : (i.tie token).blockRefs = i.blockRefs := by
  cases i <;> rfl

end Instruction

namespace Function

open MemoryToken

/-- Control can come from a run of instruction `s` to the place in block `b` where `done` has been
run, with no store in between and without entering the first block. -/
inductive Unbroken (g : Function) (isStore : InstId → Bool) (s : InstId) :
    BlockId → List InstId → Prop where
  | start {b front after} : g.body b = front ++ s :: after → Unbroken g isStore s b (front ++ [s])
  | run {b done x after} : Unbroken g isStore s b done → g.body b = done ++ x :: after →
      isStore x = false → Unbroken g isStore s b (done ++ [x])
  | go {b c} : Unbroken g isStore s b (g.body b) → c ∈ g.successors b → c ≠ 0 →
      Unbroken g isStore s c []

variable {f g : Function} {phi : BlockId → Option InstId} {b c : BlockId}
  {done after : List InstId} {p s x y : InstId} {start v : Operand} {i j : Instruction}

/-- The token after some instructions is the one before them or the result of one of them. -/
theorem tokenAfter_cases (f : Function) (start : Operand) (done : List InstId) :
    f.tokenAfter start done = start ∨ ∃ x ∈ done, f.tokenAfter start done = .result x := by
  unfold tokenAfter
  cases hfind : done.reverse.find? f.storesAt with
  | none => exact Or.inl rfl
  | some x => exact Or.inr ⟨x, by simpa using List.mem_of_find?_eq_some hfind, rfl⟩

namespace Threads

variable (hf : f.Bound) (ht : f.Threads g phi)

include ht

theorem mem_body_of_mem (hx : x ∈ f.body b) : x ∈ g.body b := by
  rw [ht.body]
  exact List.mem_append_right _ hx

/-- A token is the constant or the result of an instruction that some block lists. -/
theorem isToken (hsplit : f.body b = done ++ after) :
    f.tokenAfter (startToken phi b) done = initial ∨
      ∃ x ∈ g.live, f.tokenAfter (startToken phi b) done = .result x := by
  rcases f.tokenAfter_cases (startToken phi b) done with hstart | ⟨x, hx, htoken⟩
  · rw [hstart, startToken]
    cases hp : phi b with
    | none => exact Or.inl rfl
    | some p =>
        have hmem : p ∈ g.body b := by simp [ht.body, hp]
        exact Or.inr ⟨p, mem_live_of_mem_body hmem, rfl⟩
  · have hmem : x ∈ f.body b := by simp [hsplit, hx]
    exact Or.inr ⟨x, mem_live_of_mem_body (ht.mem_body_of_mem hmem), htoken⟩

include hf

/-- An instruction is a new phi or a tied one. -/
theorem instruction_cases (hj : g.instruction? x = some j) :
    (∃ b, phi b = some x) ∨ ∃ b done after i, f.body b = done ++ x :: after ∧
      f.instruction? x = some i ∧ j = i.tie (f.tokenAfter (startToken phi b) done) := by
  by_cases hx : x < f.slots.length
  · obtain ⟨b, hb⟩ := mem_live.mp (hf.live_eq ▸ List.mem_range.mpr hx : x ∈ f.live)
    obtain ⟨done, after, hsplit⟩ := List.append_of_mem hb
    rw [ht.tied hsplit] at hj
    obtain ⟨i, hi, rfl⟩ := Option.map_eq_some_iff.mp hj
    exact Or.inr ⟨b, done, after, i, hsplit, hi, rfl⟩
  · obtain ⟨slot, hslot, _⟩ := Option.map_eq_some_iff.mp hj
    exact Or.inl (ht.placed (Nat.le_of_not_lt hx) (List.getElem?_eq_some_iff.mp hslot).1)

/-- What is read was read before or is a token. -/
theorem operand_cases (hj : g.instruction? x = some j) (hv : v ∈ j.operands) :
    (∃ i, f.instruction? x = some i ∧ v ∈ i.operands) ∨
      v = initial ∨ ∃ y ∈ g.live, v = .result y := by
  rcases ht.instruction_cases hf hj with ⟨b, hb⟩ | ⟨b, done, after, i, hsplit, hi, rfl⟩
  · rw [ht.arms hb, Option.some.injEq] at hj
    subst hj
    rw [Instruction.operands, List.map_map, List.mem_map] at hv
    obtain ⟨q, _, rfl⟩ := hv
    exact Or.inr (ht.isToken (List.append_nil _).symm)
  · rcases Instruction.mem_operands_tie.mp hv with hv | ⟨_, rfl⟩
    · exact Or.inl ⟨i, hi, hv⟩
    · exact Or.inr (ht.isToken hsplit)

/-- Threading keeps a function whole. -/
theorem whole : g.Whole := by
  have hinst : ∀ {b x}, x ∈ g.body b → ∃ j, g.instruction? x = some j := by
    intro b x hx
    rw [ht.body, List.mem_append, Option.mem_toList] at hx
    rcases hx with hp | hx
    · exact ⟨_, ht.arms hp⟩
    · obtain ⟨done, after, hsplit⟩ := List.append_of_mem hx
      obtain ⟨i, hi⟩ := hf.placed.instruction hx
      exact ⟨_, by rw [ht.tied hsplit, hi, Option.map_some]⟩
  have hlt : ∀ {x}, x ∈ g.live → x < g.slots.length := by
    intro x hx
    obtain ⟨b, hb⟩ := mem_live.mp hx
    obtain ⟨j, hj⟩ := hinst hb
    obtain ⟨slot, hslot, _⟩ := Option.map_eq_some_iff.mp hj
    exact (List.getElem?_eq_some_iff.mp hslot).1
  refine ⟨fun {x j} hj => ?_, hinst, ⟨fun {id j x} hj hv => ?_, fun {id j k} hj hv => ?_,
    fun {id j name} hj hv => ?_, fun {id j b} hj hb => ?_⟩⟩
  · rcases ht.instruction_cases hf hj with ⟨b, hb⟩ | ⟨b, done, after, i, hsplit, _⟩
    · have hmem : x ∈ g.body b := by simp [ht.body, hb]
      exact mem_live_of_mem_body hmem
    · have hmem : x ∈ f.body b := by simp [hsplit]
      exact mem_live_of_mem_body (ht.mem_body_of_mem hmem)
  · rcases ht.operand_cases hf hj hv with ⟨i, hi, hv⟩ | hinitial | ⟨y, hy, hresult⟩
    · obtain ⟨b, hb⟩ := mem_live.mp
        (hf.live_eq ▸ List.mem_range.mpr (hf.resolved.result hi hv) : x ∈ f.live)
      exact hlt (mem_live_of_mem_body (ht.mem_body_of_mem hb))
    · cases hinitial
    · cases hresult
      exact hlt hy
  · rcases ht.operand_cases hf hj hv with ⟨i, hi, hv⟩ | hinitial | ⟨y, _, hresult⟩
    · rw [ht.params]
      exact hf.resolved.param hi hv
    · cases hinitial
    · cases hresult
  · rcases ht.operand_cases hf hj hv with ⟨i, hi, hv⟩ | hinitial | ⟨y, _, hresult⟩
    · exact hf.resolved.function hi hv
    · cases hinitial
    · cases hresult
  · rw [ht.length]
    rcases ht.instruction_cases hf hj with ⟨c, hc⟩ | ⟨c, done, after, i, _, hi, rfl⟩
    · rw [ht.arms hc, Option.some.injEq] at hj
      subst hj
      rw [Instruction.blockRefs, List.map_map, List.mem_map] at hb
      obtain ⟨q, hq, rfl⟩ := hb
      exact (mem_predecessors.mp hq).1
    · rw [Instruction.blockRefs_tie] at hb
      exact hf.resolved.block hi hb

end Threads

/-! ## From a store to a load -/

namespace Threads

variable (ht : f.Threads g phi)

include ht

/-- The phi for the token does not change the token. -/
theorem tokenAfter_phi :
    f.tokenAfter start ((phi b).toList ++ done) = f.tokenAfter start done := by
  rw [tokenAfter, tokenAfter, ht.find?_reverse]

/-- With no other store in between, the token has every property of the token of the store that
instructions take over from what they read. -/
theorem token_of_unbroken (htarget : ∀ {b c}, c ∈ f.successors b → c < f.blocks.length)
    {C : Operand → Prop}
    (hread : ∀ {x i v}, g.instruction? x = some i → v ∈ i.operands → C v → C (.result x))
    (hs : f.storesAt s = true) (hstart : C (.result s)) (h : g.Unbroken f.storesAt s b done) :
    C (f.tokenAfter (startToken phi b) done) := by
  induction h with
  | start =>
      rw [tokenAfter_concat, if_pos hs]
      exact hstart
  | run _ _ hx ih =>
      rw [tokenAfter_concat, hx]
      exact ih
  | @go b c _ hc hne ih =>
      -- the block starts with a phi, which reads the token at the end of the block before
      rw [ht.successors] at hc
      rw [ht.body, ht.tokenAfter_phi] at ih
      have hpred := mem_predecessors_of_mem_successors hc
      obtain ⟨p, hp⟩ := ht.needed (htarget hc) hne (List.ne_nil_of_mem hpred)
      rw [tokenAfter_nil, startToken, hp]
      refine hread (ht.arms hp) ?_ ih
      rw [Instruction.operands, List.map_map, List.mem_map]
      exact ⟨b, hpred, rfl⟩

end Threads

end Function

end Dataflow
