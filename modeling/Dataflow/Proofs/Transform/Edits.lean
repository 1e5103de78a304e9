import Dataflow.Proofs.Transform.Structure

/-!
# The edits of the transformations

`Function.Edited` says that one function came from another by the edits that merging and threading
make, one constructor for each. All transformations are such edits (`Edited.transforms`), so what
each edit keeps, they keep: a proof about them has a case for each edit and no sweep over blocks.
-/

namespace Dataflow

open MemoryToken

/-- What stands for memory: the token before any store, or a result. -/
def MemoryToken.IsToken (v : Operand) : Prop := v = initial ∨ ∃ x, v = .result x

namespace Function

/-- One function is `f` after edits that transformations make. -/
inductive Edited (f : Function) : Function → Prop where
  | refl : Edited f f
  /-- A branch or a phi leaves the program. -/
  | detach {g : Function} (x : InstId) : Edited f g → Edited f (g.detach x)
  /-- A phi is replaced by the value of its first arm. -/
  | replace {g : Function} {x : InstId} {ty : Ty} {arm : Arm} {arms : List Arm} : Edited f g →
      g.instruction? x = some (.phi ty (arm :: arms)) →
      Edited f (g.replaceUses (.result x) arm.value)
  | splice {g : Function} (source target : BlockId) :
      Edited f g → Edited f (g.splice source target)
  | redirect {g : Function} (old new : BlockId) : Edited f g → Edited f (g.redirect old new)
  | removeBlock {g : Function} (b : BlockId) : Edited f g → Edited f (g.removeBlock b)
  | addTokenPhi {g : Function} (b : BlockId) : Edited f g → Edited f (g.addTokenPhi b)
  /-- A load or a store is tied to the token. -/
  | step {s : State} (x : InstId) :
      Edited f s.function → IsToken s.token → Edited f (s.step x).function
  /-- A phi that is new gets its arms. -/
  | fill {g : Function} {x : InstId} {arms : List Arm} : Edited f g → f.slots.length ≤ x →
      (∀ a ∈ arms, IsToken a.value) → Edited f (g.setInstruction x (.phi .bool arms))

variable {f g h : Function} {x : InstId} {phis : List (BlockId × InstId)}
  {tokens : List (BlockId × Operand)}

namespace Edited

/-- Edits free no slot. -/
theorem size (h : f.Edited g) : f.slots.length ≤ g.slots.length := by
  induction h with
  | refl => exact Nat.le_refl _
  | detach x _ ih => rwa [slots_detach]
  | replace _ _ ih | redirect _ _ _ ih => exact ih.trans_eq (size_mapLive _).symm
  | splice source target _ ih => rwa [size_splice]
  | removeBlock b _ ih => rwa [size_removeBlock]
  | addTokenPhi b _ ih => exact ih.trans (by simp [Function.addTokenPhi])
  | step x _ _ ih => rwa [size_step]
  | fill _ _ _ ih => rwa [size_setInstruction]

/-- Edits one after the other are edits. -/
theorem trans (hf : f.Edited g) (hg : g.Edited h) : f.Edited h := by
  induction hg with
  | refl => exact hf
  | detach x _ ih => exact ih.detach x
  | replace _ hi ih => exact ih.replace hi
  | splice source target _ ih => exact ih.splice source target
  | redirect old new _ ih => exact ih.redirect old new
  | removeBlock b _ ih => exact ih.removeBlock b
  | addTokenPhi b _ ih => exact ih.addTokenPhi b
  | step x _ htoken ih => exact ih.step x htoken
  | fill _ hx harms ih => exact ih.fill (hf.size.trans hx) harms

/-! ### Merging -/

/-- Folding a phi detaches it and changes operands. -/
theorem foldPhi (h : f.Edited g) (x : InstId) : f.Edited (g.foldPhi x) := by
  unfold Function.foldPhi
  split
  · rename_i hi
    exact (h.replace hi).detach x
  · exact h

/-- Folding the phis of a block is folding each of them. -/
theorem foldPhis (h : f.Edited g) (b : BlockId) : f.Edited (g.foldPhis b) := by
  unfold Function.foldPhis
  generalize (g.body b).filter _ = ids
  induction ids generalizing g with
  | nil => exact h
  | cons x ids ih => exact ih (h.foldPhi x)

/-- One merge folds phis, moves instructions, removes a jump and renumbers blocks. -/
theorem mergePair (h : f.Edited g) (l r : BlockId) : f.Edited (g.mergePair l r) := by
  have hdrop : f.Edited (g.dropBranch l) := by
    unfold Function.dropBranch
    cases g.terminator? l with
    | none => exact h
    | some t => exact h.detach t
  exact (((hdrop.foldPhis r).splice r l).redirect r l).removeBlock r

/-- So are merges until no more blocks can be joined. -/
theorem mergePairs (h : f.Edited g) (bound : Nat) : f.Edited (mergePairs bound g).1 := by
  induction bound generalizing g with
  | zero => exact h
  | succ bound ih =>
      rw [Function.mergePairs]
      split
      · exact h
      · exact ih (h.mergePair _ _)

/-! ### Threading -/

/-- The phis for tokens are new, so they have the numbers behind all old ones. -/
theorem addTokenPhis (h : f.Edited g) (bs : List BlockId) :
    f.Edited (addTokenPhis bs g).1 ∧
      ∀ phi ∈ (Function.addTokenPhis bs g).2, f.slots.length ≤ phi.2 := by
  induction bs generalizing g with
  | nil => exact ⟨h, fun _ hphi => absurd hphi List.not_mem_nil⟩
  | cons b bs ih =>
      obtain ⟨hrest, hnew⟩ := ih (h.addTokenPhi b)
      refine ⟨hrest, fun phi hphi => ?_⟩
      rcases List.mem_cons.mp hphi with rfl | hphi
      · exact h.size
      · exact hnew phi hphi

/-- After an instruction there still stands a token: the result of the call it became, or the old
one. -/
theorem isToken_step {s : State} (h : IsToken s.token) : IsToken (s.step x).token := by
  rw [token_step]
  split
  · exact .inr ⟨x, rfl⟩
  · exact h

/-- Threading a body rewrites loads and stores to calls, and the token stays one. -/
theorem foldl_step {s : State} (h : f.Edited s.function) (htoken : IsToken s.token)
    (ids : List InstId) :
    f.Edited (ids.foldl State.step s).function ∧ IsToken (ids.foldl State.step s).token := by
  induction ids generalizing s with
  | nil => exact ⟨h, htoken⟩
  | cons x ids ih => exact ih (h.step x htoken) (isToken_step htoken)

/-- The token a block starts from is a phi or the literal. -/
theorem isToken_firstToken (phis : List (BlockId × InstId)) (b : BlockId) :
    IsToken (firstToken phis b) := by
  unfold firstToken
  cases phis.lookup b with
  | none => exact .inl rfl
  | some p => exact .inr ⟨p, rfl⟩

/-- Threading block after block rewrites loads and stores, and every last token is one. -/
theorem threadBlocks (h : f.Edited g) (phis : List (BlockId × InstId)) (bs : List BlockId) :
    f.Edited (threadBlocks phis bs g).1 ∧
      ∀ token ∈ (Function.threadBlocks phis bs g).2.1, IsToken token.2 := by
  induction bs generalizing g with
  | nil => exact ⟨h, fun _ htoken => absurd htoken List.not_mem_nil⟩
  | cons b bs ih =>
      obtain ⟨hdone, htoken⟩ :=
        foldl_step (s := ⟨g, firstToken phis b, 0⟩) h (isToken_firstToken phis b) (g.body b)
      obtain ⟨hrest, htokens⟩ := ih hdone
      exact ⟨hrest, List.forall_mem_cons.mpr ⟨htoken, htokens⟩⟩

/-- The phis for tokens get their arms, and these are new instructions. -/
theorem fillTokenPhis (h : f.Edited g) (htokens : ∀ token ∈ tokens, IsToken token.2)
    (hphis : ∀ phi ∈ phis, f.slots.length ≤ phi.2) :
    f.Edited (phis.foldl (fillTokenPhi tokens) g) := by
  induction phis generalizing g with
  | nil => exact h
  | cons phi phis ih =>
      obtain ⟨hphi, hphis⟩ := List.forall_mem_cons.mp hphis
      refine ih (h.fill hphi fun a ha => ?_) hphis
      obtain ⟨p, _, rfl⟩ := List.mem_map.mp ha
      cases hlookup : tokens.lookup p with
      | none => exact .inl rfl
      | some v =>
          obtain ⟨front, rest, rfl, _⟩ := List.lookup_eq_some_iff.mp hlookup
          exact htokens (p, v) (by simp)

/-! ### Whole transformations -/

/-- Merging chains of blocks only edits. -/
theorem mergeChains (f : Function) : f.Edited f.mergeChains.function := by
  rw [mergeChains_function]
  exact refl.mergePairs _

/-- Threading memory only edits. -/
theorem threadMemory (f : Function) : f.Edited f.threadMemory.function := by
  unfold Function.threadMemory
  split
  · exact refl
  · obtain ⟨hphis, hnew⟩ := refl.addTokenPhis f.tokenBlocks
    obtain ⟨hthreaded, htokens⟩ := hphis.threadBlocks _ _
    exact hthreaded.fillTokenPhis htokens hnew

/-- A run of the transformation only edits, whatever is chosen. -/
theorem transform (f : Function) (options : TransformOptions) :
    f.Edited (f.transform options).function := by
  rw [Function.transform]
  cases options.mergeChains <;> cases options.threadMemory
  · exact refl
  · exact threadMemory f
  · exact mergeChains f
  · exact (mergeChains f).trans (threadMemory _)

/-- So does any sequence of runs. -/
theorem transforms (f : Function) (runs : List TransformOptions) :
    f.Edited (f.transforms runs) := by
  induction runs generalizing f with
  | nil => exact refl
  | cons options runs ih => exact (transform f options).trans (ih _)

end Edited

end Function

end Dataflow
