import Dataflow.Proofs.Ssa.Edit
import Dataflow.Proofs.Ssa.Rename
import Dataflow.Transform.ChainMerge
import Mathlib.Logic.Relation

/-!
# One merge

What `mergePair` makes of a function, told without its five edits (`Function.Merges`): the body of
the appended block without its phis follows the other one, every other block keeps its body, blocks
are renumbered by `mergedIndex`, and operands are renamed by a map that takes a folded phi to its
value.
-/

namespace Dataflow

namespace Function

variable {f g : Function} {b c l r : BlockId} {id p t x : InstId} {phis : List InstId}
  {σ : Operand → Operand} {front : List InstId}

/-! ## The pair -/

/-- Block `r` can be appended to block `l`: control comes to `r` only by the jump `t` at the end
of `l`. -/
structure ChainPair (f : Function) (l r : BlockId) (t : InstId) : Prop where
  term : f.terminator? l = some t
  jump : f.instruction? t = some (.jump r)
  ne : r ≠ l
  ne_entry : r ≠ 0
  pred : f.predecessors r = [l]

/-- What is found for merging can be merged. -/
theorem chainPair?_eq_some (h : f.chainPair? = some (l, r)) : ∃ t, f.ChainPair l r t := by
  obtain ⟨b, hb, hpair⟩ := List.exists_of_findSome?_eq_some h
  obtain ⟨target, htarget, hlr⟩ := Option.map_eq_some_iff.mp hpair
  cases hlr
  unfold chainTarget? at htarget
  split at htarget
  · rename_i target hterm
    obtain ⟨t, ht, hi⟩ := Option.bind_eq_some_iff.mp hterm
    split at htarget
    · rename_i hcond
      obtain ⟨hne, hentry, hinto⟩ := hcond
      cases htarget
      refine ⟨t, ht, hi, hne, fun hzero => hentry ?_, by rwa [into_ways] at hinto⟩
      rw [entry?_of_lt (mem_blockIds.mp hb), hzero]
    · cases htarget
  · cases htarget

/-- The left block of a pair ends in its jump. -/
theorem ChainPair.body (h : f.ChainPair l r t) : ∃ front, f.body l = front ++ [t] := by
  have hlast := h.term
  rw [terminator?, Option.filter_eq_some_iff] at hlast
  exact List.getLast?_eq_some_iff.mp hlast.1

/-- A block that another one was appended to has the number `l` had, and blocks after the appended
one move down. -/
def mergedIndex (l r b : BlockId) : BlockId := shiftPast r (if b = r then l else b)

/-- Any block but the appended one moves down past it. -/
theorem mergedIndex_of_ne (hb : b ≠ r) : mergedIndex l r b = shiftPast r b := by
  rw [mergedIndex, if_neg hb]

/-- The appended block is where the one before it is. -/
theorem mergedIndex_right : mergedIndex l r r = mergedIndex l r l := by
  simp [mergedIndex]

/-- The first block stays the first. -/
theorem mergedIndex_zero (hr : r ≠ 0) : mergedIndex l r 0 = 0 := by
  rw [mergedIndex_of_ne hr.symm, shiftPast, if_neg (Nat.not_lt_zero r)]

/-- Two blocks that stay do not fall together. -/
theorem shiftPast_inj (hb : b ≠ r) (hc : c ≠ r) (h : shiftPast r b = shiftPast r c) : b = c := by
  unfold shiftPast at h
  dsimp only [BlockId] at *
  split at h <;> split at h <;> omega

/-- Only the two merged blocks get one number. -/
theorem mergedIndex_inj (hb : b ≠ r) (hc : c ≠ r) (h : mergedIndex l r b = mergedIndex l r c) :
    b = c := by
  rw [mergedIndex_of_ne hb, mergedIndex_of_ne hc] at h
  exact shiftPast_inj hb hc h

/-- Every number is that of a block that stays. -/
theorem exists_mergedIndex (l r e : BlockId) : ∃ c, c ≠ r ∧ mergedIndex l r c = e := by
  by_cases he : e < r
  · refine ⟨e, Nat.ne_of_lt he, ?_⟩
    rw [mergedIndex_of_ne (Nat.ne_of_lt he), shiftPast, if_neg (Nat.lt_asymm he)]
  · have hlt : r < e + 1 := Nat.lt_succ_of_le (Nat.le_of_not_lt he)
    refine ⟨e + 1, Nat.ne_of_gt hlt, ?_⟩
    rw [mergedIndex_of_ne (Nat.ne_of_gt hlt), shiftPast, if_pos hlt]
    rfl

/-- One number is taken away. -/
theorem mergedIndex_lt {n : Nat} (hr : r < n) (hc : c ≠ r) :
    mergedIndex l r c < n - 1 ↔ c < n := by
  rw [mergedIndex_of_ne hc, shiftPast]
  dsimp only [BlockId] at *
  split <;> omega

/-! ## Folding phis -/

/-- Instruction `p` is a phi whose first arm has value `v`. -/
def Folds (f : Function) (p : InstId) (v : Operand) : Prop :=
  ∃ ty arm arms, f.instruction? p = some (.phi ty (arm :: arms)) ∧ arm.value = v

/-- Replaces one operand. -/
def subst (old new v : Operand) : Operand := if v = old then new else v

/-- From the result of one of the phis `Gone` to the value it folds to. -/
def FoldStep (f : Function) (Gone : InstId → Prop) (v w : Operand) : Prop :=
  ∃ p, Gone p ∧ v = .result p ∧ f.Folds p w

/-- Folding a phi puts its value everywhere and detaches the phi. -/
theorem foldPhi_eq {v : Operand} (hp : f.Folds p v) :
    f.foldPhi p = (f.replaceUses (.result p) v).detach p := by
  obtain ⟨ty, arm, arms, hi, rfl⟩ := hp
  simp [foldPhi, hi]

/-- What folding the phis `phis` makes of a function, where `σ` says what becomes of an operand. -/
structure FoldsTo (f : Function) (phis : List InstId) (g : Function) (σ : Operand → Operand) :
    Prop where
  placed : g.Placed
  length : g.blocks.length = f.blocks.length
  body : ∀ c, g.body c = (f.body c).filter (· ∉ phis)
  instruction : ∀ x ∈ g.live, g.instruction? x = (f.instruction? x).map (·.mapOperands σ)
  traced : ∀ v, Relation.ReflTransGen (f.FoldStep (· ∈ phis)) v (σ v)
  reaches : ∀ v w, Relation.ReflTransGen (f.FoldStep (· ∈ phis)) v w →
    (∀ p ∈ phis, w ≠ .result p) → σ v = w

/-- Only the result of a phi that is gone is folded. -/
theorem FoldStep.isResult {Gone : InstId → Prop} {v w : Operand} (h : f.FoldStep Gone v w) :
    ∃ p, Gone p ∧ v = .result p := by
  obtain ⟨p, hp, hv, _⟩ := h
  exact ⟨p, hp, hv⟩

/-- No way leads on from an operand that is no folded phi. -/
theorem FoldStep.eq_of_ne {Gone : InstId → Prop} {v w : Operand}
    (hv : ∀ p, Gone p → v ≠ .result p) (h : Relation.ReflTransGen (f.FoldStep Gone) v w) :
    w = v := by
  rcases Relation.ReflTransGen.cases_head h with rfl | ⟨u, hstep, _⟩
  · rfl
  · obtain ⟨p, hp, heq⟩ := hstep.isResult
    exact absurd heq (hv p hp)

theorem FoldsTo.nil (hf : f.Placed) : f.FoldsTo [] f fun v => v where
  placed := hf
  length := rfl
  body c := by simp
  instruction x _ := by simp [Instruction.mapOperands_id]
  traced _ := .refl
  reaches v w h _ := (FoldStep.eq_of_ne (fun _ hp => absurd hp List.not_mem_nil) h).symm

/-- A phi folds to one value. -/
theorem Folds.unique {v w : Operand} (hv : f.Folds p v) (hw : f.Folds p w) : v = w := by
  obtain ⟨ty, arm, arms, hi, rfl⟩ := hv
  obtain ⟨ty', arm', arms', hi', rfl⟩ := hw
  rw [hi] at hi'
  cases hi'
  rfl

section Cons

variable {v : Operand} (hf : f.Placed) (hp : f.Folds p v)

include hf hp

/-- A folded phi is taken out of its block. -/
theorem body_foldPhi : (f.foldPhi p).body c = (f.body c).filter (· ≠ p) := by
  rw [foldPhi_eq hp, replaceUses, body_detach (hf.mapLive _), body_mapLive]

/-- Folding leaves every instruction in its block. -/
theorem placed_foldPhi : (f.foldPhi p).Placed := by
  rw [foldPhi_eq hp]
  exact (hf.mapLive _).detach p

omit hf in
/-- Folding puts the value for the phi in every instruction of the program. -/
theorem instruction?_foldPhi (hx : x ∈ f.live) : (f.foldPhi p).instruction? x =
    (f.instruction? x).map (·.mapOperands (subst (.result p) v)) := by
  rw [foldPhi_eq hp, instruction?_detach, replaceUses, instruction?_mapLive, if_pos hx]
  rfl

omit hf in
/-- Folding one phi renames the value of another one. -/
theorem folds_foldPhi {q : InstId} (hq : q ∈ f.live) {w : Operand} :
    (f.foldPhi p).Folds q w ↔ ∃ u, f.Folds q u ∧ subst (.result p) v u = w := by
  simp only [Folds, instruction?_foldPhi hp hq]
  constructor
  · intro hex
    obtain ⟨ty, arm, arms, hi, rfl⟩ := hex
    obtain ⟨i, hq', heq⟩ := Option.map_eq_some_iff.mp hi
    cases i with
    | phi ty' arms' =>
        cases arms' with
        | nil => simp [Instruction.mapOperands] at heq
        | cons arm' arms' =>
            simp only [Instruction.mapOperands, List.map_cons, Instruction.phi.injEq,
              List.cons.injEq] at heq
            obtain ⟨_, rfl, _⟩ := heq
            exact ⟨_, ⟨ty', arm', arms', hq', rfl⟩, rfl⟩
    | _ => simp [Instruction.mapOperands] at heq
  · intro hex
    obtain ⟨u, ⟨ty, arm, arms, hi, rfl⟩, rfl⟩ := hex
    rw [hi]
    exact ⟨ty, _, _, rfl, rfl⟩

omit hf in
/-- Folding one phi first, a way goes over what the phi folds to. -/
theorem FoldStep.of_foldPhi (hlive : ∀ q ∈ phis, q ∈ f.live) {u w : Operand}
    (h : (f.foldPhi p).FoldStep (· ∈ phis) u w) :
    Relation.ReflTransGen (f.FoldStep (· ∈ p :: phis)) u w := by
  obtain ⟨q, hq, rfl, hfold⟩ := h
  obtain ⟨y, hy, rfl⟩ := (folds_foldPhi hp (hlive q hq)).mp hfold
  refine .head ⟨q, List.mem_cons_of_mem _ hq, rfl, hy⟩ ?_
  unfold subst
  split
  · exact .single ⟨p, List.mem_cons_self, ‹_›, hp⟩
  · exact .refl

omit hf in
/-- A way stays one when one phi is folded first, with the phi's value in place of the phi. -/
theorem FoldStep.to_foldPhi (hlive : ∀ q ∈ phis, q ∈ f.live) {u w : Operand}
    (h : f.FoldStep (· ∈ p :: phis) u w) :
    Relation.ReflTransGen ((f.foldPhi p).FoldStep (· ∈ phis)) (subst (.result p) v u)
      (subst (.result p) v w) := by
  obtain ⟨q, hq, rfl, hw⟩ := h
  by_cases hqp : q = p
  · subst hqp
    obtain rfl := hp.unique hw
    have hself : subst (.result q) v v = v := by
      unfold subst
      split <;> rfl
    rw [hself, subst, if_pos rfl]
  · have hq' : q ∈ phis := (List.mem_cons.mp hq).resolve_left hqp
    rw [subst, if_neg (by simpa using hqp)]
    exact .single ⟨q, hq', rfl, (folds_foldPhi hp (hlive q hq')).mpr ⟨w, hw, rfl⟩⟩

/-- Folding one phi and then others folds them all. -/
theorem FoldsTo.cons (hlive : ∀ q ∈ phis, q ∈ f.live)
    (h : (f.foldPhi p).FoldsTo phis g σ) :
    f.FoldsTo (p :: phis) g fun w => σ (subst (.result p) v w) := by
  have hbody : ∀ c, g.body c = (f.body c).filter (· ∉ p :: phis) := by
    intro c
    rw [h.body, body_foldPhi hf hp, List.filter_filter]
    refine List.filter_congr fun x _ => ?_
    simp [Bool.and_comm]
  have hin : ∀ x ∈ g.live, x ∈ f.live := by
    intro x hx
    obtain ⟨c, hc⟩ := mem_live.mp hx
    rw [hbody, List.mem_filter] at hc
    exact mem_live_of_mem_body hc.1
  refine ⟨h.placed, h.length.trans ?_, hbody, fun x hx => ?_, fun w => ?_, fun u w hway hw => ?_⟩
  · rw [foldPhi_eq hp, length_blocks_detach]
    rfl
  · rw [h.instruction x hx, instruction?_foldPhi hp (hin x hx), Option.map_map]
    cases f.instruction? x with
    | none => rfl
    | some i => exact congrArg some Instruction.mapOperands_mapOperands
  · have hfirst : Relation.ReflTransGen (f.FoldStep (· ∈ p :: phis)) w
        (subst (.result p) v w) := by
      unfold subst
      split
      · exact .single ⟨p, List.mem_cons_self, ‹_›, hp⟩
      · exact .refl
    have hclosed := Relation.reflTransGen_closed (r := (f.foldPhi p).FoldStep (· ∈ phis))
      fun _ _ hstep => hstep.of_foldPhi hp hlive
    exact hfirst.trans (hclosed _ _ (h.traced _))
  · have hself : subst (.result p) v w = w := if_neg (hw p List.mem_cons_self)
    refine h.reaches _ _ ?_ fun q hq => hw q (List.mem_cons_of_mem _ hq)
    rw [← hself]
    exact hway.lift' (subst (.result p) v) fun _ _ hstep => hstep.to_foldPhi hp hlive

end Cons

/-- Folding a list of phis one after another. -/
theorem foldsTo_foldl (hf : f.Placed) (phis : List InstId) (hnodup : phis.Nodup)
    (hphis : ∀ p ∈ phis, p ∈ f.live ∧ ∃ v, f.Folds p v) :
    ∃ σ, f.FoldsTo phis (phis.foldl foldPhi f) σ := by
  induction phis generalizing f with
  | nil => exact ⟨_, .nil hf⟩
  | cons p phis ih =>
      obtain ⟨hmem, hnodup⟩ := List.nodup_cons.mp hnodup
      obtain ⟨_, v, hp⟩ := hphis p List.mem_cons_self
      have hlive : ∀ q ∈ phis, q ∈ f.live := fun q hq => (hphis q (List.mem_cons_of_mem _ hq)).1
      obtain ⟨σ, h⟩ := ih (placed_foldPhi hf hp) hnodup fun q hq => by
        obtain ⟨hq', w, hw⟩ := hphis q (List.mem_cons_of_mem _ hq)
        obtain ⟨c, hc⟩ := mem_live.mp hq'
        refine ⟨mem_live.mpr ⟨c, ?_⟩, _, (folds_foldPhi hp hq').mpr ⟨w, hw, rfl⟩⟩
        rw [body_foldPhi hf hp, List.mem_filter]
        exact ⟨hc, by simpa using fun e : q = p => hmem (e ▸ hq)⟩
      exact ⟨_, .cons hf hp hlive h⟩

/-! ## The whole merge -/

/-- Whether an instruction is a phi. -/
def isPhiAt (f : Function) (id : InstId) : Bool := (f.instruction? id).any (·.isPhi)

/-- A number stands for a phi when its instruction is one. -/
theorem isPhiAt_iff : f.isPhiAt x = true ↔ ∃ ty arms, f.instruction? x = some (.phi ty arms) := by
  rw [isPhiAt, Option.any_eq_true]
  constructor
  · intro hex
    obtain ⟨i, hi, hphi⟩ := hex
    cases i with
    | phi ty arms => exact ⟨ty, arms, hi⟩
    | _ => cases hphi
  · intro hex
    obtain ⟨ty, arms, hi⟩ := hex
    exact ⟨_, hi, rfl⟩

/-- `σ` follows each operand from phi to value through the phis of block `r`, to the end if there is
one. -/
structure FoldsPhis (f : Function) (r : BlockId) (σ : Operand → Operand) : Prop where
  traced : ∀ v, Relation.ReflTransGen (f.FoldStep (· ∈ f.body r)) v (σ v)
  reaches : ∀ v w, Relation.ReflTransGen (f.FoldStep (· ∈ f.body r)) v w →
    (∀ p ∈ f.body r, f.isPhiAt p = true → w ≠ .result p) → σ v = w

/-- What appending block `r` to block `l` makes of a function, where `front` is what `l` lists
before its jump and `σ` says what becomes of an operand. -/
structure Merges (f g : Function) (l r : BlockId) (t : InstId) (front : List InstId)
    (σ : Operand → Operand) : Prop extends FoldsPhis f r σ where
  pair : f.ChainPair l r t
  body_old : f.body l = front ++ [t]
  placed : g.Placed
  length : g.blocks.length = f.blocks.length - 1
  body_merged : g.body (mergedIndex l r l) = front ++ (f.body r).filter fun id => ¬ f.isPhiAt id
  body : ∀ c, c ≠ l → c ≠ r → g.body (mergedIndex l r c) = f.body c
  instruction : ∀ x ∈ g.live, g.instruction? x =
    (f.instruction? x).map fun i => (i.mapOperands σ).mapBlocks (mergedIndex l r)

/-- What folds is a phi. -/
theorem Folds.isPhiAt {v : Operand} (h : f.Folds p v) : f.isPhiAt p = true := by
  obtain ⟨ty, arm, arms, hi, _⟩ := h
  simp [Function.isPhiAt, hi, Instruction.isPhi]

namespace FoldsPhis

variable {v : Operand} (h : f.FoldsPhis r σ)

include h

/-- Other operands than the folded phis stay. -/
theorem fixed (v : Operand) (hv : ∀ p ∈ f.body r, f.isPhiAt p = true → v ≠ .result p) :
    σ v = v :=
  h.reaches v v .refl hv

/-- A phi is folded to its value, unless that is a phi of the block again. -/
theorem folded (hfree : ∀ p ∈ f.body r, ∀ v, f.Folds p v → ∀ q ∈ f.body r, f.isPhiAt q = true →
    v ≠ .result q) : ∀ p ∈ f.body r, ∀ v, f.Folds p v → σ (.result p) = v :=
  fun p hp v hv => h.reaches _ _ (.single ⟨p, hp, rfl, hv⟩) (hfree p hp v hv)

end FoldsPhis

/-- Folding the phis of a block leaves its other instructions. -/
theorem foldsTo_foldPhis (hf : f.Placed)
    (hphis : ∀ p ∈ f.body r, f.isPhiAt p = true → ∃ v, f.Folds p v) :
    ∃ σ, f.FoldsTo ((f.body r).filter f.isPhiAt) (f.foldPhis r) σ :=
  foldsTo_foldl hf _ ((hf.nodup r).filter _) fun p hp => by
    obtain ⟨hmem, hphi⟩ := List.mem_filter.mp hp
    exact ⟨mem_live_of_mem_body hmem, hphis p hmem hphi⟩

/-- Folding the phis of a block leaves the other blocks as they are. -/
theorem FoldsTo.body_of_ne (hf : f.Placed) (h : f.FoldsTo ((f.body r).filter f.isPhiAt) g σ)
    (hc : c ≠ r) : g.body c = f.body c := by
  rw [h.body]
  refine List.filter_eq_self.mpr fun x hx => ?_
  rw [decide_eq_true_eq, List.mem_filter, not_and]
  exact fun hx' => absurd (hf.block_unique hx hx') hc

/-- The block itself loses its phis. -/
theorem FoldsTo.body_self (h : f.FoldsTo ((f.body r).filter f.isPhiAt) g σ) :
    g.body r = (f.body r).filter fun id => ¬ f.isPhiAt id := by
  rw [h.body]
  refine List.filter_congr fun x hx => ?_
  simp [hx]

/-- Detaching the jump at the end of a block leaves what is in front of it. -/
theorem body_detach_front (hf : f.Placed) (hfront : f.body l = front ++ [t]) :
    (f.detach t).body l = front ∧ ∀ c, c ≠ l → (f.detach t).body c = f.body c := by
  have hnodup := hf.nodup l
  rw [hfront, List.nodup_append] at hnodup
  refine ⟨?_, fun c hc => ?_⟩
  · rw [body_detach hf, hfront, List.filter_append]
    have hself : front.filter (· ≠ t) = front :=
      List.filter_eq_self.mpr fun x hx => by simpa using hnodup.2.2 x hx t (by simp)
    rw [hself]
    simp
  · rw [body_detach hf]
    refine List.filter_eq_self.mpr fun x hx => ?_
    have hne : x ≠ t := by
      intro heq
      subst heq
      exact hc (hf.block_unique hx (by simp [hfront] : x ∈ f.body l))
    simpa using hne

/-! ## Joining two blocks -/

section Join

variable {h : Function} (hne : r ≠ l) (hl : l < h.blocks.length)

include hne hl

/-- The rest of block `r` follows block `l`, and the other blocks stay. -/
theorem body_join (hc : c ≠ r) :
    (((h.splice r l).redirect r l).removeBlock r).body (mergedIndex l r c) =
      if c = l then h.body l ++ h.body r else h.body c := by
  rw [mergedIndex_of_ne hc, body_removeBlock_shiftPast hc, redirect, body_mapLive,
    body_splice hne hl, if_neg hc]

/-- Appending a block brings nothing into the program. -/
theorem mem_live_of_splice (hx : x ∈ (h.splice r l).live) : x ∈ h.live := by
  obtain ⟨c, hc⟩ := mem_live.mp hx
  rw [body_splice hne hl] at hc
  split at hc
  · rcases List.mem_append.mp hc with hc | hc <;> exact mem_live_of_mem_body hc
  · split at hc
    · cases hc
    · exact mem_live_of_mem_body hc

/-- References to blocks are renamed. -/
theorem instruction?_join (hx : x ∈ (((h.splice r l).redirect r l).removeBlock r).live) :
    x ∈ h.live ∧ (((h.splice r l).redirect r l).removeBlock r).instruction? x =
      (h.instruction? x).map (·.mapBlocks (mergedIndex l r)) := by
  have hlive : x ∈ (h.splice r l).live := by
    obtain ⟨e, he⟩ := mem_live.mp hx
    rw [body_removeBlock] at he
    split at he <;> exact mem_live_of_mem_body (f := (_ : Function).redirect r l) he
  refine ⟨mem_live_of_splice hne hl hlive, ?_⟩
  rw [instruction?_removeBlock, redirect, instruction?_mapLive, if_pos hlive,
    instruction?_splice, Option.map_map]
  exact congrArg (fun k => (h.instruction? x).map k)
    (funext fun i => Instruction.mapBlocks_mapBlocks)

end Join

/-- What is left of `f` when the jump `t` at the end of `l` is gone and the phis of `r` are
folded. -/
structure Strips (f h : Function) (l r : BlockId) (front : List InstId) (σ : Operand → Operand) :
    Prop extends FoldsPhis f r σ where
  placed : h.Placed
  length : h.blocks.length = f.blocks.length
  left : h.body l = front
  right : h.body r = (f.body r).filter fun id => ¬ f.isPhiAt id
  other : ∀ c, c ≠ l → c ≠ r → h.body c = f.body c
  instruction : ∀ x ∈ h.live, h.instruction? x = (f.instruction? x).map (·.mapOperands σ)

/-- Dropping the jump and folding the phis strips a pair for the merge. -/
theorem strips_foldPhis (hf : f.Placed) (hpair : f.ChainPair l r t)
    (hphis : ∀ p ∈ f.body r, f.isPhiAt p = true → ∃ v, f.Folds p v)
    (hfront : f.body l = front ++ [t]) :
    ∃ σ, f.Strips ((f.dropBranch l).foldPhis r) l r front σ := by
  have hdrop : f.dropBranch l = f.detach t := by simp [dropBranch, hpair.term]
  obtain ⟨hleft, hother⟩ := body_detach_front hf hfront
  have hright : (f.detach t).body r = f.body r := hother r hpair.ne
  have hplaced := hf.detach t
  -- without the jump, phis and what they fold to are the same
  have hphi : ∀ x, (f.detach t).isPhiAt x = f.isPhiAt x := fun x => by simp [Function.isPhiAt]
  have hfolds : ∀ p v, (f.detach t).Folds p v ↔ f.Folds p v := fun p v => by simp [Folds]
  obtain ⟨σ, h⟩ := foldsTo_foldPhis (r := r) hplaced fun p hp hpphi => by
    obtain ⟨v, hv⟩ := hphis p (hright ▸ hp) ((hphi p).symm.trans hpphi)
    exact ⟨v, (hfolds p v).mpr hv⟩
  -- so the ways through the phis are the same, too
  have hstep : (f.detach t).FoldStep (· ∈ ((f.detach t).body r).filter (f.detach t).isPhiAt) =
      f.FoldStep (· ∈ f.body r) := by
    funext v w
    simp only [FoldStep, hfolds, hright, List.mem_filter, hphi, eq_iff_iff]
    refine exists_congr fun p => ?_
    exact ⟨fun ⟨hp, hrest⟩ => ⟨hp.1, hrest⟩, fun ⟨hp, hv, hw⟩ => ⟨⟨hp, hw.isPhiAt⟩, hv, hw⟩⟩
  rw [hdrop]
  refine ⟨σ, ⟨fun v => hstep ▸ h.traced v, fun v w hway hw => ?_⟩, h.placed,
    h.length.trans length_blocks_detach, ?_, ?_, fun c hcl hcr => ?_, fun x hx => ?_⟩
  · refine h.reaches v w (hstep ▸ hway) fun p hp => ?_
    rw [hright, List.mem_filter, hphi] at hp
    exact hw p hp.1 hp.2
  · rw [h.body_of_ne hplaced hpair.ne.symm, hleft]
  · rw [h.body_self, hright]
    simp only [hphi]
  · rw [h.body_of_ne hplaced hcr, hother c hcl]
  · rw [h.instruction x hx, instruction?_detach]

/-- Appending `r` to `l`: the jump goes, the phis are folded, the rest is moved and references
follow. -/
theorem merges_mergePair (hf : f.Placed) (hpair : f.ChainPair l r t) (hr : r < f.blocks.length)
    (hphis : ∀ p ∈ f.body r, f.isPhiAt p = true → ∃ v, f.Folds p v) :
    ∃ front σ, f.Merges (f.mergePair l r) l r t front σ := by
  obtain ⟨front, hfront⟩ := hpair.body
  obtain ⟨σ, h⟩ := strips_foldPhis hf hpair hphis hfront
  have hl : l < ((f.dropBranch l).foldPhis r).blocks.length := by
    rw [h.length]
    exact lt_length_of_mem_body (terminator_mem_body hpair.term)
  rw [mergePair]
  refine ⟨front, σ, h.toFoldsPhis, hpair, hfront, ?_, ?_, ?_, fun c hcl hcr => ?_,
    fun x hx => ?_⟩
  · exact ((h.placed.splice hpair.ne hl).mapLive _).removeBlock
  · rw [length_blocks_removeBlock]
    · simp [redirect, h.length]
    · simpa [redirect, h.length] using hr
  · rw [body_join hpair.ne hl hpair.ne.symm, if_pos rfl, h.left, h.right]
  · rw [body_join hpair.ne hl hcr, if_neg hcl, h.other c hcl hcr]
  · obtain ⟨hlive, hi⟩ := instruction?_join hpair.ne hl hx
    rw [hi, h.instruction x hlive, Option.map_map]
    rfl

/-! ## Names, labels and slots -/

/-- Folding a phi leaves labels and table in place. -/
theorem frame_foldPhi :
    (f.foldPhi p).labels = f.labels ∧ (f.foldPhi p).slots.length = f.slots.length := by
  unfold foldPhi
  split <;> simp [replaceUses]

theorem frame_foldl_foldPhi (phis : List InstId) : (phis.foldl foldPhi f).labels = f.labels ∧
    (phis.foldl foldPhi f).slots.length = f.slots.length := by
  induction phis generalizing f with
  | nil => exact ⟨rfl, rfl⟩
  | cons p phis ih =>
      obtain ⟨hlabels, hsize⟩ := ih (f := f.foldPhi p)
      exact ⟨hlabels.trans frame_foldPhi.1, hsize.trans frame_foldPhi.2⟩

theorem frame_dropBranch :
    (f.dropBranch l).labels = f.labels ∧ (f.dropBranch l).slots.length = f.slots.length := by
  rw [dropBranch]
  cases f.terminator? l <;> simp

/-- One label goes, and every instruction keeps its number. -/
theorem frame_mergePair : (f.mergePair l r).labels = f.labels.eraseIdx r ∧
    (f.mergePair l r).slots.length = f.slots.length := by
  obtain ⟨hlabels, hsize⟩ := f.frame_dropBranch (l := l)
  have hfold := (f.dropBranch l).frame_foldl_foldPhi
    (((f.dropBranch l).body r).filter (f.dropBranch l).isPhiAt)
  rw [hlabels, hsize] at hfold
  rw [mergePair, labels_removeBlock, size_removeBlock, redirect, labels_mapLive, size_mapLive,
    labels_splice, size_splice]
  exact ⟨congrArg (List.eraseIdx · r) hfold.1, hfold.2⟩

theorem name_foldPhi : (f.foldPhi p).name = f.name := by
  unfold foldPhi
  split <;> simp [replaceUses]

theorem name_foldl_foldPhi (phis : List InstId) : (phis.foldl foldPhi f).name = f.name := by
  induction phis generalizing f with
  | nil => rfl
  | cons p phis ih => exact (ih (f := f.foldPhi p)).trans name_foldPhi

/-- A function keeps its name. -/
@[simp] theorem name_mergePair : (f.mergePair l r).name = f.name := by
  have hdrop : (f.dropBranch l).name = f.name := by
    rw [dropBranch]
    cases f.terminator? l <;> simp
  exact (name_foldl_foldPhi _).trans hdrop

/-! ## All merges -/

/-- Merging chains gives the function that merging pairs gives. -/
theorem mergeChains_function : f.mergeChains.function = (mergePairs f.blocks.length f).1 := by
  unfold mergeChains
  split <;> rename_i heq <;> rw [heq]

/-- The journal of merging chains ends with a report if anything was merged. -/
theorem mergeChains_journal : f.mergeChains.journal = (mergePairs f.blocks.length f).2 ++
    if (mergePairs f.blocks.length f).2 = [] then [] else [.modified f.name] := by
  unfold mergeChains
  split <;> simp_all

/-- Merging chains says that it changed something when it merged a pair. -/
theorem mergeChains_changed :
    f.mergeChains.changed = true ↔ (mergePairs f.blocks.length f).2 ≠ [] := by
  unfold mergeChains
  split <;> simp_all

end Function

end Dataflow
