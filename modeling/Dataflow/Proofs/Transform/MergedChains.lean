import Dataflow.Proofs.Transform.Chains

/-!
# Merging makes each chain one block

A merge takes the chains of the function after it to those before it, with the block that a chain
becomes (`Function.Joins.step`). Merging until no pair is left (`Function.MergesTo`) therefore comes
to one block for each chain, which does not depend on the order of the merges
(`mergesChains_of_read`).
-/

namespace Dataflow

namespace Function

variable {f g k : Function} {b l r t : BlockId} {id x : InstId} {c : List BlockId}
  {cs : List (List BlockId)} {front : List InstId} {σ : Operand → Operand}

/-! ## Chains in one block -/

/-- The instructions of the blocks of a chain, without the phis of all blocks but the first and
without the last instructions of all but the last. -/
def chainBody (f : Function) : List BlockId → List InstId
  | [] => []
  | [b] => f.body b
  | b :: c :: rest =>
    (f.body b).dropLast ++ (f.chainBody (c :: rest)).filter fun id => ¬ f.isPhiAt id

/-- The block that the blocks of a chain become, with the label of the first. -/
def chainBlock (f : Function) (c : List BlockId) : Block where
  name := c.head?.elim "" f.blockName
  insts := f.chainBody c

theorem chainBody_cons (hc : c ≠ []) : f.chainBody (b :: c) =
    (f.body b).dropLast ++ (f.chainBody c).filter fun id => ¬ f.isPhiAt id := by
  cases c with
  | nil => exact absurd rfl hc
  | cons => rfl

theorem mem_live_of_mem_chainBody (hx : x ∈ f.chainBody c) : x ∈ f.live := by
  induction c with
  | nil => cases hx
  | cons b c ih =>
      by_cases hc : c = []
      · rw [hc] at hx
        exact mem_live_of_mem_body hx
      · rw [chainBody_cons hc, List.mem_append, List.mem_filter] at hx
        rcases hx with hx | hx
        · exact mem_live_of_mem_body (List.dropLast_subset _ hx)
        · exact ih hx.1

namespace Merges

variable (m : f.Merges g l r t front σ) (h : f.Flows)

include m h

/-- What the block that `l` and `r` became lists. -/
theorem chainBody_left : g.body (mergedIndex l r l) = f.chainBody [l, r] ∧
    (g.body (mergedIndex l r l)).dropLast =
      front ++ (f.body r).dropLast.filter fun id => ¬ f.isPhiAt id := by
  obtain ⟨init, s, hend⟩ := h.ends (h.lt_right m.pair)
  obtain ⟨i, hi, hterm⟩ := hend.instruction
  have hs : f.isPhiAt s = false := by
    simp [Function.isPhiAt, hi, Instruction.not_isPhi_of_isTerminator hterm]
  rw [m.body_merged]
  constructor
  · rw [chainBody, m.body_old, List.dropLast_concat, chainBody]
  · rw [hend.body, List.filter_append, List.filter_singleton, hs, List.dropLast_concat]
    simp [← List.append_assoc]

/-- A chain after the merge lists what the chain of the blocks before lists. -/
theorem chainBody_eq : g.chainBody c = f.chainBody (c.flatMap (blocksIn l r)) := by
  have hcon := m.contracts h
  induction c with
  | nil => rfl
  | cons e c ih =>
      have hphi : (g.chainBody c).filter (fun id => ¬ g.isPhiAt id) =
          (f.chainBody (c.flatMap (blocksIn l r))).filter fun id => ¬ f.isPhiAt id := by
        rw [← ih]
        exact List.filter_congr fun x hx => by rw [m.isPhiAt_eq (mem_live_of_mem_chainBody hx)]
      have hnil : c ≠ [] → c.flatMap (blocksIn l r) ≠ [] := fun hc heq =>
        hc (flatMap_blocksIn_eq_nil.mp heq)
      by_cases he : e = mergedIndex l r l
      · subst he
        obtain ⟨hbody, hinit⟩ := m.chainBody_left h
        rw [List.flatMap_cons, hcon.blocksIn_left]
        by_cases hc : c = []
        · rw [hc]
          exact hbody
        · rw [chainBody_cons hc, hphi, hinit, List.cons_append, List.cons_append, List.nil_append,
            chainBody_cons (List.cons_ne_nil _ _), chainBody_cons (hnil hc), m.body_old,
            List.dropLast_concat, List.filter_append, List.filter_filter, List.append_assoc]
          simp
      · have hbody : g.body e = f.body (shiftBack r e) := by
          have hne : shiftBack r e ≠ l := fun heq => he (heq ▸ mergedIndex_shiftBack.symm)
          rw [← m.body _ hne shiftBack_ne, mergedIndex_shiftBack]
        rw [List.flatMap_cons, blocksIn, if_neg he, List.singleton_append]
        by_cases hc : c = []
        · rw [hc]
          exact hbody
        · rw [chainBody_cons hc, hphi, hbody, chainBody_cons (hnil hc)]

end Merges

/-- A block after a merge is called as before it. -/
theorem blockName_mergePair {e : BlockId} :
    (f.mergePair l r).blockName e = f.blockName (shiftBack r e) := by
  rw [blockName_eq, blockName_eq, frame_mergePair.1, List.getElem?_eraseIdx, shiftBack]
  split <;> rfl

theorem chainBlock_mergePair (m : f.Merges (f.mergePair l r) l r t front σ) (h : f.Flows) :
    (f.mergePair l r).chainBlock c = f.chainBlock (c.flatMap (blocksIn l r)) := by
  rw [chainBlock, chainBlock, m.chainBody_eq h, head?_flatMap_blocksIn]
  cases c with
  | nil => rfl
  | cons e c => simp [blockName_mergePair]

/-! ## Merging until no pair is left -/

/-- Merging the first pair as long as there is one makes `g` of `f`, with the events on the way. -/
inductive MergesTo : Function → Function → Journal → Prop
  | done {f : Function} (h : f.chainPair? = none) : MergesTo f f []
  | step {f g : Function} {l r : BlockId} {events : Journal} (h : f.chainPair? = some (l, r))
      (hrest : MergesTo (f.mergePair l r) g events) :
      MergesTo f g (.merging (f.blockName r) (f.blockName l) f.name :: events)

/-- There are fewer merges than blocks. -/
theorem mergesTo_mergePairs (h : f.Flows) {bound : Nat} (hbound : f.blocks.length ≤ bound) :
    f.MergesTo (mergePairs bound f).1 (mergePairs bound f).2 := by
  induction bound generalizing f with
  | zero =>
      refine .done (chainPair?_eq_none.mpr fun b t hbt => ?_)
      exact Nat.not_lt_zero b (Nat.lt_of_lt_of_le hbt.lt_length hbound)
  | succ bound ih =>
      rw [mergePairs]
      split
      · rename_i hpair
        exact .done hpair
      · rename_i l r hpair
        obtain ⟨t, hchain⟩ := chainPair?_eq_some hpair
        obtain ⟨front, σ, m⟩ := h.merges hchain
        refine .step hpair (ih (m.flows h) ?_)
        rw [m.length]
        exact Nat.sub_le_of_le_add hbound

/-- Function `g` is `f` with each of the chains `cs` in one block. The first of each of `pairs` is
appended to the second. -/
structure Joins (f g : Function) (cs : List (List BlockId)) (pairs : List (BlockId × BlockId)) :
    Prop where
  chains : f.Chains cs
  /-- The blocks are the chains in order. -/
  blocks : g.blocks = cs.map f.chainBlock
  /-- Each block of a chain but the first is appended once. -/
  appended : (pairs.map (·.1)).Perm (cs.flatMap List.tail)
  /-- A block is appended to one before it in its chain. -/
  order : ∀ p ∈ pairs, ∃ c ∈ cs, [p.2, p.1].Sublist c
  /-- Nothing is left to append. -/
  final : ∀ b t, ¬ g.ChainEdge b t

/-- The event of appending the first block of a pair to the second. -/
def merging (f : Function) (p : BlockId × BlockId) : Event :=
  .merging (f.blockName p.1) (f.blockName p.2) f.name

/-- A function without chain edges has each of its blocks as a chain. -/
theorem joins_self (h : ∀ b t, ¬ f.ChainEdge b t) : f.Joins f (f.blockIds.map ([·])) [] where
  chains := .single h
  blocks := by
    refine List.ext_getElem? fun b => ?_
    by_cases hb : b < f.blocks.length
    · simp [blockIds, hb, chainBlock, chainBody, blockName, body]
    · simp [blockIds, hb]
  appended := by simp [List.flatMap_map]
  order p hp := absurd hp List.not_mem_nil
  final := h

/-- The blocks of a list of chains are the first ones and the others. -/
theorem heads_append_tails_perm (cs : List (List BlockId)) :
    (cs.filterMap List.head? ++ cs.flatMap List.tail).Perm cs.flatten := by
  induction cs with
  | nil => exact .refl _
  | cons c cs ih =>
      cases c with
      | nil => exact ih
      | cons b c =>
          have hmove := List.perm_append_comm_assoc (cs.filterMap List.head?) c
            (cs.flatMap List.tail)
          simpa using hmove.trans (ih.append_left c)

/-- A merge puts the pair first and the blocks before it in the place of each block after it. -/
theorem Joins.step {pairs : List (BlockId × BlockId)} (h : f.Flows)
    (hpair : f.chainPair? = some (l, r)) (hg : (f.mergePair l r).Joins g cs pairs) :
    f.Joins g (cs.map (·.flatMap (blocksIn l r)))
      ((r, l) :: pairs.map (Prod.map (shiftBack r) (shiftBack r))) := by
  obtain ⟨hlr, hleast⟩ := chainEdge_of_chainPair? hpair
  obtain ⟨t, hchain⟩ := hlr
  obtain ⟨front, σ, m⟩ := h.merges hchain
  have hcon := m.contracts h
  have hchains := hcon.chains ⟨t, hchain⟩ hleast hg.chains
  refine ⟨hchains, ?_, ?_, fun p hp => ?_, hg.final⟩
  · rw [hg.blocks, List.map_map]
    exact List.map_congr_left fun c _ => chainBlock_mergePair m h
  · -- with the first blocks of the chains, both are all blocks
    refine (List.perm_append_left_iff
      ((cs.map (·.flatMap (blocksIn l r))).filterMap List.head?)).mp ?_
    have hall := cons_map_shiftBack_perm hcon.lt_right
    have hbefore := (hg.appended.append_left _).trans
      ((heads_append_tails_perm cs).trans hg.chains.perm)
    rw [blockIds, hcon.length] at hbefore
    refine List.Perm.trans ?_ ((heads_append_tails_perm _).trans hchains.perm).symm
    refine List.Perm.trans ?_ hall
    rw [filterMap_head?_blocksIn, List.map_cons, List.map_map]
    refine List.perm_middle.trans (.cons r ?_)
    have hmap := hbefore.map (shiftBack r)
    rwa [List.map_append, List.map_map] at hmap
  · rcases List.mem_cons.mp hp with rfl | hp
    · obtain ⟨k, hk, hl⟩ := hg.chains.exists_mem (hcon.mergedIndex_lt_length.mpr hcon.lt_left)
      refine ⟨_, List.mem_map_of_mem hk, ?_⟩
      have hsub := List.sublist_flatten_of_mem (List.mem_map_of_mem (f := blocksIn l r) hl)
      rwa [hcon.blocksIn_left] at hsub
    · obtain ⟨q, hq, rfl⟩ := List.mem_map.mp hp
      obtain ⟨k, hk, hsub⟩ := hg.order q hq
      exact ⟨_, List.mem_map_of_mem hk, (hsub.map (shiftBack r)).trans map_shiftBack_sublist⟩

/-- When no pair is left, each chain has become one block. -/
theorem MergesTo.joins {events : Journal} (h : f.Flows) (hg : f.MergesTo g events) :
    ∃ cs pairs, f.Joins g cs pairs ∧ events = pairs.map f.merging := by
  induction hg with
  | done hnone => exact ⟨_, [], joins_self (chainPair?_eq_none.mp hnone), rfl⟩
  | @step f g l r events hpair hrest ih =>
      obtain ⟨t, hchain⟩ := chainPair?_eq_some hpair
      obtain ⟨front, σ, m⟩ := h.merges hchain
      obtain ⟨cs, pairs, hjoins, rfl⟩ := ih (m.flows h)
      refine ⟨_, _, hjoins.step h hpair, ?_⟩
      rw [List.map_cons, List.map_map]
      refine congrArg _ (List.map_congr_left fun p _ => ?_)
      simp [merging, blockName_mergePair]

/-- Change `change` makes each of the chains `cs` of a function one block: the first of each of
`pairs` is appended to the second, one after another. -/
structure MergesChains (f : Function) (change : Change) (cs : List (List BlockId))
    (pairs : List (BlockId × BlockId)) : Prop extends f.Joins change.function cs pairs where
  /-- The chains are determined. -/
  only : ∀ cs', f.Chains cs' → cs' = cs
  /-- They are what chain edges connect. -/
  component : ∀ c ∈ cs, ∀ b ∈ c, ∀ t, t ∈ c ↔ Relation.EqvGen f.ChainEdge b t
  /-- Merging pair after pair comes to an end, and to this function. -/
  ends : f.MergesTo change.function (pairs.map f.merging)
  journal : change.journal =
    pairs.map f.merging ++ if pairs = [] then [] else [.modified f.name]
  changed : change.changed = true ↔ ∃ c ∈ cs, c.tail ≠ []
  /-- Merging again changes nothing. -/
  again : change.function.mergeChains = ⟨change.function, false, []⟩

theorem mergePairs_of_none (h : f.chainPair? = none) (bound : Nat) :
    mergePairs bound f = (f, []) := by
  cases bound with
  | zero => rfl
  | succ bound => rw [mergePairs, h]

/-- Merging makes each chain one block, whatever the order of the merges. -/
theorem mergesChains (h : f.Flows) : ∃ cs pairs, f.MergesChains f.mergeChains cs pairs := by
  have hends := mergesTo_mergePairs h (Nat.le_refl _)
  rw [← mergeChains_function] at hends
  obtain ⟨cs, pairs, hjoins, hevents⟩ := hends.joins h
  have hnone := chainPair?_eq_none.mpr hjoins.final
  refine ⟨cs, pairs, hjoins, fun cs' hcs' => hcs'.unique hjoins.chains,
    fun c hc b hb t => hjoins.chains.mem_iff hc hb, hevents ▸ hends, ?_, ?_, ?_⟩
  · simp only [mergeChains_journal, hevents, List.map_eq_nil_iff]
  · -- no merge means no block but the first ones
    rw [mergeChains_changed, hevents, ne_eq, List.map_eq_nil_iff,
      ← List.map_eq_nil_iff (f := Prod.fst), ← List.length_eq_zero_iff,
      hjoins.appended.length_eq, List.length_eq_zero_iff]
    simp
  · rw [mergeChains, mergePairs_of_none hnone]

end Function

/-- Merging the blocks of a function makes exactly its chains one block each. -/
theorem mergesChains_of_read {text : String} {source : Module} {f : Function}
    (hread : Module.readChecked text = .ok source) (hf : f ∈ source.functions) :
    ∃ cs pairs, f.MergesChains f.mergeChains cs pairs :=
  Function.mergesChains (Function.flows_of_checked (Module.readChecked_checked hread hf))

/-- A function with a chain that leads back in the text, two blocks that lead to each other and one
that leads to itself. -/
def windingChains : Function where
  name := "f"
  ret := .int 32
  params := [⟨"a", .int 32⟩]
  blocks := [⟨"entry", [0]⟩, ⟨"back", [1, 2]⟩, ⟨"late", [3, 4]⟩, ⟨"ring", [5]⟩, ⟨"self", [6]⟩,
    ⟨"next", [7]⟩]
  slots := [
    ⟨none, .jump 2, 0⟩,
    ⟨some "y", .phi (.int 32) [⟨.result 3, 2⟩], 1⟩,
    ⟨none, .ret (some ⟨.int 32, .result 1⟩), 1⟩,
    ⟨some "x", .binary .add (.int 32) (.param 0) (.const ⟨.int 32, "1"⟩), 2⟩,
    ⟨none, .jump 1, 2⟩,
    ⟨none, .jump 5, 3⟩,
    ⟨none, .jump 4, 4⟩,
    ⟨none, .jump 3, 5⟩]

/-- The text of `windingChains`. -/
def windingChainsText : String :=
  "define i32 @f(i32 %a) \x7b\nentry:\n  br label %late\nback:\n" ++
    "  %y = phi i32 [ %x, %late ]\n  ret i32 %y\nlate:\n  %x = add i32 %a, 1\n" ++
    "  br label %back\nring:\n  br label %next\nself:\n  br label %self\nnext:\n" ++
    "  br label %ring\n\x7d\n"

theorem read_windingChains : Module.readChecked windingChainsText = .ok ⟨[windingChains]⟩ := by
  decide +kernel

theorem mergesChains_windingChains :
    windingChains.mergeChains.function.blocks =
        [⟨"entry", [3, 2]⟩, ⟨"ring", [7]⟩, ⟨"self", [6]⟩] ∧
      ∃ cs pairs, windingChains.MergesChains windingChains.mergeChains cs pairs ∧
        cs.length = 3 ∧ pairs.length = 3 := by
  have hblocks : windingChains.mergeChains.function.blocks =
      [⟨"entry", [3, 2]⟩, ⟨"ring", [7]⟩, ⟨"self", [6]⟩] := by decide +kernel
  have hjournal : windingChains.mergeChains.journal.length = 4 := by decide +kernel
  obtain ⟨cs, pairs, h⟩ := mergesChains_of_read read_windingChains List.mem_cons_self
  refine ⟨hblocks, cs, pairs, h, ?_, ?_⟩
  · simpa [hblocks] using (congrArg List.length h.blocks).symm
  · rw [h.journal, List.length_append, List.length_map] at hjournal
    split at hjournal <;> simp_all

end Dataflow
