import Dataflow.Proofs.Transform.Mergeable
import Mathlib.Data.List.Chain
import Mathlib.Data.List.Flatten
import Mathlib.Data.List.Perm.Basic

/-!
# Chains of blocks

A chain edge leads from a block to the one that can be appended to it (`Function.ChainEdge`), and
`Function.Chains` says that a list of chains is the division of the blocks by these edges, which is
determined (`Chains.unique`). When two blocks become one, the chain edges are those between the
blocks that are left (`Contracts.chainEdge_iff`), so that the chains before are those after it, with
both blocks in the place of the one (`Contracts.chains`).
-/

namespace Dataflow.Function

variable {f g : Function} {b c l p r s t : BlockId} {e e' : BlockId} {id : InstId}
  {cs : List (List BlockId)} {k : List BlockId}

/-! ## Edges -/

/-- Block `t` can be appended to block `b`: control goes from `b` to `t` by a plain branch and comes
to `t` no other way, and `t` is neither `b` nor the first block. -/
def ChainEdge (f : Function) (b t : BlockId) : Prop := ∃ id, f.ChainPair b t id

/-- Control goes one way where there is a chain edge. -/
theorem chainEdge_iff : f.ChainEdge b t ↔
    f.successors b = [t] ∧ t ≠ b ∧ t ≠ 0 ∧ f.predecessors t = [b] := by
  constructor
  · rintro ⟨id, h⟩
    exact ⟨h.successors, h.ne, h.ne_entry, h.pred⟩
  · rintro ⟨hsucc, hne, hentry, hpred⟩
    cases hterm : f.terminator? b with
    | none => simp [successors, hterm] at hsucc
    | some id =>
        cases hi : f.instruction? id with
        | none => simp [successors, hterm, hi] at hsucc
        | some i =>
            rw [successors_eq_of_terminator hterm hi] at hsucc
            cases i with
            | jump target =>
                obtain rfl : target = t := by simpa [Instruction.successors] using hsucc
                exact ⟨id, hterm, hi, hne, hentry, hpred⟩
            | _ => simp [Instruction.successors] at hsucc

theorem ChainEdge.target_unique (h : f.ChainEdge b t) (h' : f.ChainEdge b c) : t = c := by
  have heq := (chainEdge_iff.mp h).1.symm.trans (chainEdge_iff.mp h').1
  exact List.singleton_inj.mp heq

theorem ChainEdge.lt_length (h : f.ChainEdge b t) : b < f.blocks.length :=
  lt_length_of_mem_successors (c := t) (by simp [(chainEdge_iff.mp h).1])

/-- What the search for a pair looks for at a block. -/
theorem chainTarget?_eq_some (hb : b < f.blocks.length) :
    f.chainTarget? f.ways b = some t ↔ f.ChainEdge b t := by
  have hentry := entry?_of_lt hb
  constructor
  · intro h
    unfold chainTarget? at h
    split at h
    · rename_i target hterm
      obtain ⟨id, hid, hi⟩ := Option.bind_eq_some_iff.mp hterm
      split at h
      · rename_i hcond
        obtain ⟨hne, hne', hinto⟩ := hcond
        cases h
        rw [hentry] at hne'
        rw [into_ways] at hinto
        exact ⟨id, hid, hi, hne, fun hzero => hne' (congrArg some hzero), hinto⟩
      · cases h
    · cases h
  · rintro ⟨id, h⟩
    have hne : some t ≠ f.entry? := by
      rw [hentry]
      exact fun heq => h.ne_entry (Option.some.inj heq)
    simp [chainTarget?, h.term, h.jump, h.ne, hne, into_ways, h.pred]

/-- The pair that is merged next is the first chain edge. -/
theorem chainEdge_of_chainPair? (h : f.chainPair? = some (l, r)) :
    f.ChainEdge l r ∧ ∀ b t, f.ChainEdge b t → l ≤ b := by
  obtain ⟨id, hpair⟩ := chainPair?_eq_some h
  refine ⟨⟨id, hpair⟩, fun b t hbt => ?_⟩
  obtain ⟨before, a, after, hids, hfound, hnone⟩ := List.findSome?_eq_some_iff.mp h
  obtain ⟨_, _, heq⟩ := Option.map_eq_some_iff.mp hfound
  cases heq
  have hsorted : (before ++ l :: after).Pairwise (· < ·) := hids ▸ List.pairwise_lt_range
  have hmem : b ∈ before ++ l :: after := hids ▸ mem_blockIds.mpr hbt.lt_length
  rcases List.mem_append.mp hmem with hmem | hmem
  · -- the search has passed this block
    have hpassed := hnone b hmem
    rw [(chainTarget?_eq_some hbt.lt_length).mpr hbt] at hpassed
    cases hpassed
  · rcases List.mem_cons.mp hmem with rfl | hmem
    · exact Nat.le_refl _
    · exact Nat.le_of_lt (List.rel_of_pairwise_cons (List.pairwise_append.mp hsorted).2.1 hmem)

/-- The search finds a pair as long as there is a chain edge. -/
theorem chainPair?_eq_none : f.chainPair? = none ↔ ∀ b t, ¬ f.ChainEdge b t := by
  constructor
  · intro h b t hbt
    have hpassed := List.findSome?_eq_none_iff.mp h b (mem_blockIds.mpr hbt.lt_length)
    rw [(chainTarget?_eq_some hbt.lt_length).mpr hbt] at hpassed
    cases hpassed
  · intro h
    refine List.findSome?_eq_none_iff.mpr fun b hb => ?_
    rw [Option.map_eq_none_iff, Option.eq_none_iff_forall_ne_some]
    exact fun t ht => h b t ((chainTarget?_eq_some (mem_blockIds.mp hb)).mp ht)

/-! ## Edges between the blocks that are left -/

/-- One block is all that leads to a block if it is the only one to do so. -/
theorem predecessors_eq_singleton :
    f.predecessors t = [b] ↔ ∀ s, s ∈ f.predecessors t ↔ s = b := by
  constructor
  · intro h s
    rw [h, List.mem_singleton]
  · intro h
    have hnodup : (f.predecessors t).Nodup := List.nodup_range.filter _
    exact List.perm_singleton.mp ((List.perm_ext_iff_of_nodup hnodup (List.nodup_singleton b)).mpr
      fun s => by rw [h, List.mem_singleton])

namespace Contracts

variable (h : f.Contracts g l r)

include h

theorem chainEdge_left : f.ChainEdge l t → t = r := fun hlt =>
  List.singleton_inj.mp ((chainEdge_iff.mp hlt).1.symm.trans h.succ)

theorem chainEdge_right : f.ChainEdge b r → b = l := fun hbr =>
  List.singleton_inj.mp ((chainEdge_iff.mp hbr).2.2.2.symm.trans h.pred)

/-- What goes to a block alone goes to what the block became alone. -/
theorem successors_eq_singleton (hb : b ≠ l) (hc : c ≠ r) :
    g.successors (mergedIndex l r b) = [mergedIndex l r c] ↔ f.successors b = [c] := by
  rw [h.successors hb, List.map_eq_singleton_iff]
  constructor
  · intro hex
    obtain ⟨s, hs, heq⟩ := hex
    have hsr : s ≠ r := by
      intro hsr
      subst hsr
      exact hb (h.eq_left (by simp [hs]))
    rw [hs, mergedIndex_inj hsr hc heq]
  · exact fun hs => ⟨c, hs, rfl⟩

theorem predecessors_eq_singleton_iff (hb : b ≠ l) (hc : c ≠ r) :
    g.predecessors (mergedIndex l r c) = [mergedIndex l r b] ↔ f.predecessors c = [b] := by
  rw [predecessors_eq_singleton, predecessors_eq_singleton]
  constructor
  · intro honly s
    have hiff : ∀ s ∈ f.predecessors c, s = b := fun s hs =>
      h.inj_of_ne_left (h.predecessor_ne hc hs) hb
        ((honly _).mp ((h.mem_predecessors_iff hc).mpr ⟨s, hs, rfl⟩))
    refine ⟨hiff s, ?_⟩
    rintro rfl
    obtain ⟨s', hs', heq⟩ := (h.mem_predecessors_iff hc).mp ((honly _).mpr rfl)
    rwa [hiff s' hs'] at hs'
  · intro honly e
    rw [h.mem_predecessors_iff hc]
    constructor
    · rintro ⟨s, hs, rfl⟩
      rw [(honly s).mp hs]
    · rintro rfl
      exact ⟨b, (honly b).mpr rfl, rfl⟩

/-- The chain edges after a merge are those before it, but for the merged pair: `l` is left only
to `r`, and a way back from `r` to `l` is now one from a block to itself. -/
theorem chainEdge_iff (hb : b ≠ l) (hc : c ≠ r) :
    g.ChainEdge (mergedIndex l r b) (mergedIndex l r c) ↔
      f.ChainEdge b c ∧ mergedIndex l r c ≠ mergedIndex l r b := by
  have hzero := mergedIndex_zero (l := l) h.ne_entry
  have hentry : mergedIndex l r c ≠ 0 ↔ c ≠ 0 := by
    constructor
    · rintro hne rfl
      exact hne hzero
    · intro hne heq
      exact hne (mergedIndex_inj hc h.ne_entry.symm (heq.trans hzero.symm))
  have hne : mergedIndex l r c ≠ mergedIndex l r b → c ≠ b := fun hne heq => hne (heq ▸ rfl)
  rw [Function.chainEdge_iff, Function.chainEdge_iff, h.successors_eq_singleton hb hc,
    h.predecessors_eq_singleton_iff hb hc, hentry]
  tauto

end Contracts

/-! ## Blocks before a merge -/

/-- The block that has number `e` once block `r` is gone. -/
def shiftBack (r e : BlockId) : BlockId := if e < r then e else e + 1

/-- The blocks that are in block `e` after block `r` is appended to block `l`. -/
def blocksIn (l r e : BlockId) : List BlockId :=
  shiftBack r e :: if e = mergedIndex l r l then [r] else []

theorem shiftBack_ne : shiftBack r e ≠ r := by
  unfold shiftBack
  dsimp only [BlockId] at *
  split <;> omega

theorem shiftBack_lt : shiftBack r e < shiftBack r e' ↔ e < e' := by
  unfold shiftBack
  dsimp only [BlockId] at *
  split <;> split <;> omega

theorem shiftBack_inj (h : shiftBack r e = shiftBack r e') : e = e' := by
  unfold shiftBack at h
  dsimp only [BlockId] at *
  split at h <;> split at h <;> omega

@[simp] theorem mergedIndex_shiftBack : mergedIndex l r (shiftBack r e) = e := by
  rw [mergedIndex_of_ne shiftBack_ne, shiftPast, shiftBack]
  dsimp only [BlockId] at *
  split <;> split <;> omega

theorem shiftBack_mergedIndex (hb : b ≠ r) : shiftBack r (mergedIndex l r b) = b :=
  mergedIndex_inj shiftBack_ne hb mergedIndex_shiftBack

/-- These are all the blocks that went there. -/
theorem mem_blocksIn : b ∈ blocksIn l r e ↔ mergedIndex l r b = e := by
  unfold blocksIn
  constructor
  · intro hb
    rcases List.mem_cons.mp hb with rfl | hb
    · exact mergedIndex_shiftBack
    · split at hb
      · rename_i he
        rw [List.mem_singleton.mp hb, he, mergedIndex_right]
      · cases hb
  · rintro rfl
    by_cases hb : b = r
    · simp [hb, mergedIndex_right]
    · simp [shiftBack_mergedIndex hb]

theorem mem_flatMap_blocksIn : b ∈ k.flatMap (blocksIn l r) ↔ mergedIndex l r b ∈ k := by
  simp [List.mem_flatMap, mem_blocksIn]

theorem nodup_blocksIn : (blocksIn l r e).Nodup := by
  unfold blocksIn
  split <;> simp [shiftBack_ne]

theorem nodup_flatMap_blocksIn (hk : k.Nodup) : (k.flatMap (blocksIn l r)).Nodup := by
  refine List.nodup_flatMap.mpr ⟨fun e _ => nodup_blocksIn, hk.imp fun hne => ?_⟩
  exact fun b hb hb' => hne ((mem_blocksIn.mp hb).symm.trans (mem_blocksIn.mp hb'))

theorem flatMap_blocksIn_cons : (e :: k).flatMap (blocksIn l r) =
    shiftBack r e :: ((blocksIn l r e).tail ++ k.flatMap (blocksIn l r)) := rfl

@[simp] theorem flatMap_blocksIn_eq_nil : k.flatMap (blocksIn l r) = [] ↔ k = [] := by
  cases k <;> simp [blocksIn]

@[simp] theorem head?_flatMap_blocksIn :
    (k.flatMap (blocksIn l r)).head? = k.head?.map (shiftBack r) := by
  cases k <;> simp [blocksIn]

theorem map_shiftBack_sublist : (k.map (shiftBack r)).Sublist (k.flatMap (blocksIn l r)) := by
  induction k with
  | nil => exact .slnil
  | cons e k ih => exact .cons_cons _ (ih.trans (List.sublist_append_right ..))

/-- The first blocks of the chains of blocks. -/
theorem filterMap_head?_blocksIn :
    (cs.map (·.flatMap (blocksIn l r))).filterMap List.head? =
      (cs.filterMap List.head?).map (shiftBack r) := by
  rw [List.filterMap_map, List.map_filterMap]
  simp

/-- The numbers that are left go to all blocks but the one that is gone. -/
theorem cons_map_shiftBack_perm {n : Nat} (hr : r < n) :
    (r :: (List.range (n - 1)).map (shiftBack r)).Perm (List.range n) := by
  have hnodup : (r :: (List.range (n - 1)).map (shiftBack r)).Nodup := by
    refine List.nodup_cons.mpr ⟨?_, List.nodup_range.map fun _ _ => shiftBack_inj⟩
    simp [shiftBack_ne]
  refine (List.perm_ext_iff_of_nodup hnodup List.nodup_range).mpr fun b => ?_
  by_cases hb : b = r
  · simp [hb, hr]
  · rw [List.mem_cons, List.mem_map, List.mem_range, or_iff_right hb]
    constructor
    · rintro ⟨e, he, rfl⟩
      rwa [List.mem_range, ← mergedIndex_shiftBack (l := r) (r := r) (e := e),
        mergedIndex_lt hr shiftBack_ne] at he
    · exact fun hlt => ⟨_, List.mem_range.mpr ((mergedIndex_lt (l := r) hr hb).mpr hlt),
        shiftBack_mergedIndex hb⟩

/-! ## Chains -/

/-- The lists `cs` are the chains of a function: they divide its blocks, chain edges lead along each
and no other ones lead anywhere but from its last block to its first, which is the least then. They
are in the order of their first blocks. -/
structure Chains (f : Function) (cs : List (List BlockId)) : Prop where
  nonempty : [] ∉ cs
  /-- Each block is in one chain. -/
  perm : cs.flatten.Perm f.blockIds
  /-- A chain edge leads from each block of a chain to the next one. -/
  linked : ∀ c ∈ cs, c.IsChain f.ChainEdge
  /-- No chain edge leads from chain to chain. -/
  joined : ∀ b t, f.ChainEdge b t → ∃ c ∈ cs, b ∈ c ∧ t ∈ c
  /-- A chain that goes round starts at its least block. -/
  least : ∀ b rest, b :: rest ∈ cs → ∀ p, f.ChainEdge p b → ∀ c ∈ rest, b < c
  /-- The chains are in the order of their first blocks. -/
  ordered : (cs.filterMap List.head?).Pairwise (· < ·)

namespace Chains

theorem nodup (h : f.Chains cs) : cs.flatten.Nodup := h.perm.nodup_iff.mpr List.nodup_range

theorem mem_flatten (h : f.Chains cs) : b ∈ cs.flatten ↔ b < f.blocks.length :=
  h.perm.mem_iff.trans mem_blockIds

theorem exists_mem (h : f.Chains cs) (hb : b < f.blocks.length) : ∃ k ∈ cs, b ∈ k :=
  List.mem_flatten.mp (h.mem_flatten.mpr hb)

/-- No block is twice in the blocks that a chain is made of. -/
theorem nodup_blocksIn (h : f.Chains cs) (hk : k ∈ cs) : (k.flatMap (blocksIn l r)).Nodup :=
  nodup_flatMap_blocksIn ((List.nodup_flatten.mp h.nodup).1 k hk)

/-- No block is in two chains. -/
theorem eq_of_mem (h : f.Chains cs) {k' : List BlockId} (hk : k ∈ cs) (hk' : k' ∈ cs) (hb : b ∈ k)
    (hb' : b ∈ k') : k = k' := by
  by_contra hne
  have hdisjoint := (List.nodup_flatten.mp h.nodup).2
  have : Std.Symm (@List.Disjoint BlockId) := ⟨fun _ _ hd _ hx hy => hd hy hx⟩
  exact hdisjoint.forall hk hk' hne hb hb'

theorem nodup_chains (h : f.Chains cs) : cs.Nodup := by
  refine (List.pairwise_filterMap.mp h.ordered).imp_of_mem fun hc _ hlt heq => ?_
  obtain ⟨b, k, rfl⟩ := List.exists_cons_of_ne_nil (ne_of_mem_of_not_mem hc h.nonempty)
  exact Nat.lt_irrefl b (hlt b rfl b (heq ▸ rfl))

/-- A chain is what chain edges connect. -/
theorem mem_iff (h : f.Chains cs) (hk : k ∈ cs) (hb : b ∈ k) :
    t ∈ k ↔ Relation.EqvGen f.ChainEdge b t := by
  constructor
  · intro ht
    have heqv := Relation.EqvGen.is_equivalence f.ChainEdge
    have : Std.Symm (Relation.EqvGen f.ChainEdge) := ⟨fun _ _ => heqv.symm⟩
    have hlinked := ((h.linked k hk).imp fun _ _ hedge => Relation.EqvGen.rel _ _ hedge).pairwise
    exact hlinked.forall_of_forall (fun x _ => heqv.refl x) hb ht
  · intro heqv
    have hiff : ∀ k ∈ cs, b ∈ k ↔ t ∈ k := by
      clear hb
      induction heqv with
      | rel x y hxy =>
          obtain ⟨c, hc, hx, hy⟩ := h.joined x y hxy
          exact fun k hk => ⟨fun hx' => h.eq_of_mem hc hk hx hx' ▸ hy,
            fun hy' => h.eq_of_mem hc hk hy hy' ▸ hx⟩
      | refl => exact fun _ _ => Iff.rfl
      | symm _ _ _ ih => exact fun k hk => (ih k hk).symm
      | trans _ _ _ _ _ ih ih' => exact fun k hk => (ih k hk).trans (ih' k hk)
    exact (hiff k hk).mp hb

/-- Without chain edges each block is a chain. -/
theorem single (h : ∀ b t, ¬ f.ChainEdge b t) : f.Chains (f.blockIds.map ([·])) where
  nonempty := by simp
  perm := by
    rw [← List.flatMap_def, List.flatMap_singleton']
  linked c hc := by
    obtain ⟨b, _, rfl⟩ := List.mem_map.mp hc
    exact .singleton b
  joined b t hbt := absurd hbt (h b t)
  least b rest _ p hp := absurd hp (h p b)
  ordered := by
    rw [List.filterMap_map]
    simpa [Function.comp_def, blockIds] using List.pairwise_lt_range

end Chains

/-- Along a list that a relation links, all members but the last lead on. -/
theorem exists_next {R : BlockId → BlockId → Prop} (h : (b :: k).IsChain R) (hc : c ∈ b :: k) :
    (∃ t ∈ k, R c t) ∨ (b :: k).getLast? = some c := by
  induction k generalizing b with
  | nil =>
      rw [List.mem_singleton.mp hc]
      exact .inr rfl
  | cons d k ih =>
      obtain ⟨hbd, hrest⟩ := List.isChain_cons_cons.mp h
      rcases List.mem_cons.mp hc with rfl | hc
      · exact .inl ⟨d, List.mem_cons_self, hbd⟩
      · rcases ih hrest hc with ⟨t, ht, hct⟩ | hlast
        · exact .inl ⟨t, List.mem_cons_of_mem _ ht, hct⟩
        · exact .inr (by rwa [List.getLast?_cons_cons])

/-- From every block of a chain that goes round a chain edge leads on. -/
theorem exists_chainEdge (hlinked : (b :: k).IsChain f.ChainEdge) (hb : b ∉ k) (hp : p ∈ b :: k)
    (hpb : f.ChainEdge p b) (hc : c ∈ b :: k) : ∃ t, f.ChainEdge c t := by
  rcases exists_next hlinked hc with ⟨t, _, hct⟩ | hlast
  · exact ⟨t, hct⟩
  · rcases exists_next hlinked hp with ⟨t, ht, hpt⟩ | hlast'
    · exact absurd (hpt.target_unique hpb ▸ ht) hb
    · rw [Option.some.inj (hlast.symm.trans hlast')]
      exact ⟨b, hpb⟩

/-- Along a list that a relation links, something leads to all members but the first. -/
theorem exists_previous {R : BlockId → BlockId → Prop} (h : (b :: k).IsChain R) (hc : c ∈ k) :
    ∃ p, R p c := by
  induction k generalizing b with
  | nil => cases hc
  | cons d k ih =>
      obtain ⟨hbd, hrest⟩ := List.isChain_cons_cons.mp h
      rcases List.mem_cons.mp hc with rfl | hc
      · exact ⟨b, hbd⟩
      · exact ih hrest hc

/-! ## The chains are determined -/

/-- Where chain edges lead, the first block and the number of blocks tell a chain. -/
theorem eq_of_linked {k' : List BlockId} (hk : (b :: k).IsChain f.ChainEdge)
    (hk' : (b :: k').IsChain f.ChainEdge) (hlength : k.length = k'.length) : k = k' := by
  induction k generalizing b k' with
  | nil => exact (List.eq_nil_of_length_eq_zero hlength.symm).symm
  | cons c k ih =>
      cases k' with
      | nil => cases hlength
      | cons c' k' =>
          obtain ⟨hbc, hrest⟩ := List.isChain_cons_cons.mp hk
          obtain ⟨hbc', hrest'⟩ := List.isChain_cons_cons.mp hk'
          obtain rfl := hbc.target_unique hbc'
          rw [ih hrest hrest' (Nat.succ.inj hlength)]

namespace Chains

variable {cs' : List (List BlockId)} (h : f.Chains cs) (h' : f.Chains cs')

include h h'

/-- Chains with a block in common start at the same block: a block before the first one would be on
a way round, where both are the least. -/
theorem head_eq {k' : List BlockId} (hk : b :: k ∈ cs) (hk' : c :: k' ∈ cs')
    (hb : b ∈ c :: k') : b = c := by
  by_contra hne
  have hbk' : b ∈ k' := (List.mem_cons.mp hb).resolve_left hne
  have hck : c ∈ k := by
    have hmem := (h'.mem_iff hk' hb).mp List.mem_cons_self
    exact (List.mem_cons.mp ((h.mem_iff hk List.mem_cons_self).mpr hmem)).resolve_left (Ne.symm hne)
  obtain ⟨p, hp⟩ := exists_previous (h'.linked _ hk') hbk'
  obtain ⟨p', hp'⟩ := exists_previous (h.linked _ hk) hck
  exact Nat.lt_asymm (h.least b k hk p hp c hck) (h'.least c k' hk' p' hp' b hbk')

theorem mem_of_mem (hk : k ∈ cs) : k ∈ cs' := by
  cases k with
  | nil => exact absurd hk h.nonempty
  | cons b k =>
      have hb : b < f.blocks.length :=
        h.mem_flatten.mp (List.mem_flatten_of_mem hk List.mem_cons_self)
      obtain ⟨k', hk', hbk'⟩ := h'.exists_mem hb
      cases k' with
      | nil => cases hbk'
      | cons c k' =>
          obtain rfl := h.head_eq h' hk hk' hbk'
          have hperm : (b :: k).Perm (b :: k') :=
            (List.perm_ext_iff_of_nodup ((List.nodup_flatten.mp h.nodup).1 _ hk)
              ((List.nodup_flatten.mp h'.nodup).1 _ hk')).mpr fun t =>
                (h.mem_iff hk List.mem_cons_self).trans (h'.mem_iff hk' List.mem_cons_self).symm
          rwa [eq_of_linked (h.linked _ hk) (h'.linked _ hk') (Nat.succ.inj hperm.length_eq)]

/-- A function has one list of chains. -/
theorem unique : cs = cs' := by
  have hperm : cs.Perm cs' := (List.perm_ext_iff_of_nodup h.nodup_chains h'.nodup_chains).mpr
    fun k => ⟨h.mem_of_mem h', h'.mem_of_mem h⟩
  refine hperm.eq_of_pairwise (fun c d hc _ hcd hdc => ?_)
    (List.pairwise_filterMap.mp h.ordered) (List.pairwise_filterMap.mp h'.ordered)
  cases c with
  | nil => exact absurd hc h.nonempty
  | cons b c =>
      cases d with
      | nil => exact absurd (hperm.mem_iff.mpr ‹_›) h.nonempty
      | cons t d => exact absurd (hcd b rfl t rfl) (Nat.lt_asymm (hdc t rfl b rfl))

end Chains

/-! ## One merge -/

namespace Contracts

variable (h : f.Contracts g l r)

include h

theorem shiftBack_left : shiftBack r (mergedIndex l r l) = l := shiftBack_mergedIndex h.ne.symm

/-- Only in one block there are both. -/
theorem blocksIn_left : blocksIn l r (mergedIndex l r l) = [l, r] := by
  rw [blocksIn, h.shiftBack_left, if_pos rfl]

/-- A chain edge leads along the blocks of one block, and on to those of the next one. -/
theorem linked_blocksIn (hlr : f.ChainEdge l r) (hk : k.IsChain g.ChainEdge) :
    (k.flatMap (blocksIn l r)).IsChain f.ChainEdge := by
  have hnonempty : [] ∉ k.map (blocksIn l r) := by simp [blocksIn]
  rw [List.flatMap_def, List.isChain_flatten hnonempty, List.isChain_map]
  constructor
  · intro c hc
    obtain ⟨e, _, rfl⟩ := List.mem_map.mp hc
    by_cases he : e = mergedIndex l r l
    · rw [he, h.blocksIn_left]
      exact .cons_cons hlr (.singleton r)
    · rw [blocksIn, if_neg he]
      exact .singleton _
  · refine hk.imp fun e e' hee' b hb c hc => ?_
    -- the last of the blocks is not `l`, and the first not `r`
    obtain ⟨hbl, rfl⟩ : b ≠ l ∧ mergedIndex l r b = e := by
      refine ⟨?_, mem_blocksIn.mp (List.mem_of_getLast? hb)⟩
      rintro rfl
      have he := mem_blocksIn.mp (List.mem_of_getLast? hb)
      rw [← he, h.blocksIn_left] at hb
      exact h.ne (by simpa using hb)
    obtain ⟨hcr, rfl⟩ : c ≠ r ∧ mergedIndex l r c = e' := by
      simp only [blocksIn, List.head?_cons, Option.mem_def, Option.some.injEq] at hc
      rw [← hc]
      exact ⟨shiftBack_ne, mergedIndex_shiftBack⟩
    exact ((h.chainEdge_iff hbl hcr).mp hee').1

/-- Blocks that a chain edge connects are in one block, or a chain edge connects theirs. -/
theorem chainEdge_of (hbt : f.ChainEdge b t) : mergedIndex l r t = mergedIndex l r b ∨
    g.ChainEdge (mergedIndex l r b) (mergedIndex l r t) := by
  by_cases heq : mergedIndex l r t = mergedIndex l r b
  · exact .inl heq
  · refine .inr ((h.chainEdge_iff ?_ ?_).mpr ⟨hbt, heq⟩)
    · rintro rfl
      exact heq (by rw [h.chainEdge_left hbt, mergedIndex_right])
    · rintro rfl
      exact heq (by rw [h.chainEdge_right hbt, mergedIndex_right])

/-- What is in the blocks of the chains are all blocks. -/
theorem perm_blocksIn (hcs : g.Chains cs) :
    (cs.map (·.flatMap (blocksIn l r))).flatten.Perm f.blockIds := by
  have heq : (cs.map (·.flatMap (blocksIn l r))).flatten = cs.flatten.flatMap (blocksIn l r) := by
    rw [← List.flatMap_def, ← List.flatMap_id', List.flatMap_assoc]
  rw [heq]
  refine (List.perm_ext_iff_of_nodup (nodup_flatMap_blocksIn hcs.nodup) List.nodup_range).mpr
    fun b => ?_
  rw [mem_flatMap_blocksIn, hcs.mem_flatten, h.mergedIndex_lt_length, List.mem_range]

/-- What a chain edge connects is in the blocks of one chain. -/
theorem exists_mem_mergedIndex (hcs : g.Chains cs) (hbt : f.ChainEdge b t) :
    ∃ k ∈ cs, mergedIndex l r b ∈ k ∧ mergedIndex l r t ∈ k := by
  rcases h.chainEdge_of hbt with heq | hedge
  · obtain ⟨k, hk, hb⟩ := hcs.exists_mem (h.mergedIndex_lt_length.mpr hbt.lt_length)
    exact ⟨k, hk, hb, heq ▸ hb⟩
  · exact hcs.joined _ _ hedge

/-- A chain edge to another block than `l` leads to it after the merge, too. -/
theorem chainEdge_mergedIndex (hne : e ≠ mergedIndex l r l)
    (hpe : f.ChainEdge p (shiftBack r e)) : g.ChainEdge (mergedIndex l r p) e := by
  have hedge := h.chainEdge_of hpe
  rw [mergedIndex_shiftBack] at hedge
  refine hedge.resolve_left fun heq => (Function.chainEdge_iff.mp hpe).2.1 ?_
  have hpr : p ≠ r := by
    rintro rfl
    exact hne (heq.trans mergedIndex_right)
  rw [heq, shiftBack_mergedIndex hpr]

/-- If a chain edge leads to the first of the blocks in a chain, one leads on from each of them. -/
theorem exists_chainEdge_blocksIn (hlr : f.ChainEdge l r) (hcs : g.Chains cs) (hk : e :: k ∈ cs)
    (hpe : f.ChainEdge p (shiftBack r e)) (hc : c ∈ (e :: k).flatMap (blocksIn l r)) :
    ∃ t, f.ChainEdge c t := by
  have hp : p ∈ (e :: k).flatMap (blocksIn l r) := by
    obtain ⟨k', hk', hp, he⟩ := h.exists_mem_mergedIndex hcs hpe
    rw [mergedIndex_shiftBack] at he
    rw [mem_flatMap_blocksIn, hcs.eq_of_mem hk hk' List.mem_cons_self he]
    exact hp
  have hlinked := h.linked_blocksIn hlr (hcs.linked _ hk)
  have hnodup := hcs.nodup_blocksIn (l := l) (r := r) hk
  rw [flatMap_blocksIn_cons] at hlinked hnodup hp hc
  exact exists_chainEdge hlinked (List.nodup_cons.mp hnodup).1 hp hpe hc

/-- A chain that goes round starts at its least block, if `l` is the least block with a chain
edge: either it starts at `l`, or `l` is not in it and the chain after the merge goes round, too. -/
theorem least_blocksIn (hlr : f.ChainEdge l r) (hleast : ∀ b t, f.ChainEdge b t → l ≤ b)
    (hcs : g.Chains cs) (hk : e :: k ∈ cs) (hpe : f.ChainEdge p (shiftBack r e)) :
    ∀ c ∈ (blocksIn l r e).tail ++ k.flatMap (blocksIn l r), shiftBack r e < c := by
  have hle : ∀ c ∈ (e :: k).flatMap (blocksIn l r), l ≤ c := by
    intro c hc
    obtain ⟨t, hct⟩ := h.exists_chainEdge_blocksIn hlr hcs hk hpe hc
    exact hleast c t hct
  have hnodup := hcs.nodup_blocksIn (l := l) (r := r) hk
  rw [flatMap_blocksIn_cons] at hle hnodup
  intro c hc
  by_cases he : shiftBack r e = l
  · have hhead := (List.nodup_cons.mp hnodup).1
    rw [he] at hhead ⊢
    exact Nat.lt_of_le_of_ne (hle c (List.mem_cons_of_mem _ hc)) fun heq => hhead (heq ▸ hc)
  · have hne : e ≠ mergedIndex l r l := fun heq => he (heq ▸ h.shiftBack_left)
    have hlt := hcs.least e k hk _ (h.chainEdge_mergedIndex hne hpe)
    have hlk : mergedIndex l r l ∉ k := by
      intro hmem
      have hlt' := shiftBack_lt (r := r).mpr (hlt _ hmem)
      rw [h.shiftBack_left] at hlt'
      exact Nat.not_le_of_lt hlt' (hle _ List.mem_cons_self)
    rw [blocksIn, if_neg hne, List.tail_cons, List.nil_append, mem_flatMap_blocksIn] at hc
    have hcr : c ≠ r := by
      rintro rfl
      exact hlk (mergedIndex_right ▸ hc)
    rw [← shiftBack_mergedIndex hcr]
    exact shiftBack_lt.mpr (hlt _ hc)

/-- The chains are the chains after the merge with the blocks before it in the place of each. -/
theorem chains (hlr : f.ChainEdge l r) (hleast : ∀ b t, f.ChainEdge b t → l ≤ b)
    (hcs : g.Chains cs) : f.Chains (cs.map (·.flatMap (blocksIn l r))) where
  nonempty hmem := by
    obtain ⟨k, hk, heq⟩ := List.mem_map.mp hmem
    exact hcs.nonempty (flatMap_blocksIn_eq_nil.mp heq ▸ hk)
  perm := h.perm_blocksIn hcs
  linked c hc := by
    obtain ⟨k, hk, rfl⟩ := List.mem_map.mp hc
    exact h.linked_blocksIn hlr (hcs.linked k hk)
  joined b t hbt := by
    obtain ⟨k, hk, hb, ht⟩ := h.exists_mem_mergedIndex hcs hbt
    exact ⟨_, List.mem_map_of_mem hk, mem_flatMap_blocksIn.mpr hb, mem_flatMap_blocksIn.mpr ht⟩
  least b rest hmem p hpb c hc := by
    obtain ⟨k, hk, heq⟩ := List.mem_map.mp hmem
    cases k with
    | nil => cases heq
    | cons e k =>
        obtain ⟨rfl, rfl⟩ := List.cons_eq_cons.mp heq
        exact h.least_blocksIn hlr hleast hcs hk hpb c hc
  ordered := by
    rw [filterMap_head?_blocksIn, List.pairwise_map]
    exact hcs.ordered.imp shiftBack_lt.mpr

end Contracts

end Dataflow.Function
