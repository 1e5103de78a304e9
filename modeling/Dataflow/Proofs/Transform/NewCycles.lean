import Dataflow.Proofs.Check.CycleSearch
import Dataflow.Proofs.Transform.MergedLoops
import Dataflow.Proofs.Transform.Structure
import Dataflow.Proofs.Transform.TokenUse

/-!
# When a transformation closes a cycle

Merging puts the value of a folded phi where the phi was read, and threading makes a load read the
store before it. Both let instructions depend on one another that did not before, and nothing
prevents a cycle. `Function.Needs` says what an instruction needs beforehand, the phis that will be
folded and the stores before loads included, and `acyclic_transform_iff` that the transformed
function has no circular dependency just if no instruction needs itself. The way from one to the
other is one lemma for a merge (`Merges.transGen_needs_iff`) and one for threading
(`Threads.acyclic_iff`).
-/

namespace Dataflow

namespace Function

open Relation

variable {f g : Function} {b c l r : BlockId} {p t u w x y : InstId} {front : List InstId}
  {σ : Operand → Operand} {v : Operand} {Gone : BlockId → Prop} {Tied : InstId → InstId → Prop}
  {phi : BlockId → Option InstId}

/-- An instruction reads an operand, or is a phi of a block that goes away and folds to it. -/
inductive Takes (f : Function) (Gone : BlockId → Prop) (u : InstId) (v : Operand) : Prop where
  | reads {i : Instruction} : u ∈ f.live → f.instruction? u = some i → i.isPhi = false →
      v ∈ i.operands → Takes f Gone u v
  | folds {c : BlockId} : u ∈ f.body c → Gone c → f.Folds u v → Takes f Gone u v

/-- An instruction takes the result of another one or is tied to it. -/
def NeedsVia (f : Function) (Gone : BlockId → Prop) (Tied : InstId → InstId → Prop)
    (u w : InstId) : Prop :=
  f.Takes Gone u (.result w) ∨ Tied u w

/-- Some instruction other than a phi needs its own result. -/
def Circular (f : Function) (Gone : BlockId → Prop) (Tied : InstId → InstId → Prop) : Prop :=
  ∃ x, f.isOrdered x ∧ TransGen (f.NeedsVia Gone Tied) x x

/-- A load stands after a store in one block, with no other store in between. -/
def FollowsStore (f : Function) (u w : InstId) : Prop :=
  f.loadsAt u ∧ ∃ b, LastBefore f.storesAt (f.body b) w u

/-- The function after the merges that are asked for. -/
def afterMerges (f : Function) (options : TransformOptions) : Function :=
  if options.mergeChains then f.mergeChains.function else f

/-- What instruction `u` of `f` needs if the transformations run: an operand that it reads, the
value it folds to if it is a phi of a block that is appended to another one, or the last store
before it in its block after the merges if it is a load. -/
def Needs (f : Function) (options : TransformOptions) : InstId → InstId → Prop :=
  f.NeedsVia (fun b => options.mergeChains ∧ f.IsAppended b)
    fun u w => options.threadMemory ∧ (f.afterMerges options).FollowsStore u w

/-- Only a live instruction needs another one. -/
theorem live_of_needs (hTied : ∀ u w, Tied u w → u ∈ f.live ∧ w ∈ f.live)
    (h : f.NeedsVia Gone Tied u w) : u ∈ f.live := by
  rcases h with (⟨hlive, _, _, _⟩ | ⟨hu, _, _⟩) | htied
  · exact hlive
  · exact mem_live_of_mem_body hu
  · exact (hTied u w htied).1

/-! ## One merge -/

/-- Block `c` is appended to another one by the merge of `l` and `r` or goes away later. -/
def GoneBefore (l r : BlockId) (Gone : BlockId → Prop) (c : BlockId) : Prop :=
  c = r ∨ Gone (mergedIndex l r c)

theorem isPhiAt_eq_false {i : Instruction} (hi : f.instruction? x = some i)
    (hphi : i.isPhi = false) : f.isPhiAt x = false := by
  simp [isPhiAt, hi, hphi]

theorem isOrdered_iff : f.isOrdered x ↔
    ∃ i, f.instruction? x = some i ∧ i.isPhi = false := by
  simp [isOrdered, Option.any_eq_true]

namespace Merges

variable (m : f.Merges g l r t front σ)

include m

/-- What stays is what was no folded phi and not the jump. -/
theorem mem_live_of_mem_body (hx : x ∈ f.body c) (hphi : c = r → f.isPhiAt x = false)
    (hxt : x ≠ t) : x ∈ g.live := by
  by_cases hc : c = r
  · subst hc
    refine Function.mem_live_of_mem_body (b := mergedIndex l c l) ?_
    rw [m.body_merged]
    exact List.mem_append_right _ (List.mem_filter.mpr ⟨hx, by simp [hphi rfl]⟩)
  · exact Function.mem_live_of_mem_body (m.mem_body_of_ne hx hc hxt)

variable (hf : f.Placed)

include hf

/-- After the merge an instruction takes what the merge made of what it took before. -/
theorem takes_iff : g.Takes Gone u v ↔ (f.isPhiAt u = true → u ∉ f.body r) ∧
    ∃ v', f.Takes (GoneBefore l r Gone) u v' ∧ σ v' = v := by
  constructor
  · intro htakes
    cases htakes with
    | reads hlive hj hphi hv =>
        obtain ⟨i, hi, rfl⟩ := m.of_instruction hlive hj
        obtain ⟨e, he⟩ := mem_live.mp hlive
        obtain ⟨c, hc, _⟩ := m.mem_body he
        simp only [Instruction.operands_mapBlocks, Instruction.operands_mapOperands,
          List.mem_map] at hv
        obtain ⟨v', hv', rfl⟩ := hv
        have hphi : i.isPhi = false := by simpa using hphi
        refine ⟨fun hphi' => ?_, v', .reads (Function.mem_live_of_mem_body hc) hi hphi hv', rfl⟩
        simp [isPhiAt_eq_false hi hphi] at hphi'
    | folds hu hgone hfold =>
        obtain ⟨ty, arm, arms, hj, rfl⟩ := hfold
        obtain ⟨c, old, hc, rfl, hcr, hi, harms⟩ := m.of_phi hu hj
        obtain ⟨arm', old, rfl⟩ : ∃ arm' old', old = arm' :: old' :=
          List.exists_cons_of_ne_nil fun hnil => by simp [hnil] at harms
        rw [List.map_cons, List.cons.injEq] at harms
        refine ⟨fun _ hin => hcr (hf.block_unique hc hin), arm'.value,
          .folds hc (.inr hgone) ⟨ty, arm', old, hi, rfl⟩, by rw [harms.1]⟩
  · intro hex
    obtain ⟨hstays, v', htakes, rfl⟩ := hex
    cases htakes with
    | reads hlive hi hphi hv =>
        obtain ⟨c, hc⟩ := mem_live.mp hlive
        -- the jump reads nothing
        have hxt : u ≠ t := by
          intro heq
          subst heq
          rw [m.pair.jump, Option.some.injEq] at hi
          subst hi
          simp [Instruction.operands] at hv
        have hlive' := m.mem_live_of_mem_body hc (fun _ => isPhiAt_eq_false hi hphi) hxt
        refine .reads hlive' (by rw [m.instruction u hlive', hi]; rfl) (by simpa using hphi) ?_
        simpa using ⟨v', hv, rfl⟩
    | folds hu hgone hfold =>
        rename_i c
        have hcr : c ≠ r := fun heq => hstays hfold.isPhiAt (heq ▸ hu)
        obtain ⟨ty, arm, arms, hi, rfl⟩ := hfold
        have hxt : u ≠ t := by
          intro heq
          subst heq
          rw [m.pair.jump] at hi
          cases hi
        have hmem := m.mem_body_of_ne hu hcr hxt
        refine .folds hmem (hgone.resolve_left hcr) ?_
        exact ⟨ty, _, _, m.instruction_phi (Function.mem_live_of_mem_body hmem) hi, rfl⟩

omit hf m in
/-- The way through folded phis to a result is one of needs. -/
theorem needs_of_trace (hfirst : ∀ y, v = .result y →
      TransGen (f.NeedsVia (GoneBefore l r Gone) Tied) u y)
    (htrace : ReflTransGen (f.FoldStep (· ∈ f.body r)) v (.result w)) :
    TransGen (f.NeedsVia (GoneBefore l r Gone) Tied) u w := by
  generalize hend : Operand.result w = v' at htrace
  induction htrace generalizing w with
  | refl => exact hfirst w hend.symm
  | tail _ hstep ih =>
      obtain ⟨p, hp, rfl, hfold⟩ := hstep
      exact .tail (ih rfl) (.inl (.folds hp (.inl rfl) (hend ▸ hfold)))

/-- What is needed after the merge was needed before, through folded phis. -/
theorem needs_before (hneeds : g.NeedsVia Gone Tied u w) :
    TransGen (f.NeedsVia (GoneBefore l r Gone) Tied) u w := by
  rcases hneeds with htakes | htied
  · obtain ⟨_, v', htakes, hσ⟩ := (m.takes_iff hf).mp htakes
    exact needs_of_trace (v := v') (fun y hy => .single (.inl (hy ▸ htakes))) (hσ ▸ m.traced v')
  · exact .single (.inr htied)

variable (hTied : ∀ u w, Tied u w → u ∈ g.live ∧ w ∈ g.live)

omit hf m in
theorem not_folded (hx : f.isPhiAt x = true → x ∉ f.body r) : ∀ p ∈ f.body r,
    f.isPhiAt p = true → Operand.result x ≠ .result p := by
  intro p hp hphi heq
  cases heq
  exact hx hphi hp

/-- What stays is no folded phi. -/
theorem stays (hx : x ∈ g.live) : f.isPhiAt x = true → x ∉ f.body r := by
  intro hphi hmem
  obtain ⟨e, he⟩ := mem_live.mp hx
  obtain ⟨c, hc, _, hnot⟩ := m.mem_body he
  rw [hnot (hf.block_unique hc hmem)] at hphi
  exact Bool.false_ne_true hphi

include hTied

/-- If an instruction that stays needs one that leads through folded phis to another one, it needs
that other one after the merge. -/
theorem needs_after (hx : f.isPhiAt x = true → x ∉ f.body r)
    (hneeds : f.NeedsVia (GoneBefore l r Gone) Tied x y) (hw : f.isPhiAt w = true → w ∉ f.body r)
    (htrace : ReflTransGen (f.FoldStep (· ∈ f.body r)) (.result y) (.result w)) :
    g.NeedsVia Gone Tied x w := by
  have hσ : σ (.result y) = .result w := m.reaches _ _ htrace (not_folded hw)
  rcases hneeds with htakes | htied
  · exact .inl ((m.takes_iff hf).mpr ⟨hx, _, htakes, hσ⟩)
  · -- `y` stays, so the way through folded phis does not leave it
    have hy := m.stays hf (hTied x y htied).2
    cases (m.fixed _ (not_folded hy)).symm.trans hσ
    exact .inr htied

/-- From each instruction on a way of needs to `w`, folded phis lead to one that stays and needs `w`
after the merge. -/
theorem exists_trace (hw : f.isPhiAt w = true → w ∉ f.body r)
    (hway : ReflTransGen (f.NeedsVia (GoneBefore l r Gone) Tied) x w) :
    ∃ z, (f.isPhiAt z = true → z ∉ f.body r) ∧
      ReflTransGen (f.FoldStep (· ∈ f.body r)) (.result x) (.result z) ∧
      ReflTransGen (g.NeedsVia Gone Tied) z w := by
  induction hway using ReflTransGen.head_induction_on with
  | refl => exact ⟨w, hw, .refl, .refl⟩
  | @head x y hxy _ ih =>
      obtain ⟨z, hz, htrace, hrest⟩ := ih
      by_cases hx : f.isPhiAt x = true → x ∉ f.body r
      · exact ⟨x, hx, .refl, .head (m.needs_after hf hTied hx hxy hz htrace) hrest⟩
      · -- a folded phi needs only its value
        rw [Classical.not_imp, not_not] at hx
        refine ⟨z, hz, .head ?_ htrace, hrest⟩
        rcases hxy with htakes | htied
        · cases htakes with
          | reads _ hi hphi _ => simp [isPhiAt_eq_false hi hphi] at hx
          | folds _ _ hfold => exact ⟨x, hx.2, rfl, hfold⟩
        · exact absurd hx.2 (m.stays hf (hTied x y htied).1 hx.1)

/-- Instructions other than the folded phis need one another as before. -/
theorem transGen_needs_iff (hu : f.isPhiAt u = true → u ∉ f.body r)
    (hw : f.isPhiAt w = true → w ∉ f.body r) :
    TransGen (g.NeedsVia Gone Tied) u w ↔
      TransGen (f.NeedsVia (GoneBefore l r Gone) Tied) u w := by
  constructor
  · exact TransGen.closed (fun _ _ hneeds => m.needs_before hf hneeds) u w
  · intro hway
    obtain ⟨y, huy, hyw⟩ := TransGen.head'_iff.mp hway
    obtain ⟨z, hz, htrace, hrest⟩ := m.exists_trace hf hTied hw hyw
    exact .head' (m.needs_after hf hTied hu huy hz htrace) hrest

/-- A merge neither closes nor opens a cycle of needs. -/
theorem circular_iff : g.Circular Gone Tied ↔ f.Circular (GoneBefore l r Gone) Tied := by
  have hordered : ∀ {x}, f.isOrdered x → f.isPhiAt x = true → x ∉ f.body r := by
    intro x hx hphi
    obtain ⟨i, hi, hnot⟩ := isOrdered_iff.mp hx
    simp [isPhiAt_eq_false hi hnot] at hphi
  have hsame : ∀ {x}, x ∈ g.live → g.isOrdered x = f.isOrdered x := fun hx =>
    m.any_instruction hx fun _ => by simp
  constructor
  · intro hex
    obtain ⟨x, hx, hway⟩ := hex
    obtain ⟨y, hxy, _⟩ := TransGen.head'_iff.mp hway
    rw [hsame (live_of_needs hTied hxy)] at hx
    exact ⟨x, hx, (m.transGen_needs_iff hf hTied (hordered hx) (hordered hx)).mp hway⟩
  · intro hex
    obtain ⟨x, hx, hway⟩ := hex
    have hway := (m.transGen_needs_iff hf hTied (hordered hx) (hordered hx)).mpr hway
    obtain ⟨y, hxy, _⟩ := TransGen.head'_iff.mp hway
    exact ⟨x, hsame (live_of_needs hTied hxy) ▸ hx, hway⟩

end Merges

/-! ## All merges -/

theorem live_mergePairs (h : f.Flows) (bound : Nat) (hx : x ∈ (mergePairs bound f).1.live) :
    x ∈ f.live := by
  obtain ⟨e, he⟩ := mem_live.mp hx
  obtain ⟨b, hb, _⟩ := (keepsLoops_mergePairs h bound).body e x he
  exact mem_live_of_mem_body hb

theorem circular_mergePairs (h : f.Flows) (bound : Nat) (hTied : ∀ u w, Tied u w →
      u ∈ (mergePairs bound f).1.live ∧ w ∈ (mergePairs bound f).1.live) :
    (mergePairs bound f).1.Circular (fun _ => False) Tied ↔
      f.Circular (IsAppendedUpTo bound f) Tied := by
  induction bound generalizing f with
  | zero => exact Iff.rfl
  | succ bound ih =>
      cases hpair : f.chainPair? with
      | none =>
          have hgone : IsAppendedUpTo (bound + 1) f = fun _ => False := by
            funext b
            simp [IsAppendedUpTo, hpair]
          simp only [mergePairs, hpair, hgone]
      | some pair =>
          obtain ⟨l, r⟩ := pair
          obtain ⟨t, hchain⟩ := chainPair?_eq_some hpair
          obtain ⟨front, σ, m⟩ := h.merges hchain
          have hgone : IsAppendedUpTo (bound + 1) f =
              GoneBefore l r (IsAppendedUpTo bound (f.mergePair l r)) := by
            funext b
            simp [IsAppendedUpTo, hpair, GoneBefore]
          simp only [mergePairs, hpair] at hTied ⊢
          rw [ih (m.flows h) hTied, hgone]
          exact m.circular_iff h.placed fun u w hu =>
            (hTied u w hu).imp (live_mergePairs (m.flows h) bound)
              (live_mergePairs (m.flows h) bound)

/-! ## Threading -/

/-- A relation that holds wherever another one does and leads on has its cycles. -/
theorem transGen_of_leads {R R' : InstId → InstId → Prop}
    (hstep : ∀ u w, R u w → (∃ z, R w z) → R' u w) (hway : TransGen R x y) (hy : ∃ z, R y z) :
    TransGen R' x y := by
  induction hway with
  | single hxy => exact .single (hstep _ _ hxy hy)
  | tail _ hbc ih => exact .tail (ih ⟨_, hbc⟩) (hstep _ _ hbc hy)

/-- Two relations have the same cycles if they agree on the steps that lead on. -/
theorem acyclic_iff_of_leads {h : Function}
    (hdep : ∀ u w, g.DependsOn u w → (∃ z, g.DependsOn w z) → h.NeedsVia Gone Tied u w)
    (hneed : ∀ u w, h.NeedsVia Gone Tied u w → (∃ z, h.NeedsVia Gone Tied w z) → g.DependsOn u w)
    (hordered : ∀ u w, g.DependsOn u w → (∃ z, g.DependsOn w z) → h.isOrdered u) :
    g.Acyclic ↔ ¬ h.Circular Gone Tied := by
  constructor
  · intro hacyclic hex
    obtain ⟨x, _, hway⟩ := hex
    obtain ⟨z, hz, _⟩ := TransGen.head'_iff.mp hway
    exact hacyclic x (transGen_of_leads hneed hway ⟨z, hz⟩)
  · intro hnot x hway
    obtain ⟨z, hz, hback⟩ := TransGen.head'_iff.mp hway
    have hlead : ∃ y, g.DependsOn z y := by
      rcases ReflTransGen.cases_head hback with rfl | ⟨y, hy, _⟩
      · exact ⟨z, hz⟩
      · exact ⟨y, hy⟩
    exact hnot ⟨x, hordered x z hz hlead, transGen_of_leads hdep hway ⟨z, hz⟩⟩

/-- Without phis that go away and without ties, needs are dependencies. -/
theorem acyclic_iff : f.Acyclic ↔ ¬ f.Circular (fun _ => False) fun _ _ => False := by
  refine acyclic_iff_of_leads (fun u w hdep _ => ?_) (fun u w hneeds hlead => ?_)
    fun u w hdep _ => hdep.source.2
  · obtain ⟨hlive, _, i, hi, hphi, hv⟩ := dependsOn_iff.mp hdep
    exact .inl (.reads hlive hi hphi hv)
  · obtain ⟨z, (⟨_, hj, hphi', _⟩ | ⟨_, hgone, _⟩) | htied⟩ := hlead
    · obtain (⟨hlive, hi, hphi, hv⟩ | ⟨_, hgone, _⟩) | htied := hneeds
      · exact dependsOn_iff.mpr ⟨hlive, isOrdered_iff.mpr ⟨_, hj, hphi'⟩, _, hi, hphi, hv⟩
      · exact hgone.elim
      · exact htied.elim
    · exact hgone.elim
    · exact htied.elim

/-- A load that follows a store comes after it in some block. -/
theorem FollowsStore.mem_body (h : f.FollowsStore u w) : ∃ b, u ∈ f.body b ∧ w ∈ f.body b := by
  obtain ⟨_, b, front, mid, after, hbody, _⟩ := h
  exact ⟨b, by simp [hbody], by simp [hbody]⟩

theorem FollowsStore.live (h : f.FollowsStore u w) : u ∈ f.live ∧ w ∈ f.live := by
  obtain ⟨b, hu, hw⟩ := h.mem_body
  exact ⟨mem_live_of_mem_body hu, mem_live_of_mem_body hw⟩

/-- Only instructions other than phis need one another by reading and following stores. -/
theorem ordered_of_needs (h : f.NeedsVia (fun _ => False) f.FollowsStore u w) :
    u ∈ f.live ∧ f.isOrdered u := by
  obtain (⟨hlive, hi, hphi, _⟩ | ⟨_, hgone, _⟩) | hfollows := h
  · exact ⟨hlive, isOrdered_iff.mpr ⟨_, hi, hphi⟩⟩
  · exact hgone.elim
  · refine ⟨hfollows.live.1, ?_⟩
    obtain ⟨i, hi, hload⟩ := (Option.any_eq_true _ _).mp hfollows.1
    refine isOrdered_iff.mpr ⟨i, hi, ?_⟩
    cases i <;> simp_all [Instruction.isLoad, Instruction.isPhi]

namespace Threads

variable (hf : f.Placed) (ht : f.Threads g phi)

include hf ht

/-- The token of a load is the result of an old instruction just if the load follows it. -/
theorem token_eq_result_iff {done after : List InstId} (hsplit : f.body b = done ++ u :: after)
    (hw : w ∈ f.live) : f.tokenAfter (startToken phi b) done = .result w ↔
      LastBefore f.storesAt (f.body b) w u := by
  rw [hsplit, lastBefore_iff (hsplit ▸ hf.nodup b), tokenAfter]
  cases done.reverse.find? f.storesAt with
  | some s => simp
  | none =>
      refine iff_of_false (fun heq => ?_) (by simp)
      rw [Option.elim_none, startToken] at heq
      cases hp : phi b with
      | none => simp [hp, MemoryToken.initial] at heq
      | some p =>
          -- the phi for the token is new
          rw [hp, Option.elim_some, Operand.result.injEq] at heq
          obtain ⟨c, hc⟩ := mem_live.mp hw
          exact absurd (hf.lt_length hc) (Nat.not_lt.mpr (heq ▸ ht.new hp))

omit hf in
theorem isOrdered (hx : x ∈ f.body b) : g.isOrdered x = f.isOrdered x :=
  ht.any_instruction hx fun _ _ => by rw [isPhi_tie]

omit hf in
/-- What is live and no phi is old. -/
theorem mem_body_of_isOrdered (hx : x ∈ g.live) (hordered : g.isOrdered x) :
    ∃ b, x ∈ f.body b := by
  obtain ⟨b, hb⟩ := mem_live.mp hx
  rw [ht.body, List.mem_append, Option.mem_toList] at hb
  refine ⟨b, hb.resolve_left fun hp => ?_⟩
  obtain ⟨i, hi, hphi⟩ := isOrdered_iff.mp hordered
  rw [ht.arms hp, Option.some.injEq] at hi
  subst hi
  cases hphi

/-- After threading an instruction depends on what it read before and a load on the store that it
follows. -/
theorem acyclic_iff : g.Acyclic ↔ ¬ f.Circular (fun _ => False) f.FollowsStore := by
  refine acyclic_iff_of_leads (fun u w hdep hlead => ?_) (fun u w hneeds hlead => ?_)
    fun u w hdep _ => ?_
  · obtain ⟨hlive, hordered, j, hj, hphi, hv⟩ := dependsOn_iff.mp hdep
    obtain ⟨b, hb⟩ := ht.mem_body_of_isOrdered hlive hdep.source.2
    obtain ⟨z, hz⟩ := hlead
    obtain ⟨c, hc⟩ := ht.mem_body_of_isOrdered hz.source.1 hz.source.2
    obtain ⟨done, after, hsplit⟩ := List.append_of_mem hb
    rw [ht.tied hsplit] at hj
    obtain ⟨i, hi, rfl⟩ := Option.map_eq_some_iff.mp hj
    rw [isPhi_tie] at hphi
    rcases Instruction.mem_operands_tie.mp hv with hv | ⟨hload, htoken⟩
    · exact .inl (.reads (mem_live_of_mem_body hb) hi hphi hv)
    · refine .inr ⟨by simpa [loadsAt, hi] using hload, b, ?_⟩
      exact (ht.token_eq_result_iff hf hsplit (mem_live_of_mem_body hc)).mp htoken.symm
  · obtain ⟨z, hz⟩ := hlead
    obtain ⟨hlive, hordered⟩ := ordered_of_needs hneeds
    obtain ⟨hlive', hordered'⟩ := ordered_of_needs hz
    obtain ⟨c, hc⟩ := mem_live.mp hlive'
    rw [← ht.isOrdered hc] at hordered'
    obtain (⟨hu, hi, hphi, hv⟩ | ⟨_, hgone, _⟩) | hfollows := hneeds
    · obtain ⟨b, hb⟩ := mem_live.mp hu
      obtain ⟨done, after, hsplit⟩ := List.append_of_mem hb
      refine dependsOn_iff.mpr ⟨mem_live_of_mem_body (ht.mem_body_of_mem hb), hordered', _,
        by rw [ht.tied hsplit, hi]; rfl, by rwa [isPhi_tie], ?_⟩
      exact Instruction.mem_operands_tie.mpr (.inl hv)
    · exact hgone.elim
    · obtain ⟨hload, b, hlast⟩ := hfollows
      obtain ⟨i, hi, hload⟩ := (Option.any_eq_true _ _).mp hload
      obtain ⟨front, mid, after, hbody, _⟩ := id hlast
      have hb : u ∈ f.body b := by simp [hbody]
      have hphi : i.isPhi = false := by
        cases i <;> simp_all [Instruction.isLoad, Instruction.isPhi]
      refine dependsOn_iff.mpr ⟨mem_live_of_mem_body (ht.mem_body_of_mem hb), hordered', _,
        by rw [ht.tied hbody, hi]; rfl, by rwa [isPhi_tie], ?_⟩
      refine Instruction.mem_operands_tie.mpr (.inr ⟨hload, ?_⟩)
      exact ((ht.token_eq_result_iff hf hbody hlive').mpr hlast).symm
  · obtain ⟨b, hb⟩ := ht.mem_body_of_isOrdered hdep.source.1 hdep.source.2
    exact ht.isOrdered hb ▸ hdep.source.2

end Threads

/-! ## Both transformations -/

theorem transform_function (options : TransformOptions) : (f.transform options).function =
    if options.threadMemory then (f.afterMerges options).threadMemory.function
    else f.afterMerges options := by
  obtain ⟨merge, thread⟩ := options
  cases merge <;> cases thread <;> rfl

/-- A cycle of needs after the merges was one before. -/
theorem circular_afterMerges (h : f.Flows) (options : TransformOptions)
    (hTied : ∀ u w, Tied u w → (f.afterMerges options).FollowsStore u w) :
    (f.afterMerges options).Circular (fun _ => False) Tied ↔
      f.Circular (fun b => options.mergeChains ∧ f.IsAppended b) Tied := by
  obtain ⟨merge, thread⟩ := options
  cases merge with
  | false => simp [afterMerges]
  | true =>
      simp only [afterMerges, if_true, mergeChains_function, true_and] at hTied ⊢
      exact circular_mergePairs h f.blocks.length fun u w hu => (hTied u w hu).live

/-- The transformed function is acyclic just if no cycle of needs is left after the merges. -/
theorem acyclic_transform (h : f.InOrder) (options : TransformOptions) :
    (f.transform options).function.Acyclic ↔ ¬ (f.afterMerges options).Circular (fun _ => False)
      fun u w => options.threadMemory ∧ (f.afterMerges options).FollowsStore u w := by
  have hplaced : (f.afterMerges options).Placed := by
    have hmerged := (inOrder_transform h { options with threadMemory := false }).1.placed
    rwa [transform_function] at hmerged
  rw [transform_function]
  cases options.threadMemory with
  | false => simpa using acyclic_iff
  | true =>
      obtain ⟨phi, ht⟩ := threads_threadMemory hplaced
      simpa using ht.acyclic_iff hplaced

end Function

/-- The transformed function has no circular dependency just if no instruction other than a phi
needs itself: through the operands that are read, the values of the phis that are folded, and the
stores that loads follow. -/
theorem acyclic_transform_iff {text : String} {source : Module} {f : Function}
    (hread : Module.readChecked text = .ok source) (hf : f ∈ source.functions)
    (options : TransformOptions) : (f.transform options).function.cycles = [] ↔
      ∀ x, f.isOrdered x → ¬ Relation.TransGen (f.Needs options) x x := by
  have hchecked := Module.readChecked_checked hread hf
  rw [Function.cycles_eq_nil_iff,
    Function.acyclic_transform (hchecked.toBound.inOrder hchecked.shaped),
    Function.circular_afterMerges (Function.flows_of_checked hchecked) options fun _ _ h => h.2]
  simp only [Function.Circular, Function.Needs, not_exists, not_and]

/-- A loop that control never gets to, of a block with a phi and the block before it. -/
def deadLoop : Function where
  name := "f"
  ret := .void
  params := [⟨"a", .int 32⟩]
  blocks := [⟨"entry", [0]⟩, ⟨"b", [1]⟩, ⟨"c", [2, 3, 4]⟩]
  slots := [
    ⟨none, .ret none, 0⟩,
    ⟨none, .jump 2, 1⟩,
    ⟨some "p", .phi (.int 32) [⟨.result 3, 1⟩], 2⟩,
    ⟨some "x", .binary .add (.int 32) (.result 2) (.const ⟨.int 32, "1"⟩), 2⟩,
    ⟨none, .jump 1, 2⟩]

/-- The text of `deadLoop`. -/
def deadLoopText : String :=
  "define void @f(i32 %a) \x7b\nentry:\n  ret void\nb:\n  br label %c\nc:\n" ++
    "  %p = phi i32 [ %x, %b ]\n  %x = add i32 %p, 1\n  br label %b\n\x7d\n"

theorem read_deadLoop : Module.readChecked deadLoopText = .ok ⟨[deadLoop]⟩ := by
  decide +kernel

/-- The phi is folded to the sum that reads it. -/
theorem needs_deadLoop : deadLoop.Needs ⟨true, false⟩ 3 2 ∧ deadLoop.Needs ⟨true, false⟩ 2 3 := by
  have hpair : deadLoop.chainPair? = some (1, 2) := by decide
  have happended : deadLoop.IsAppended 2 := by
    rw [Function.IsAppended, show deadLoop.blocks.length = 3 from rfl, Function.IsAppendedUpTo,
      hpair]
    exact .inl rfl
  exact ⟨.inl (.reads (by decide) rfl rfl List.mem_cons_self),
    .inl (.folds (c := 2) (by decide) ⟨rfl, happended⟩ ⟨_, _, _, rfl, rfl⟩)⟩

/-- Merging closes a cycle there, and threading does not. -/
theorem acyclic_transform_iff_deadLoop :
    (deadLoop.transform ⟨true, false⟩).function.cycles ≠ [] ∧
      ∀ x, deadLoop.isOrdered x →
        ¬ Relation.TransGen (deadLoop.Needs ⟨false, true⟩) x x := by
  refine ⟨fun hnil => ?_, ?_⟩
  · refine (acyclic_transform_iff read_deadLoop List.mem_cons_self ⟨true, false⟩).mp hnil 3 rfl ?_
    exact .tail (.single needs_deadLoop.1) needs_deadLoop.2
  · exact (acyclic_transform_iff read_deadLoop List.mem_cons_self ⟨false, true⟩).mp
      (by decide +kernel)

/-- A function without circular dependencies whose sum reads itself after merging. -/
theorem cycles_mergeChains_deadLoop :
    Module.readChecked deadLoopText = .ok ⟨[deadLoop]⟩ ∧ deadLoop.cycles = [] ∧
      (deadLoop.transform ⟨true, false⟩).function.cycles = [[3, 3]] :=
  ⟨read_deadLoop, by decide +kernel, by decide +kernel⟩

end Dataflow
