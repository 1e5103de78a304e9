import Dataflow.Proofs.Semantics.Run
import Dataflow.Proofs.Transform.Mergeable

/-!
# Merging keeps what is run

Appending block `r` to block `l` leaves the actions of a function alone. The invariant is `Agrees`:
on a walk `w`, the values after the merge are those before it except for the folded phis, and a
folded phi still has the value it stands for until a block on the walk defines that value anew.
Single assignment form keeps the last from happening before the phi is read (`Agrees.eval`).
-/

namespace Dataflow

open Interpretation

namespace Function

variable {V M : Type} {I : Interpretation V M} {args : Nat → V} {f g : Function}
  {env env' : InstId → V} {memory : M} {b c e l r : BlockId} {id p t x : InstId}
  {front : List InstId} {σ : Operand → Operand} {w rest : List BlockId} {u v : Operand}

/-! ## The invariant -/

/-- Since the last time in block `r`, the walk `w` has passed no block that defines what the phi `p`
stands for. -/
def Current (f : Function) (r : BlockId) (p : InstId) (w : List BlockId) : Prop :=
  ∃ recent older, w = recent ++ r :: older ∧ r ∉ recent ∧
    ∀ x, f.Folds p (.result x) → ∀ d ∈ recent, x ∉ f.body d

/-- How the values `env` before the merge and `env'` after it agree on the walk `w`. -/
structure Agrees (I : Interpretation V M) (args : Nat → V) (f : Function) (r : BlockId)
    (w : List BlockId) (env env' : InstId → V) : Prop where
  other : ∀ {x}, (x ∈ f.body r → f.isPhiAt x = false) → env' x = env x
  current : ∀ {p v}, p ∈ f.body r → f.Folds p v → f.Current r p w → env p = I.eval args env v

/-- At the first block nothing is folded yet. -/
theorem Agrees.start (hr : r ≠ 0) : Agrees I args f r [0] env env where
  other _ := rfl
  current _ _ hcurrent := by
    obtain ⟨recent, older, hw, _⟩ := hcurrent
    have hmem : r ∈ [0] := by simp [hw]
    exact absurd (List.mem_singleton.mp hmem) hr

theorem Current.tail (h : f.Current r p (c :: w)) (hc : c ≠ r) :
    f.Current r p w ∧ ∀ x, f.Folds p (.result x) → x ∉ f.body c := by
  obtain ⟨recent, older, hw, hrecent, hfree⟩ := h
  cases recent with
  | nil =>
      rw [List.nil_append, List.cons.injEq] at hw
      exact absurd hw.1 hc
  | cons d recent =>
      rw [List.cons_append, List.cons.injEq] at hw
      obtain ⟨rfl, rfl⟩ := hw
      refine ⟨⟨recent, older, rfl, fun hmem => hrecent (List.mem_cons_of_mem _ hmem),
        fun x hx d hd => hfree x hx d (List.mem_cons_of_mem _ hd)⟩, fun x hx => ?_⟩
      exact hfree x hx c List.mem_cons_self

section Pair

variable (h : f.Mergeable) (hpair : f.ChainPair l r t)

include h hpair

/-- Where a folded phi is read, what it stands for has not been defined since. -/
theorem Mergeable.current (hw : f.Walk (c :: rest)) (hp : p ∈ f.body r)
    (hread : f.ReadsAt c (.result p)) : f.Current r p (c :: rest) := by
  have hdom := h.ssa.dominated hread hp
  obtain ⟨recent, older, hsplit, hrecent⟩ := List.eq_append_cons_of_mem (hdom rest hw)
  refine ⟨recent, older, hsplit, hrecent, fun x hx d hd hxd => ?_⟩
  rw [hsplit] at hw
  obtain ⟨y, rfl⟩ := hw.suffix.before hpair.pred hpair.ne_entry
  have hl : f.Walk (l :: y) := Walk.suffix (u := recent ++ [r]) (by simpa using hw)
  have hvalue := h.ssa.dominated (h.readsAt_left hpair hp hx) hxd
  have hne : d ≠ r := by
    intro heq
    subst heq
    exact h.value_ne hpair hl hp hx hxd rfl
  exact Walk.not_mem_since hpair.pred hpair.ne_entry hvalue hne hdom hw (by simp [← hsplit])
    hrecent hd

/-- If control has been in the appended block, no folded phi stands for a folded phi. -/
theorem Mergeable.value_ne_of_mem (hw : f.Walk w) (hmem : r ∈ w) (hp : p ∈ f.body r)
    (hv : f.Folds p v) (hx : x ∈ f.body r) : v ≠ .result x := by
  obtain ⟨y, hy, _⟩ := hw.of_mem hmem
  obtain ⟨y, rfl⟩ := hy.before hpair.pred hpair.ne_entry
  exact h.value_ne hpair (hy.suffix (u := [r])) hp hv hx

end Pair

theorem Current.mem (h : f.Current r p w) : r ∈ w := by
  obtain ⟨recent, older, rfl, _⟩ := h
  simp

section Merge

variable (h : f.Mergeable) (m : f.Merges g l r t front σ)

include h m

/-! ## Reading operands -/

/-- What is read in a block has after the merge the value it had before. -/
theorem Agrees.eval (hR : Agrees I args f r (c :: rest) env env') (hw : f.Walk (c :: rest))
    (hread : f.ReadsAt c u) : I.eval args env' (σ u) = I.eval args env u := by
  by_cases hfold : ∃ p ∈ f.body r, f.isPhiAt p = true ∧ u = .result p
  · obtain ⟨p, hp, hphi, rfl⟩ := hfold
    have hcurrent := h.current m.pair hw hp hread
    have hne : ∀ {p v}, p ∈ f.body r → f.Folds p v → ∀ {x}, x ∈ f.body r → v ≠ .result x :=
      fun hp hv _ hx => h.value_ne_of_mem m.pair hw hcurrent.mem hp hv hx
    obtain ⟨v, hv⟩ := h.folds hp hphi
    rw [m.folded (fun _ hp' _ hv' _ hq' _ => hne hp' hv' hq') p hp v hv]
    calc I.eval args env' v
        = I.eval args env v := eval_congr fun x hx =>
          hR.other fun hmem => absurd hx (hne hp hv hmem)
      _ = env p := (hR.current hp hv hcurrent).symm
      _ = I.eval args env (.result p) := rfl
  · rw [m.fixed u fun p hp hphi hu => hfold ⟨p, hp, hphi, hu⟩]
    refine eval_congr fun x hx => hR.other fun hmem => ?_
    rw [← Bool.not_eq_true]
    exact fun hphi => hfold ⟨x, hmem, hphi, hx⟩

/-! ## Running a block -/

omit m in
/-- Defining a result of the current block keeps the agreement. -/
theorem Agrees.assign (hpair : f.ChainPair l r t) (hR : Agrees I args f r (c :: rest) env env')
    (hw : f.Walk (c :: rest)) (hid : id ∈ f.body c) (hphi : f.isPhiAt id = false) {value : V} :
    Agrees I args f r (c :: rest) (Dataflow.assign env id value)
      (Dataflow.assign env' id value) where
  other {x} hx := by
    simp only [Dataflow.assign]
    split
    · rfl
    · exact hR.other hx
  current {p v} hp hv hcurrent := by
    have hpid : p ≠ id := by
      intro heq
      subst heq
      simp [hv.isPhiAt] at hphi
    have hvid : ∀ x, v = .result x → x ≠ id := by
      intro x heq heq'
      subst heq
      subst heq'
      by_cases hc : c = r
      · subst hc
        exact h.value_ne_of_mem hpair hw List.mem_cons_self hp hv hid rfl
      · exact (hcurrent.tail hc).2 x hv hid
    rw [assign_of_ne hpid, hR.current hp hv hcurrent]
    exact eval_congr fun x hx => (assign_of_ne (hvid x hx)).symm

/-- The merge renames what block `c` runs. -/
theorem Merges.renames {ids : List InstId} (hw : f.Walk (c :: rest)) (hids : ids ⊆ f.body c)
    (hlive : ids ⊆ g.live) :
    Renames I args f g σ (mergedIndex l r) (Agrees I args f r (c :: rest)) ids where
  inst id hid := m.instruction id (hlive hid)
  operand hid hi hphi hR hv := hR.eval h m hw (.inst (hids hid) hi hphi hv)
  callee hid hi _ hcallee := eval_congr fun x hx =>
    absurd (hx ▸ hcallee) (h.callees (mem_live_of_mem_body (hids hid)) hi)
  assign hid hi hphi hR := hR.assign h m.pair hw (hids hid) (by simp [isPhiAt, hi, hphi])

/-! ## Coming to a block -/

/-- Coming from a block to a successor keeps the agreement. -/
theorem Agrees.arrive (hR : Agrees I args f r (c :: rest) env env') (hw : f.Walk (c :: rest))
    (hc : c ≠ l) (he : e ∈ f.successors c) :
    Agrees I args f r (e :: c :: rest) (I.arrive args f env c e)
      (I.arrive args g env' (mergedIndex l r c) (mergedIndex l r e)) := by
  have her : e ≠ r := by
    intro heq
    subst heq
    exact hc (eq_of_predecessors_eq m.pair.pred he)
  refine ⟨fun {x} hx => ?_, fun {p v} hp hv hcurrent => ?_⟩
  · -- a phi of `e` takes the value of the same arm on both sides, and the rest stays
    by_cases hphi : x ∈ f.body e ∧ f.isPhiAt x = true
    · obtain ⟨hmem, hphi⟩ := hphi
      obtain ⟨ty, arms, hi⟩ := isPhiAt_iff.mp hphi
      have hbody : x ∈ g.body (mergedIndex l r e) := m.mem_body_of_ne hmem her fun hxt => by
        simp [hxt, m.pair.jump] at hi
      obtain ⟨arm, hfind, harm, hsource⟩ := h.arm_for hmem hi he
      have hfind' := m.find?_arms h her hmem hi (mem_predecessors_of_mem_successors he)
      rw [hfind, Option.map_some] at hfind'
      rw [arrive_phi hmem hi hfind, arrive_phi hbody
        (m.instruction_phi (mem_live_of_mem_body hbody) hi) hfind']
      exact hR.eval h m hw (hsource ▸ .arm hmem hi harm rfl)
    · have hf : x ∈ f.body e → f.isPhiAt x = false := fun hmem =>
        (Bool.not_eq_true _).mp fun hphi' => hphi ⟨hmem, hphi'⟩
      rw [arrive_of_not_phi hf, arrive_of_not_phi, hR.other hx]
      intro hmem
      obtain ⟨d, hd, hde, hdr⟩ := m.mem_body hmem
      have hphi' : f.isPhiAt x = false := by
        by_cases hdr' : d = r
        · exact hdr hdr'
        · exact hf (mergedIndex_inj hdr' her hde ▸ hd)
      rw [← hphi']
      exact m.any_instruction (mem_live_of_mem_body hmem) fun _ => by simp
  · obtain ⟨hcurrent, hfree⟩ := hcurrent.tail her
    -- `e` defines neither the folded phi nor what it stands for
    have hpe : p ∉ f.body e := fun hpe => her (h.placed.block_unique hpe hp)
    rw [arrive_of_not_phi fun hpe' => absurd hpe' hpe, hR.current hp hv hcurrent]
    exact eval_congr fun x hx => (arrive_of_not_phi fun hxe => absurd hxe (hfree x (hx ▸ hv))).symm

/-- Coming from `l` to `r` the phis of `r` take the values they stand for. -/
theorem Agrees.enter (hR : Agrees I args f r (l :: rest) env env') (hw : f.Walk (l :: rest)) :
    Agrees I args f r (r :: l :: rest) (I.arrive args f env l r) env' := by
  have hstay : ∀ {x}, (x ∈ f.body r → f.isPhiAt x = false) → I.arrive args f env l r x = env x :=
    fun hx => arrive_of_not_phi hx
  refine ⟨fun {x} hx => by rw [hstay hx, hR.other hx], fun {p v} hp hv _ => ?_⟩
  obtain ⟨ty, arm, hi, hsource⟩ := h.phi_right m.pair hp hv.isPhiAt
  have hvalue : arm.value = v := Folds.unique ⟨ty, arm, [], hi, rfl⟩ hv
  have hfind : [arm].find? (·.source = l) = some arm := by simp [hsource]
  rw [arrive_phi hp hi hfind, hvalue]
  exact eval_congr fun x hx => (hstay fun hmem => absurd hx (h.value_ne m.pair hw hp hv hmem)).symm

/-! ## Running on -/

omit m in
/-- Control goes from a block to a successor of it. -/
theorem Mergeable.next_mem_successors
    (hnext : (I.runBlock args f (f.body c) env memory).next = some e) : e ∈ f.successors c := by
  obtain ⟨x, hx, i, hi, he⟩ := next_runBlock hnext
  have hleaves : (f.instruction? x).any (·.isTerminator) = true := by
    rw [hi]
    exact isTerminator_of_mem_successors he
  obtain ⟨init, s, hend⟩ := h.ends (lt_length_of_mem_body hx)
  rw [hend.body, List.mem_append, List.mem_singleton] at hx
  rcases hx with hx | rfl
  · simp [hend.stays x hx] at hleaves
  · rwa [hend.successors hi]

omit h m in
/-- Running on from block `c` comes to outcome `o` at the end of block `b`, in one or two blocks. -/
structure Through (I : Interpretation V M) (args : Nat → V) (f : Function) (c : BlockId)
    (env : InstId → V) (memory : M) (b : BlockId) (o : Outcome V M) : Prop where
  within : ∀ bound, I.run args f (bound + 1) c env memory <+: o.actions ++ I.after args f bound b o
  reaches : ∀ bound, o.actions ++ I.after args f bound b o <+: I.run args f (bound + 2) c env memory
  next : ∀ {e}, o.next = some e → e ∈ f.successors b

omit m in
theorem Mergeable.through_self :
    Through I args f c env memory c (I.runBlock args f (f.body c) env memory) where
  within _ := List.prefix_rfl
  reaches _ := (List.prefix_append_right_inj _).mpr after_prefix_succ
  next := h.next_mem_successors

/-- The end of `l` is run, and then `r`. -/
theorem Merges.through_pair {o : Outcome V M} (ho : I.runBlock args f front env memory = o) :
    let o' := I.runBlock args f (f.body r) (I.arrive args f o.env l r) o.memory
    Through I args f l env memory r (o'.prepend o.actions) := by
  intro o'
  have hrun : ∀ bound, I.run args f (bound + 1) l env memory =
      o.actions ++ I.run args f bound r (I.arrive args f o.env l r) o.memory := by
    intro bound
    rw [run_succ, m.body_old, runBlock_append (m.stays_front h.toFlows), ho, prepend_after,
      runBlock_leave m.pair.jump Instruction.isTerminator_of_jump]
    simp [after, Instruction.isJump, Instruction.goesTo]
  refine ⟨fun bound => ?_, fun bound => ?_, h.next_mem_successors⟩
  · rw [hrun, prepend_after]
    exact (List.prefix_append_right_inj _).mpr run_prefix_succ
  · have hsame : I.run args f (bound + 2) l env memory =
        (o'.prepend o.actions).actions ++ I.after args f bound r (o'.prepend o.actions) := by
      rw [hrun, run_succ, prepend_after]
    exact hsame ▸ List.prefix_rfl

/-- What a block runs after the merge is what it runs before, together with `r` after `l`. -/
theorem Merges.block_run (hR : Agrees I args f r (c :: rest) env env') (hw : f.Walk (c :: rest))
    (hc : c ≠ r) (memory : M) : ∃ b older o, Through I args f c env memory b o ∧
      f.Walk (b :: older) ∧ b ≠ l ∧ mergedIndex l r b = mergedIndex l r c ∧
      o.Matches (mergedIndex l r) (Agrees I args f r (b :: older))
        (I.runBlock args g (g.body (mergedIndex l r c)) env' memory) := by
  have hlive : ∀ {ids}, ids ⊆ g.body (mergedIndex l r c) → ids ⊆ g.live :=
    fun hids _ hx => mem_live_of_mem_body (hids hx)
  by_cases hcl : c = l
  · subst hcl
    have hfront : front ⊆ g.live := hlive (by simp [m.body_merged])
    have hfirst := (m.renames h hw (by simp [m.body_old]) hfront).runBlock hR memory
    have hw' : f.Walk (r :: c :: rest) := .step hw (by simp [m.pair.successors])
    have hids : ((f.body r).filter fun id => ¬ f.isPhiAt id) ⊆ f.body r := List.filter_subset_self _
    have hthen := (m.renames h hw' hids (hlive (by simp [m.body_merged]))).runBlock
      (hfirst.env.enter h m hw) (I.runBlock args f front env memory).memory
    refine ⟨r, _, _, m.through_pair h rfl, hw', m.pair.ne, mergedIndex_right, ?_⟩
    rw [m.body_merged, runBlock_append fun x hx => (m.isTerminator_any (hfront hx)).trans
      (m.stays_front h.toFlows x hx), ← runBlock_filter (f.body r)]
    simp only [hfirst.actions, hfirst.memory]
    exact hthen.prepend _
  · refine ⟨c, rest, _, h.through_self, hw, hcl, rfl, ?_⟩
    rw [m.body c hcl hc]
    exact (m.renames h hw (List.Subset.refl _) (hlive (by simp [m.body c hcl hc]))).runBlock hR
      memory

/-- A run before the merge passes at most two blocks for one block of the run after it. -/
theorem Merges.run_prefix (hR : Agrees I args f r (c :: rest) env env') (hw : f.Walk (c :: rest))
    (hc : c ≠ r) (bound : Nat) :
    I.run args f bound c env memory <+: I.run args g bound (mergedIndex l r c) env' memory ∧
      I.run args g bound (mergedIndex l r c) env' memory <+:
        I.run args f (2 * bound) c env memory := by
  induction bound generalizing c rest env env' memory with
  | zero => exact ⟨List.nil_prefix, List.nil_prefix⟩
  | succ bound ih =>
      obtain ⟨b, older, o, hthrough, hw', hb, hindex, hmatch⟩ :=
        m.block_run h hR hw hc memory
      generalize ho : I.runBlock args g (g.body (mergedIndex l r c)) env' memory = o' at hmatch
      -- after the block both runs stop, or both go on to the same block
      have hafter : I.after args f bound b o <+: I.after args g bound (mergedIndex l r c) o' ∧
          I.after args g bound (mergedIndex l r c) o' <+: I.after args f (2 * bound) b o := by
        have hnext' := hmatch.next
        cases hnext : o.next with
        | none =>
            rw [hnext, Option.map_none] at hnext'
            rw [after_none hnext, after_none hnext', after_none hnext]
            exact ⟨List.prefix_rfl, List.prefix_rfl⟩
        | some e =>
            have he := hthrough.next hnext
            rw [hnext, Option.map_some] at hnext'
            rw [after_some hnext, after_some hnext', after_some hnext, hmatch.memory, ← hindex]
            exact ih (hmatch.env.arrive h m hw' hb he) (.step hw' he)
              fun her => hb (eq_of_predecessors_eq m.pair.pred (her ▸ he))
      rw [run_succ (f := g), ho, hmatch.actions]
      exact ⟨(hthrough.within bound).trans ((List.prefix_append_right_inj _).mpr hafter.1),
        ((List.prefix_append_right_inj _).mpr hafter.2).trans (hthrough.reaches (2 * bound))⟩

/-- A merge keeps what is run from the first block. -/
theorem Merges.emits_iff {actions : List (Action V)} :
    I.Emits args f env memory actions ↔ I.Emits args g env memory actions := by
  have hrun : ∀ bound,
      I.run args f bound 0 env memory <+: I.run args g bound (mergedIndex l r 0) env memory ∧
        I.run args g bound (mergedIndex l r 0) env memory <+:
          I.run args f (2 * bound) 0 env memory :=
    m.run_prefix h (Agrees.start m.pair.ne_entry) .start m.pair.ne_entry.symm
  rw [mergedIndex_zero m.pair.ne_entry] at hrun
  constructor
  · intro hex
    obtain ⟨bound, hprefix⟩ := hex
    exact ⟨bound, hprefix.trans (hrun bound).1⟩
  · intro hex
    obtain ⟨bound, hprefix⟩ := hex
    exact ⟨2 * bound, hprefix.trans (hrun bound).2⟩

end Merge

/-! ## All merges -/

/-- Merging pair after pair keeps what is run. -/
theorem Mergeable.mergePairs (h : f.Mergeable) (bound : Nat) :
    (mergePairs bound f).1.Mergeable ∧ ∀ (I : Interpretation V M) (args : Nat → V)
      (env : InstId → V) (memory : M) (actions : List (Action V)),
      I.Emits args f env memory actions ↔
        I.Emits args (mergePairs bound f).1 env memory actions := by
  induction bound generalizing f with
  | zero => exact ⟨h, fun _ _ _ _ _ => Iff.rfl⟩
  | succ bound ih =>
      rw [Function.mergePairs]
      split
      · exact ⟨h, fun _ _ _ _ _ => Iff.rfl⟩
      · rename_i b target hpair
        obtain ⟨t, hpair⟩ := chainPair?_eq_some hpair
        obtain ⟨front, σ, m⟩ := h.merges hpair
        obtain ⟨hmergeable, hemits⟩ := ih (m.mergeable h)
        exact ⟨hmergeable, fun I args env memory actions =>
          (m.emits_iff h).trans (hemits I args env memory actions)⟩

end Function

/-- Merging chains of blocks keeps what is run: every interpretation makes the same instructions
other than phis and jumps run in the same order on the same values. -/
theorem emits_mergeChains {text : String} {source : Module} {f : Function} {V M : Type}
    (hread : Module.readChecked text = .ok source) (hf : f ∈ source.functions) (hssa : f.IsSsa)
    (hcallees : f.CalleesFixed) (I : Interpretation V M) (args : Nat → V) (env : InstId → V)
    (memory : M) (actions : List (Action V)) :
    I.Emits args f env memory actions ↔ I.Emits args f.mergeChains.function env memory actions := by
  have h := Function.mergeable_of_checked (Module.readChecked_checked hread hf) hssa hcallees
  rw [Function.mergeChains_function]
  exact (h.mergePairs f.blocks.length).2 I args env memory actions

/-- A function with a phi that only passes a value on. -/
def passedOn : Function where
  name := "f"
  ret := .int 32
  params := [⟨"a", .int 32⟩]
  blocks := [⟨"entry", [0, 1]⟩, ⟨"next", [2, 3, 4]⟩]
  slots := [
    ⟨some "x", .binary .add (.int 32) (.param 0) (.const ⟨.int 32, "1"⟩), 0⟩,
    ⟨none, .jump 1, 0⟩,
    ⟨some "p", .phi (.int 32) [⟨.result 0, 0⟩], 1⟩,
    ⟨some "r", .binary .mul (.int 32) (.result 2) (.result 0), 1⟩,
    ⟨none, .ret (some ⟨.int 32, .result 3⟩), 1⟩]

/-- The text of `passedOn`. -/
def passedOnText : String :=
  "define i32 @f(i32 %a) \x7b\nentry:\n  %x = add i32 %a, 1\n  br label %next\nnext:\n" ++
    "  %p = phi i32 [ %x, %entry ]\n  %r = mul i32 %p, %x\n  ret i32 %r\n\x7d\n"

theorem read_passedOn : Module.readChecked passedOnText = .ok ⟨[passedOn]⟩ := by
  decide +kernel

theorem mem_body_passedOn {b : BlockId} {id : InstId} (h : id ∈ passedOn.body b) :
    b = 0 ∧ (id = 0 ∨ id = 1) ∨ b = 1 ∧ (id = 2 ∨ id = 3 ∨ id = 4) := by
  have hlt : b < 2 := Function.lt_length_of_mem_body h
  match b, hlt with
  | 0, _ => exact Or.inl ⟨rfl, by simpa [passedOn, Function.body] using h⟩
  | 1, _ => exact Or.inr ⟨rfl, by simpa [passedOn, Function.body] using h⟩

theorem isSsa_passedOn : passedOn.IsSsa where
  dominated {c x d} hread hx := by
    rcases mem_body_passedOn hx with ⟨rfl, _⟩ | ⟨rfl, hx⟩
    · exact Function.dominates_zero
    · -- what the second block defines is read only there
      generalize hv : Operand.result x = v at hread
      cases hread with
      | inst hid hi _ hmem =>
          rcases mem_body_passedOn hid with ⟨rfl, rfl | rfl⟩ | ⟨rfl, _⟩
          · cases hi
            simp [Instruction.operands, ← hv] at hmem
          · cases hi
            simp [Instruction.operands] at hmem
          · exact Function.dominates_self
      | arm hid hi harm _ =>
          rcases mem_body_passedOn hid with ⟨rfl, rfl | rfl⟩ | ⟨rfl, rfl | rfl | rfl⟩ <;> cases hi
          rw [List.mem_singleton.mp harm] at hv
          cases hv
          exact absurd hx (by decide)
  arms_once {id b ty arms} hid hi := by
    rcases mem_body_passedOn hid with ⟨rfl, rfl | rfl⟩ | ⟨rfl, rfl | rfl | rfl⟩ <;> cases hi
    decide

theorem calleesFixed_passedOn : passedOn.CalleesFixed := by
  intro id i x hid hi
  obtain ⟨b, hid⟩ := Function.mem_live.mp hid
  rcases mem_body_passedOn hid with ⟨rfl, rfl | rfl⟩ | ⟨rfl, rfl | rfl | rfl⟩ <;> cases hi <;>
    simp [Instruction.callee?]

/-- Sums and products of natural numbers, where every literal is one. -/
def naturals : Interpretation Nat Unit where
  const _ := 1
  global _ := 0
  function _ := 0
  truth v := v ≠ 0
  step _ i values memory :=
    (match i with
      | .binary .mul _ _ _ => values.foldl (· * ·) 1
      | _ => values.foldl (· + ·) 0, memory)

theorem emits_mergeChains_passedOn :
    naturals.Emits (fun _ => 3) passedOn.mergeChains.function (fun _ => 0) ()
      [⟨0, .binary .add (.int 32) (.param 0) (.param 0), [3, 1]⟩,
        ⟨3, .binary .mul (.int 32) (.param 0) (.param 0), [4, 4]⟩,
        ⟨4, .ret (some ⟨.int 32, .param 0⟩), [16]⟩] :=
  (emits_mergeChains read_passedOn List.mem_cons_self isSsa_passedOn calleesFixed_passedOn
    naturals (fun _ => 3) (fun _ => 0) () _).mp ⟨2, [], rfl⟩

end Dataflow
