import Dataflow.Proofs.Text.Reprinting
import Dataflow.Proofs.Transform.MergeSteps

/-!
# References after merging

`Function.Rewires` tells what all merges together make of a function: phis and jumps are gone, and
an operand follows the phis that are gone from phi to value, to the end if there is an end. Two
things are left that mention what is gone. A callee is no operand and is not followed. And an
operand may lead to no end, if phis are each other's first values, or to the result of a jump
(`Function.Strands`). `Module.rewires_mergeChains` says that nothing else does.
-/

namespace Dataflow

open Relation

namespace Function

variable {f g h : Function} {b c l r : BlockId} {p t x y : InstId} {front : List InstId}
  {σ τ : Operand → Operand} {κ : BlockId → BlockId} {u v w : Operand}

/-- Instruction `x` was in the program of `f` and is not in that of `g`. -/
def GoneIn (f g : Function) (x : InstId) : Prop := x ∈ f.live ∧ x ∉ g.live

/-- What merging makes of a function, where `σ` says what becomes of an operand and `κ` what becomes
of a block. -/
structure Rewires (f g : Function) (σ : Operand → Operand) (κ : BlockId → BlockId) : Prop where
  /-- Nothing new is in the program. -/
  live : ∀ x ∈ g.live, x ∈ f.live
  /-- What is gone is a phi or a jump. -/
  gone : ∀ x, f.GoneIn g x → f.isPhiAt x = true ∨ ∃ b, f.instruction? x = some (.jump b)
  /-- What stays has other operands and names other blocks. Its callee is the same. -/
  instruction : ∀ x ∈ g.live, g.instruction? x =
    (f.instruction? x).map fun i => (i.mapOperands σ).mapBlocks κ
  /-- An operand follows phis that are gone. -/
  traced : ∀ v, ReflTransGen (f.FoldStep (f.GoneIn g)) v (σ v)
  /-- It follows them to the end if there is one. -/
  reaches : ∀ v w, ReflTransGen (f.FoldStep (f.GoneIn g)) v w →
    (∀ p, f.GoneIn g p → f.isPhiAt p = true → w ≠ .result p) → σ v = w

theorem Rewires.refl (f : Function) : f.Rewires f (fun v => v) fun b => b where
  live _ hx := hx
  gone _ hx := absurd hx.1 hx.2
  instruction x _ := by
    cases f.instruction? x with
    | none => rfl
    | some i => cases i <;> simp [Instruction.mapOperands, Instruction.mapBlocks, TypedOperand.map]
  traced _ := .refl
  reaches v w hway _ := (FoldStep.eq_of_ne (fun _ hp => absurd hp.1 hp.2) hway).symm

/-! ## A merge before other merges -/

theorem FoldStep.mono {Gone Gone' : InstId → Prop}
    (hgone : ∀ p, f.isPhiAt p = true → Gone p → Gone' p) (hstep : f.FoldStep Gone v w) :
    f.FoldStep Gone' v w := by
  obtain ⟨p, hp, hv, hfold⟩ := hstep
  exact ⟨p, hgone p hfold.isPhiAt hp, hv, hfold⟩

namespace Merges

variable (m : f.Merges g l r t front σ)

include m

/-- A phi that stays folds to what the merge made of its value. -/
theorem folds_iff (hp : p ∈ g.live) : g.Folds p w ↔ ∃ v, f.Folds p v ∧ σ v = w := by
  constructor
  · rintro ⟨ty, arm, arms, hi, rfl⟩
    obtain ⟨e, he⟩ := mem_live.mp hp
    obtain ⟨c, old, _, _, _, hold, harms⟩ := m.of_phi he hi
    cases old with
    | nil => simp at harms
    | cons first old =>
        rw [List.map_cons, List.cons.injEq] at harms
        exact ⟨first.value, ⟨ty, first, old, hold, rfl⟩, by rw [harms.1]⟩
  · rintro ⟨v, ⟨ty, arm, arms, hi, rfl⟩, rfl⟩
    exact ⟨ty, _, _, m.instruction_phi hp hi, rfl⟩

variable (hf : f.Placed) (h' : g.Rewires h τ κ)

include hf h'

/-- What the merge takes away is gone in the end. -/
theorem goneIn_of_folded (hp : p ∈ f.body r) (hphi : f.isPhiAt p = true) : f.GoneIn h p :=
  ⟨mem_live_of_mem_body hp, fun hlive =>
    ((m.mem_live_iff hf).mp (h'.live p hlive)).2.2 ⟨hp, hphi⟩⟩

omit h' in
theorem goneIn_of_goneIn (hp : g.GoneIn h p) : f.GoneIn h p :=
  ⟨((m.mem_live_iff hf).mp hp.1).1, hp.2⟩

theorem traced_rewires (v : Operand) : ReflTransGen (f.FoldStep (f.GoneIn h)) v (τ (σ v)) := by
  have hfolded : ∀ {v w}, f.FoldStep (· ∈ f.body r) v w → f.FoldStep (f.GoneIn h) v w :=
    fun hstep => hstep.mono fun p hphi hp => m.goneIn_of_folded hf h' hp hphi
  have hfirst : ∀ v, ReflTransGen (f.FoldStep (f.GoneIn h)) v (σ v) := fun v =>
    ReflTransGen.mono (fun _ _ => hfolded) _ _ (m.traced v)
  refine (hfirst v).trans (reflTransGen_closed (fun a b hstep => ?_) _ _ (h'.traced (σ v)))
  obtain ⟨p, hp, rfl, hfold⟩ := hstep
  obtain ⟨w, hw, rfl⟩ := (m.folds_iff hp.1).mp hfold
  exact .head ⟨p, m.goneIn_of_goneIn hf hp, rfl, hw⟩ (hfirst w)

/-- A way through all the phis that are gone first takes those of the appended block, to their end,
and then others. -/
theorem exists_end (hend : ∀ p, f.GoneIn h p → f.isPhiAt p = true → w ≠ .result p)
    (hway : ReflTransGen (f.FoldStep (f.GoneIn h)) v w) :
    ∃ z, ReflTransGen (f.FoldStep (· ∈ f.body r)) v z ∧
      (∀ p ∈ f.body r, f.isPhiAt p = true → z ≠ .result p) ∧
      ReflTransGen (g.FoldStep (g.GoneIn h)) z w := by
  induction hway using ReflTransGen.head_induction_on with
  | refl => exact ⟨w, .refl, fun p hp hphi => hend p (m.goneIn_of_folded hf h' hp hphi) hphi, .refl⟩
  | @head v u hstep _ ih =>
      obtain ⟨z, hz, hlast, hrest⟩ := ih
      obtain ⟨p, hp, rfl, hfold⟩ := hstep
      by_cases hpr : p ∈ f.body r
      · exact ⟨z, .head ⟨p, hpr, rfl, hfold⟩ hz, hlast, hrest⟩
      · -- the phi stays for now, and its value has become the end of the way through the block
        have hpt : p ≠ t := by
          rintro rfl
          obtain ⟨ty, arm, arms, hi, _⟩ := hfold
          rw [m.pair.jump] at hi
          cases hi
        have hlive : p ∈ g.live := (m.mem_live_iff hf).mpr ⟨hp.1, hpt, fun hin => hpr hin.1⟩
        refine ⟨.result p, .refl, fun q hq _ heq => ?_, .head ⟨p, ⟨hlive, hp.2⟩, rfl, ?_⟩ hrest⟩
        · cases heq
          exact hpr hq
        · exact (m.folds_iff hlive).mpr ⟨u, hfold, m.reaches u z hz hlast⟩

/-- A merge and then others. -/
theorem rewires : f.Rewires h (fun v => τ (σ v)) fun b => κ (mergedIndex l r b) where
  live x hx := ((m.mem_live_iff hf).mp (h'.live x hx)).1
  gone x hx := by
    by_cases hlive : x ∈ g.live
    · rcases h'.gone x ⟨hlive, hx.2⟩ with hphi | ⟨b, hjump⟩
      · exact .inl (m.isPhiAt_eq hlive ▸ hphi)
      · obtain ⟨i, hi, heq⟩ := m.of_instruction hlive hjump
        cases i with
        | jump target => exact .inr ⟨target, hi⟩
        | _ => cases heq
    · by_cases hxt : x = t
      · exact .inr ⟨r, hxt ▸ m.pair.jump⟩
      · refine .inl (by_contra fun hphi => hlive ?_)
        exact (m.mem_live_iff hf).mpr ⟨hx.1, hxt, fun hin => hphi hin.2⟩
  instruction x hx := by
    rw [h'.instruction x hx, m.instruction x (h'.live x hx), Option.map_map]
    refine congrArg (fun k => (f.instruction? x).map k) (funext fun i => ?_)
    simp only [Function.comp_apply, Instruction.mapOperands_mapBlocks,
      Instruction.mapOperands_mapOperands, Instruction.mapBlocks_mapBlocks]
  traced := m.traced_rewires hf h'
  reaches v w hway hend := by
    obtain ⟨z, hz, hlast, hrest⟩ := m.exists_end hf h' hend hway
    rw [m.reaches v z hz hlast]
    refine h'.reaches z w hrest fun p hp hphi => hend p (m.goneIn_of_goneIn hf hp) ?_
    rwa [← m.isPhiAt_eq hp.1]

end Merges

theorem Linked.rewires (hf : f.Linked) :
    ∃ σ κ, f.Rewires f.mergeChains.function σ κ := by
  rw [mergeChains_function]
  refine hf.mergePairs (P := fun f g => ∃ σ κ, f.Rewires g σ κ) (fun f => ⟨_, _, .refl f⟩)
    (fun hf m h' => ?_) _
  obtain ⟨τ, κ, h'⟩ := h'
  exact ⟨_, _, m.rewires hf.placed h'⟩

/-! ## What mentions something that is gone -/

/-- The phis that are gone lead from an operand to the result of an instruction that is gone and is
no phi, or they lead on for ever. -/
def Strands (f g : Function) (v : Operand) : Prop :=
  (∃ y, f.GoneIn g y ∧ f.isPhiAt y = false ∧
    ReflTransGen (f.FoldStep (f.GoneIn g)) v (.result y)) ∨
  ∀ w, ReflTransGen (f.FoldStep (f.GoneIn g)) v w → ∃ u, f.FoldStep (f.GoneIn g) w u

theorem Rewires.strands_iff (h : f.Rewires g σ κ) (hf : f.Linked)
    (hlive : ∀ y, σ v = .result y → y ∈ f.live) :
    f.Strands g v ↔ ∃ y, σ v = .result y ∧ y ∉ g.live := by
  constructor
  · rintro (⟨y, hy, hphi, hway⟩ | hendless)
    · refine ⟨y, h.reaches v _ hway fun p _ hp heq => ?_, hy.2⟩
      cases heq
      rw [hphi] at hp
      cases hp
    · obtain ⟨u, p, hp, hσ, _⟩ := hendless (σ v) (h.traced v)
      exact ⟨p, hσ, hp.2⟩
  · rintro ⟨y, hσ, hy⟩
    have hgone : f.GoneIn g y := ⟨hlive y hσ, hy⟩
    cases hphi : f.isPhiAt y with
    | false => exact .inl ⟨y, hgone, hphi, hσ ▸ h.traced v⟩
    | true =>
        refine .inr fun w hway => by_contra fun hend => ?_
        -- without a step on, `w` would be the end, and what the operand has become
        have hlast : ∀ p, f.GoneIn g p → f.isPhiAt p = true → w ≠ .result p := by
          rintro p hp hpphi rfl
          obtain ⟨u, hu⟩ := hf.folds hp.1 hpphi
          exact hend ⟨u, p, hp, rfl, hu⟩
        have hw := h.reaches v w hway hlast
        exact hlast y hgone hphi (hw ▸ hσ)

/-- In a function that was read the phis lead from results in the program to results in the
program. -/
theorem Bound.live_of_trace (h : f.Bound) {Gone : InstId → Prop}
    (hv : ∀ y, v = .result y → y ∈ f.live) (hway : ReflTransGen (f.FoldStep Gone) v w) :
    ∀ y, w = .result y → y ∈ f.live := by
  rcases ReflTransGen.cases_tail hway with rfl | ⟨u, _, p, _, _, ty, arm, arms, hi, rfl⟩
  · exact hv
  · intro y hy
    rw [h.live_eq]
    refine List.mem_range.mpr (h.resolved.result hi ?_)
    exact List.mem_map.mpr ⟨arm, List.mem_cons_self, hy⟩

end Function

/-- Merging a function that was read takes phis and jumps away and lets operands follow the phis. An
instruction that stays then mentions a result that is gone exactly if it calls it, or if one of its
operands was stranded. -/
theorem Module.rewires_mergeChains {text : String} {source : Module} {f : Function}
    (hread : Module.read text = .ok source) (hf : f ∈ source.functions) :
    (∃ σ κ, f.Rewires f.mergeChains.function σ κ) ∧
    ∀ x ∈ f.mergeChains.function.live, ∀ i, f.instruction? x = some i →
      ∃ j, f.mergeChains.function.instruction? x = some j ∧
        ((∃ y, .result y ∈ j.uses ∧ y ∉ f.mergeChains.function.live) ↔
          (∃ y, i.callee? = some (.result y) ∧ y ∉ f.mergeChains.function.live) ∨
          ∃ v ∈ i.operands, f.Strands f.mergeChains.function v) := by
  have hbound := read_bound hread hf
  obtain ⟨σ, κ, h⟩ := hbound.linked.rewires
  refine ⟨⟨σ, κ, h⟩, fun x hx i hi => ⟨_, by rw [h.instruction x hx, hi]; rfl, ?_⟩⟩
  have hstrands : ∀ v ∈ i.operands, (f.Strands f.mergeChains.function v ↔
      ∃ y, σ v = .result y ∧ y ∉ f.mergeChains.function.live) := by
    intro v hv
    refine h.strands_iff hbound.linked (hbound.live_of_trace (v := v) ?_ (h.traced v))
    rintro y rfl
    rw [hbound.live_eq]
    exact List.mem_range.mpr (hbound.resolved.result hi hv)
  simp only [Instruction.uses, Instruction.operands_mapBlocks, Instruction.operands_mapOperands,
    Instruction.callee?_mapBlocks, Instruction.callee?_mapOperands, List.mem_append,
    Option.mem_toList, List.mem_map]
  constructor
  · rintro ⟨y, ⟨v, hv, hσ⟩ | hcallee, hgone⟩
    · exact .inr ⟨v, hv, (hstrands v hv).mpr ⟨y, hσ, hgone⟩⟩
    · exact .inl ⟨y, hcallee, hgone⟩
  · rintro (⟨y, hcallee, hgone⟩ | ⟨v, hv, hstrand⟩)
    · exact ⟨y, .inr hcallee, hgone⟩
    · obtain ⟨y, hσ, hgone⟩ := (hstrands v hv).mp hstrand
      exact ⟨y, .inl ⟨v, hv, hσ⟩, hgone⟩

/-- A function that calls what a phi of a block with one predecessor gives. -/
def calledPhi : Function where
  name := "f"
  ret := .void
  params := [⟨"g", .ptr⟩]
  blocks := [⟨"entry", [0]⟩, ⟨"next", [1, 2, 3]⟩]
  slots := [
    ⟨none, .jump 1, 0⟩,
    ⟨some "h", .phi .ptr [⟨.param 0, 0⟩], 1⟩,
    ⟨none, .call .void (.result 1) [], 1⟩,
    ⟨none, .ret none, 1⟩]

/-- The text of `calledPhi`. -/
def calledPhiText : String :=
  "define void @f(ptr %g) \x7b\nentry:\n  br label %next\nnext:\n" ++
    "  %h = phi ptr [ %g, %entry ]\n  call void %h()\n  ret void\n\x7d\n"

theorem rewires_mergeChains_calledPhi : Module.read calledPhiText = .ok ⟨[calledPhi]⟩ ∧
    (∃ σ κ, calledPhi.Rewires calledPhi.mergeChains.function σ κ) ∧
    ∀ x ∈ calledPhi.mergeChains.function.live, ∀ i, calledPhi.instruction? x = some i →
      ∃ j, calledPhi.mergeChains.function.instruction? x = some j ∧
        ((∃ y, .result y ∈ j.uses ∧ y ∉ calledPhi.mergeChains.function.live) ↔
          (∃ y, i.callee? = some (.result y) ∧ y ∉ calledPhi.mergeChains.function.live) ∨
          ∃ v ∈ i.operands, calledPhi.Strands calledPhi.mergeChains.function v) :=
  have hread : Module.read calledPhiText = .ok ⟨[calledPhi]⟩ := by decide +kernel
  ⟨hread, Module.rewires_mergeChains hread List.mem_cons_self⟩

/-- The text is read, and a check finds nothing wrong with it. After merging the call still mentions
the phi, which is gone, and what is printed uses a name that it does not define. -/
theorem calledPhi_mentions_gone : Module.readChecked calledPhiText = .ok ⟨[calledPhi]⟩ ∧
    (∃ x ∈ calledPhi.mergeChains.function.live, ∃ j,
      calledPhi.mergeChains.function.instruction? x = some j ∧
        ∃ y, .result y ∈ j.uses ∧ y ∉ calledPhi.mergeChains.function.live) ∧
    Module.read (Module.text ⟨[calledPhi.mergeChains.function]⟩) =
      .error (.binding (.unknownValue "h" "f")) := by
  refine ⟨by decide +kernel, ⟨2, by decide +kernel, .call .void (.result 1) [], by decide +kernel,
    1, by decide, by decide +kernel⟩, by decide +kernel⟩

end Dataflow
