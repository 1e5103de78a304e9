import Dataflow.Proofs.Lowering.ControllingBranch
import Dataflow.Proofs.Lowering.SearchEnds

/-!
# Every stage ends

`Completes` tells what a stage of lowering does without a bound on searches and climbs, and demands
that every instruction, block and parameter that is looked at is there. In a function whose
references lead somewhere each stage completes, in the draft that it is defined to give
(`completes_iff`), whatever circles operands make. Over all stages each branch and each select that
is live gets a pair of steers once, and nothing gets one twice (`Function.lowering_ends`).
-/

namespace Dataflow

/-! ## Runs without a bound -/

/-- Steps for the members of a list, in order. -/
inductive Each {α : Type} (R : α → Draft → Draft → Prop) : List α → Draft → Draft → Prop where
  | nil {d} : Each R [] d d
  | cons {x rest d e g} : R x d e → Each R rest e g → Each R (x :: rest) d g

/-- Asking for the pair of steers of a branch comes to an end. -/
inductive Splits (f : Function) (options : LowerOptions) :
    InstId → Draft → Draft → SteerPair → Prop where
  /-- The pair is there. -/
  | known {id d p} : d.steers.lookup id = some p → Splits f options id d d p
  /-- The pair is made, and takes the stream. -/
  | made {id cond onTrue onFalse d e p} : d.steers.lookup id = none →
      f.instruction? id = some (.branch cond onTrue onFalse) → Opens f id cond none none d e p →
      Splits f options id d (if options.entryStream then e.linkStream p else e) p

/-- A branch feeds the first operator on each side. -/
def Draft.feedTargets (f : Function) (p : SteerPair) (onTrue onFalse : BlockId) (d : Draft) :
    Draft :=
  let intoTrue := d.firstOperator f onTrue
  let intoFalse := d.firstOperator f onFalse
  let d := intoTrue.elim d (d.link p.onTrue)
  intoFalse.elim d (d.link p.onFalse)

/-- The step for a branch comes to an end. Other instructions change nothing. -/
inductive BranchStep (f : Function) (options : LowerOptions) : InstId → Draft → Draft → Prop where
  | branch {id cond onTrue onFalse d e p} :
      f.instruction? id = some (.branch cond onTrue onFalse) → onTrue < f.blocks.length →
      onFalse < f.blocks.length → Splits f options id d e p →
      BranchStep f options id d (e.feedTargets f p onTrue onFalse)
  | other {id i d} : f.instruction? id = some i → (∀ cond a b, i ≠ .branch cond a b) →
      BranchStep f options id d d

/-- The step for a select comes to an end. Other instructions change nothing. -/
inductive SelectStep (f : Function) : InstId → Draft → Draft → Prop where
  | select {id i d e p} : f.instruction? id = some i → i.isSelect = true → Selects f id d e p →
      SelectStep f id d e
  | other {id i d} : f.instruction? id = some i → i.isSelect = false → SelectStep f id d d

/-- Wiring an arm of a phi in block `block` comes to an end. -/
inductive ArmStep (f : Function) (options : LowerOptions) (block : BlockId) (join : NodeId) :
    Arm → Draft → Draft → Prop where
  | direct {arm d e} : arm.source < f.blocks.length →
      f.Climbs options.traceBranches [] arm.source block none → Wires f arm.value join d e →
      ArmStep f options block join arm d e
  | steered {arm branch taken d e g p} : arm.source < f.blocks.length →
      f.Climbs options.traceBranches [] arm.source block (some (branch, taken)) →
      Splits f options branch d e p → Wires f arm.value (p.side taken) e g →
      ArmStep f options block join arm d (g.link (p.side taken) join)

/-- Wiring a phi that is a carry comes to an end. -/
inductive CarryStep (f : Function) (id : InstId) (join : NodeId) (l : NaturalLoop)
    (arms : List Arm) : Draft → Draft → Prop where
  | decided {cond d e g} : f.loopDecider l = some cond → Wires f cond join (d.toCarry join) e →
      Each (fun arm => Wires f arm.value join) arms e g → CarryStep f id join l arms d g
  | undecided {d g} : f.loopDecider l = none → Each (fun arm => Wires f arm.value join) arms
      ((d.toCarry join).report (.noLoopCondition f.name (f.operandText (.result id)))) g →
      CarryStep f id join l arms d g

/-- The step for a phi comes to an end. Other instructions change nothing. -/
inductive JoinStep (f : Function) (forest : LoopForest) (options : LowerOptions) :
    InstId → Draft → Draft → Prop where
  | carry {id block arms join l d e} : f.IsJoin id block arms → d.operator? id = some join →
      forest.carrying? block arms = some l → CarryStep f id join l arms d e →
      JoinStep f forest options id d ((f.users (.result id)).foldl (Draft.feedJoinUser f join) e)
  | merge {id block arms join d e} : f.IsJoin id block arms → d.operator? id = some join →
      forest.carrying? block arms = none → Each (ArmStep f options block join) arms d e →
      JoinStep f forest options id d ((f.users (.result id)).foldl (Draft.feedJoinUser f join) e)
  | other {id i d} : f.instruction? id = some i →
      (∀ block arms join, f.IsJoin id block arms → d.operator? id ≠ some join) →
      JoinStep f forest options id d d

/-- A stage comes to an end, and makes one draft of another. -/
inductive Completes (f : Function) (forest : LoopForest) (options : LowerOptions) :
    Stage → Draft → Draft → Prop where
  | nodes {d e} : Each (fun id d e => ∃ i, f.instruction? id = some i ∧ d.addRole f (id, i) = e)
      f.live d e → Completes f forest options .nodes d e
  | steers {d e g} : Each (BranchStep f options) f.live d e → Each (SelectStep f) f.live e g →
      Completes f forest options .steers d g
  | leaves {d} : (∀ v ∈ f.leaves, f.Refers v) →
      Completes f forest options .leaves d (d.wireAllLeaves f)
  | results {d e} : Each (fun (sink : List Operand × NodeId) =>
        Each (fun v => Wires f v sink.2) (sink.1.filter (·.result?.isSome))) (d.sinks f) d e →
      Completes f forest options .results d e
  | joins {d e} : Each (JoinStep f forest options) f.live d e →
      Completes f forest options .joins d e
  | memory {d} : Completes f forest options .memory d (d.run f forest options .memory)
  | cleanup {d} : Completes f forest options .cleanup d (d.cleanUp f)

variable {f : Function} {forest : LoopForest} {options : LowerOptions} {d e : Draft}
  {id : InstId} {p : SteerPair} {i : Instruction} {cond : Operand} {arm : Arm} {arms : List Arm}
  {onTrue onFalse block : BlockId} {join : NodeId} {l : NaturalLoop}

/-! ## Steps in order -/

/-- Steps that each end in one draft end together in what they make in turn. -/
theorem each_iff {α : Type} {R : α → Draft → Draft → Prop} {k : Draft → α → Draft} {l : List α}
    (h : ∀ x ∈ l, ∀ d e, R x d e ↔ k d x = e) : Each R l d e ↔ l.foldl k d = e := by
  induction l generalizing d with
  | nil =>
      constructor
      · rintro ⟨⟩
        rfl
      · rintro rfl
        exact .nil
  | cons x l ih =>
      have hrest := fun {d} => ih (d := d) fun y hy => h y (List.mem_cons_of_mem x hy)
      have hfirst := h x List.mem_cons_self
      rw [List.foldl_cons, ← hrest]
      constructor
      · rintro (_ | ⟨hx, hl⟩)
        rwa [(hfirst _ _).mp hx]
      · exact .cons ((hfirst _ _).mpr rfl)

section Ends

variable (hf : f.InRange)

include hf

/-- Steps for the live instructions that each look the instruction up. -/
theorem each_live_iff {R : InstId → Draft → Draft → Prop} {k : Draft → InstId × Instruction → Draft}
    (h : ∀ id i, f.instruction? id = some i → ∀ d e, R id d e ↔ k d (id, i) = e) :
    Each R f.live d e ↔ f.steps.foldl k d = e := by
  rw [Function.steps, List.foldl_filterMap]
  refine each_iff fun id hid d e => ?_
  obtain ⟨i, hi⟩ := Function.exists_instruction? (hf.listed id hid)
  rw [hi]
  exact h id i hi d e

/-! ## Branches and selects -/

/-- The steers of a branch are made in the end as lowering makes them. -/
theorem splits_iff (hi : f.instruction? id = some (.branch cond onTrue onFalse)) :
    Splits f options id d e p ↔ d.branchSteers f options id = (e, some p) := by
  have hopens : ∀ {g q}, d.steers.lookup id = none → (Opens f id cond none none d g q ↔
      d.openSteers f (Draft.wire f) id cond none none = (g, q)) := fun hnew =>
    opens_iff hf hi hnew (by simp [Instruction.operands]) (by simp) (by simp)
  constructor
  · intro h
    cases h with
    | known hp => simp only [Draft.branchSteers, hp]
    | made hnew hi' hrun =>
        cases hi.symm.trans hi'
        simp only [Draft.branchSteers, hnew, hi, (hopens hnew).mp hrun]
  · intro h
    unfold Draft.branchSteers at h
    split at h
    · rename_i hp
      cases h
      exact .known hp
    · rename_i hnew
      simp only [hi] at h
      cases h
      exact .made hnew hi ((hopens hnew).mpr rfl)

omit hf in
/-- A branch always gets its pair. -/
theorem exists_branchSteers (d : Draft) (options : LowerOptions)
    (hi : f.instruction? id = some (.branch cond onTrue onFalse)) :
    ∃ e p, d.branchSteers f options id = (e, some p) := by
  unfold Draft.branchSteers
  split
  · exact ⟨_, _, rfl⟩
  · simp only [hi]
    exact ⟨_, _, rfl⟩

/-- A branch ends in what lowering makes of it. -/
theorem branchStep_iff (hi : f.instruction? id = some i) :
    BranchStep f options id d e ↔ d.lowerBranch f options (id, i) = e := by
  constructor
  · intro h
    cases h with
    | branch hi' _ _ hrun =>
        cases hi.symm.trans hi'
        simp only [Draft.lowerBranch, (splits_iff hf hi).mp hrun]
        rfl
    | other hi' hnot =>
        cases hi.symm.trans hi'
        cases i <;> first | rfl | exact absurd rfl (hnot _ _ _)
  · rintro rfl
    cases i with
    | branch cond onTrue onFalse =>
        obtain ⟨e, p, heq⟩ := exists_branchSteers d options hi
        have hblock : ∀ b ∈ [onTrue, onFalse], b < f.blocks.length := fun b hb => hf.block hi hb
        have hstep := BranchStep.branch hi (hblock _ (by simp)) (hblock _ (by simp))
          ((splits_iff hf hi).mpr heq)
        simp only [Draft.lowerBranch, heq]
        exact hstep
    | _ => exact .other hi (by simp)

/-- A select ends in what lowering makes of it. -/
theorem selectStep_iff (hi : f.instruction? id = some i) :
    SelectStep f id d e ↔ d.lowerSelect f (id, i) = e := by
  constructor
  · intro h
    cases h with
    | select hi' hsel hrun =>
        cases hi.symm.trans hi'
        have heq := (selects_iff hf hi hsel).mp hrun
        cases i with
        | select => simp only [Draft.lowerSelect, heq]
        | _ => cases hsel
    | other hi' hsel =>
        cases hi.symm.trans hi'
        cases i <;> first | rfl | cases hsel
  · rintro rfl
    cases i with
    | select =>
        obtain ⟨g, p, heq, _⟩ := Draft.selects_selectSteers (d := d) (Draft.wire_ends hf) hf hi rfl
          (Function.lt_length_of_instruction? hi) (Nat.le_succ_of_le Function.unsteered_le)
        simp only [Draft.lowerSelect, heq]
        exact .select hi rfl ((selects_iff hf hi rfl).mpr heq)
    | _ => exact .other hi rfl

/-! ## Phis -/

omit hf in
/-- A climb has one outcome. -/
theorem Function.Climbs.unique {trace : Bool} {seen : List BlockId} {source target : BlockId}
    {answer answer' : Option (InstId × Bool)} (h : f.Climbs trace seen source target answer)
    (h' : f.Climbs trace seen source target answer') : answer = answer' := by
  induction h with
  | decided hid hi =>
      cases h' with
      | decided hid' hi' =>
          cases hid.symm.trans hid'
          cases hi.symm.trans hi'
          rfl
      | climbed hid' hi' =>
          cases hid.symm.trans hid'
          cases hi.symm.trans hi'
      | stopped hnot => exact absurd ⟨_, _, _, _, hid, hi⟩ hnot
  | climbed hid hi htrace hpred hnew _ ih =>
      cases h' with
      | decided hid' hi' =>
          cases hid.symm.trans hid'
          cases hi.symm.trans hi'
      | climbed hid' hi' _ hpred' _ hrest =>
          cases hpred.symm.trans hpred'
          exact ih hrest
      | stopped _ hnot => exact absurd ⟨_, _, _, hid, hi, htrace, hpred, hnew⟩ hnot
  | stopped hbranch hclimb =>
      cases h' with
      | decided hid hi => exact absurd ⟨_, _, _, _, hid, hi⟩ hbranch
      | climbed hid hi htrace hpred hnew =>
          exact absurd ⟨_, _, _, hid, hi, htrace, hpred, hnew⟩ hclimb
      | stopped => rfl

/-- A value of a merge ends in what lowering makes of it. -/
theorem armStep_iff (hi : f.instruction? id = some i) (hvalue : arm.value ∈ i.operands)
    (hsource : arm.source ∈ i.blockRefs) :
    ArmStep f options block join arm d e ↔ d.lowerArm f options block join arm = e := by
  have hclimbs := f.climbs_controlling options.traceBranches arm.source block
  have hwires : ∀ {g h target}, Wires f arm.value target g h ↔ g.wire f arm.value target = h :=
    wires_iff hf (hf.operand hi hvalue)
  unfold Draft.lowerArm
  cases hway : f.controlling options.traceBranches arm.source block with
  | none =>
      rw [hway] at hclimbs
      simp only
      rw [← hwires]
      constructor
      · intro h
        cases h with
        | direct _ _ hrun => exact hrun
        | steered _ hclimbs' => cases hclimbs.unique hclimbs'
      · exact .direct (hf.block hi hsource) hclimbs
  | some way =>
      obtain ⟨branch, taken⟩ := way
      rw [hway] at hclimbs
      obtain ⟨cond, onTrue, onFalse, hbranch⟩ := Function.controlling?_eq_some hway
      obtain ⟨g, p, heq⟩ := exists_branchSteers d options hbranch
      simp only [heq]
      constructor
      · intro h
        cases h with
        | direct _ hclimbs' => cases hclimbs.unique hclimbs'
        | steered _ hclimbs' hsplit hrun =>
            cases hclimbs.unique hclimbs'
            cases heq.symm.trans ((splits_iff hf hbranch).mp hsplit)
            rw [hwires.mp hrun]
      · rintro rfl
        exact .steered (hf.block hi hsource) hclimbs ((splits_iff hf hbranch).mpr heq)
          (hwires.mpr rfl)

/-- A carry ends in what lowering makes of it. -/
theorem carryStep_iff (hi : f.instruction? id = some i)
    (harms : ∀ arm ∈ arms, arm.value ∈ i.operands) :
    CarryStep f id join l arms d e ↔ d.lowerCarry f id join l arms = e := by
  have hall : ∀ {g h}, Each (fun arm => Wires f (Arm.value arm) join) arms g h ↔
      arms.foldl (fun d arm => d.wire f arm.value join) g = h :=
    each_iff fun arm harm _ _ => wires_iff hf (hf.operand hi (harms arm harm))
  rw [Draft.lowerCarry_eq, ← hall, Draft.wireDecider]
  cases hdecider : f.loopDecider l with
  | some cond =>
      obtain ⟨x, j, hj, hmem⟩ := Function.loopDecider_eq_some hdecider
      have hwires : ∀ {g h}, Wires f cond join g h ↔ g.wire f cond join = h :=
        wires_iff hf (hf.operand hj hmem)
      constructor
      · intro h
        cases h with
        | decided hdecider' hrun hrest =>
            cases hdecider.symm.trans hdecider'
            rwa [← hwires.mp hrun] at hrest
        | undecided hnone => cases hdecider.symm.trans hnone
      · exact .decided hdecider (hwires.mpr rfl)
  | none =>
      constructor
      · intro h
        cases h with
        | decided hdecider' => cases hdecider.symm.trans hdecider'
        | undecided _ hrest => exact hrest
      · exact .undecided hdecider

/-- A phi ends in what lowering makes of it. -/
theorem joinStep_iff (hid : id ∈ f.live) :
    JoinStep f forest options id d e ↔ d.lowerJoin f forest options id = e := by
  unfold Draft.lowerJoin
  split
  · rename_i name ty arms block join hslot hop
    have hjoin : f.IsJoin id block arms := ⟨_, ty, hslot, rfl, rfl⟩
    have hi : f.instruction? id = some (.phi ty arms) := by simp [Function.instruction?, hslot]
    have hvalue : ∀ arm ∈ arms, arm.value ∈ (Instruction.phi ty arms).operands :=
      fun arm harm => List.mem_map_of_mem harm
    have hsource : ∀ arm ∈ arms, arm.source ∈ (Instruction.phi ty arms).blockRefs :=
      fun arm harm => List.mem_map_of_mem harm
    cases hcarry : forest.carrying? block arms with
    | some l =>
        have hstep : ∀ {g}, CarryStep f id join l arms d g ↔ d.lowerCarry f id join l arms = g :=
          carryStep_iff hf hi hvalue
        constructor
        · intro h
          cases h with
          | carry hjoin' hop' hcarry' hrun =>
              obtain ⟨rfl, rfl⟩ := hjoin.unique hjoin'
              cases hop.symm.trans hop'
              cases hcarry.symm.trans hcarry'
              simp only [hstep.mp hrun]
          | merge hjoin' _ hnone =>
              obtain ⟨rfl, rfl⟩ := hjoin.unique hjoin'
              cases hcarry.symm.trans hnone
          | other _ hnot => exact absurd hop (hnot _ _ _ hjoin)
        · rintro rfl
          exact .carry hjoin hop hcarry (hstep.mpr rfl)
    | none =>
        have hstep := fun {g} => each_iff (d := d) (e := g) (l := arms)
          (R := ArmStep f options block join) fun arm harm _ _ =>
            armStep_iff hf hi (hvalue arm harm) (hsource arm harm)
        constructor
        · intro h
          cases h with
          | carry hjoin' _ hcarry' =>
              obtain ⟨rfl, rfl⟩ := hjoin.unique hjoin'
              cases hcarry.symm.trans hcarry'
          | merge hjoin' hop' _ hrun =>
              obtain ⟨rfl, rfl⟩ := hjoin.unique hjoin'
              cases hop.symm.trans hop'
              simp only [hstep.mp hrun]
          | other _ hnot => exact absurd hop (hnot _ _ _ hjoin)
        · rintro rfl
          exact .merge hjoin hop hcarry (hstep.mpr rfl)
  · rename_i hnot
    have hother : ∀ block arms join, f.IsJoin id block arms → d.operator? id ≠ some join := by
      rintro block arms join ⟨⟨name, i, b⟩, ty, hslot, rfl, rfl⟩ hop
      exact hnot name ty arms b join hslot hop
    constructor
    · intro h
      cases h with
      | carry hjoin hop => exact absurd hop (hother _ _ _ hjoin)
      | merge hjoin hop => exact absurd hop (hother _ _ _ hjoin)
      | other => rfl
    · rintro rfl
      obtain ⟨i, hi⟩ := Function.exists_instruction? (hf.listed id hid)
      exact .other hi hother

/-! ## Stages -/

/-- The leaves of a function refer to what is there. -/
theorem refers_of_mem_leaves {v : Operand} (hv : v ∈ f.leaves) : f.Refers v := by
  rcases List.mem_append.mp hv with hparam | hread
  · obtain ⟨k, hk, rfl⟩ := List.mem_map.mp hparam
    exact List.mem_range.mp hk
  · obtain ⟨step, hstep, hmem⟩ := List.mem_flatMap.mp (List.mem_filter.mp hread).1
    exact hf.operand (Function.mem_steps.mp hstep).2 hmem

/-- Every stage completes, and in the draft that it is defined to give. -/
theorem completes_iff {stage : Stage} :
    Completes f forest options stage d e ↔ d.run f forest options stage = e := by
  cases stage with
  | nodes =>
      have hall := each_live_iff (d := d) (e := e) hf (k := Draft.addRole f)
        (R := fun id d e => ∃ i, f.instruction? id = some i ∧ d.addRole f (id, i) = e)
        fun id i hi d e => by simp [hi]
      rw [Draft.run, ← hall]
      exact ⟨fun h => by cases h; assumption, .nodes⟩
  | steers =>
      have hbranches := fun {g} => each_live_iff (d := d) (e := g) hf (R := BranchStep f options)
        fun id i hi d e => branchStep_iff hf hi
      have hselects := fun {g} => each_live_iff (d := g) (e := e) hf (R := SelectStep f)
        fun id i hi d e => selectStep_iff hf hi
      rw [Draft.run, Draft.lowerBranches, ← hselects]
      constructor
      · intro h
        cases h with
        | steers hfirst hsecond => rwa [hbranches.mp hfirst]
      · exact .steers (hbranches.mpr rfl)
  | leaves =>
      constructor
      · intro h
        cases h
        rfl
      · rintro rfl
        exact .leaves fun v hv => refers_of_mem_leaves hf hv
  | results =>
      have hall := each_iff (d := d) (e := e) (l := d.sinks f) (k := Draft.wireResults f)
        (R := fun sink => Each (fun v => Wires f v sink.2) (sink.1.filter (·.result?.isSome)))
        fun sink hsink _ _ => by
          obtain ⟨x, i, hstep, _, _, heq⟩ := Draft.mem_sinks.mp hsink
          refine each_iff fun v hv _ _ => wires_iff hf ?_
          exact hf.operand (Function.mem_steps.mp hstep).2 (heq ▸ (List.mem_filter.mp hv).1)
      rw [Draft.run, ← hall]
      exact ⟨fun h => by cases h; assumption, .results⟩
  | joins =>
      have hall := each_iff (d := d) (e := e) (R := JoinStep f forest options)
        fun id hid d e => joinStep_iff hf hid
      rw [Draft.run, ← hall]
      exact ⟨fun h => by cases h; assumption, .joins⟩
  | memory =>
      constructor
      · intro h
        cases h
        rfl
      · rintro rfl
        exact .memory
  | cleanup =>
      constructor
      · intro h
        cases h
        rfl
      · rintro rfl
        exact .cleanup

end Ends

/-! ## Pairs of steers -/

namespace Draft

/-- No instruction gets a second pair. -/
theorem Builds.nodup_steers {T : NodeId → Prop} {P : InstId → Prop}
    (h : Builds f options T P d e) (hd : (d.steers.map (·.1)).Nodup) :
    (e.steers.map (·.1)).Nodup := by
  induction h with
  | refl => exact hd
  | connect _ _ ih | nodeFor _ _ ih | report _ ih => exact ih
  | promote _ _ ih => rwa [promote_steers]
  | streamNode _ _ ih => rwa [streamNode_steers]
  | @newPair e x _ _ hnew ih =>
      rw [newPair_steers, List.map_cons, List.nodup_cons]
      refine ⟨fun hmem => ?_, ih⟩
      obtain ⟨⟨y, p⟩, hp, rfl⟩ := List.mem_map.mp hmem
      simpa using List.lookup_eq_none_iff.mp hnew (y, p) hp

/-- Every live branch and select has a pair of steers, and nothing has two. -/
structure Paired (f : Function) (d : Draft) : Prop where
  nodup : (d.steers.map (·.1)).Nodup
  pair : ∀ step ∈ f.steps, step.2.condition?.isSome = true →
    ∃ p, d.steers.lookup step.1 = some p

/-- A change that only opens steers for choices keeps what is paired. -/
theorem Paired.later {T : NodeId → Prop} {P : InstId → Prop} (h : d.Paired f)
    (hb : Builds f options T P d e) : e.Paired f :=
  ⟨hb.nodup_steers h.nodup, fun step hstep hcond =>
    (h.pair step hstep hcond).imp fun _ hp => hb.steers hp⟩

/-- The node of an instruction opens no steers. -/
theorem addRole_steers (d : Draft) (step : InstId × Instruction) :
    (d.addRole f step).steers = d.steers := by
  have hnode : (d.nodeFor f (.result step.1)).1.steers = d.steers := rfl
  unfold addRole
  split
  · rfl
  · split
    · rename_i heq
      rwa [heq] at hnode
    · rename_i heq
      rwa [heq] at hnode

/-- The first stage opens no steers. -/
theorem steers_enter_nodes (f : Function) (forest : LoopForest) (options : LowerOptions) :
    (Draft.enter f forest options {} .nodes).steers = [] :=
  List.foldlRecOn f.steps (addRole f) (motive := fun e => e.steers = []) rfl
    fun e he step _ => (addRole_steers e step).trans he

/-- Feeding the successors of a branch opens no steers. -/
theorem feedTargets_steers : (d.feedTargets f p onTrue onFalse).steers = d.steers := by
  unfold feedTargets
  cases d.firstOperator f onTrue <;> cases d.firstOperator f onFalse <;> rfl

section Full

variable (hd : d.graph.Full) (hi : f.instruction? id = some i)

include hd hi

/-- The step for a branch leaves it with a pair. -/
theorem lowerBranch_lookup (hbranch : i = .branch cond onTrue onFalse) :
    ∃ p, (d.lowerBranch f options (id, i)).steers.lookup id = some p := by
  subst hbranch
  obtain ⟨e, p, heq⟩ := exists_branchSteers d options hi
  obtain ⟨_, hpair⟩ : Builds f options (fun _ => True) (fun _ => True) d
      (d.branchSteers f options id).1 ∧ _ :=
    branchSteers_builds (fun _ _ => trivial) trivial hd
  rw [heq] at hpair
  have hlower : d.lowerBranch f options (id, .branch cond onTrue onFalse) =
      e.feedTargets f p onTrue onFalse := by
    simp only [lowerBranch, heq, feedTargets]
  exact ⟨p, by rw [hlower, feedTargets_steers, hpair p rfl]⟩

/-- The step for a select leaves it with a pair. -/
theorem lowerSelect_lookup (hsel : i.isSelect = true) :
    ∃ p, (d.lowerSelect f (id, i)).steers.lookup id = some p := by
  cases i with
  | select cond ty onTrue onFalse =>
      have hasks : ∀ {v}, v ∈ [cond, onTrue, onFalse] → f.Asks v := Function.asks_of_mem hi
      simp only [lowerSelect, selectSteers]
      split
      · rename_i p hp
        exact ⟨p, hp⟩
      · rename_i hnew
        simp only [hi]
        rw [foldl_feedUser_steers]
        have hwire : WireBuilds f {} (fun _ => True) (fun _ => True) (wire f) :=
          wire_builds fun _ _ => trivial
        exact ⟨_, (openSteers_builds hwire hd trivial hnew (hasks (by simp))
          (fun v hv => hasks (by simp_all)) (fun v hv => hasks (by simp_all))).2⟩
  | _ => cases hsel

end Full

/-- Lowering some branches in order makes pairs for these branches and for selects alone. -/
theorem foldl_lowerBranch_builds (options : LowerOptions) (hd : d.graph.Full)
    {l : List (InstId × Instruction)} (hl : ∀ step ∈ l, step ∈ f.steps) :
    Builds f options (fun _ => True) (fun x => x ∈ l.map (·.1) ∨ f.Chooses x) d
        (l.foldl (lowerBranch f options) d) ∧
      ∀ step ∈ l, (∃ cond a b, step.2 = .branch cond a b) →
        ∃ p, (l.foldl (lowerBranch f options) d).steers.lookup step.1 = some p :=
  (foldl_grows (P := fun e : Draft => e.graph.Full) (g := lowerBranch f options)
    (R := Builds f options (fun _ => True) fun x => x ∈ l.map (·.1) ∨ f.Chooses x)
    (fun _ => .refl) .trans
    (Q := fun (step : InstId × Instruction) e => (∃ cond a b, step.2 = .branch cond a b) →
      ∃ p, e.steers.lookup step.1 = some p)
    (fun e step hstep _ he => by
      have hb : Builds f options (fun _ => True) (fun x => x ∈ l.map (·.1) ∨ f.Chooses x) e _ :=
        lowerBranch_builds he (fun _ => Or.inr) (Or.inl (List.mem_map.mpr ⟨step, hstep, rfl⟩))
      exact ⟨(hb.keeps he).full, hb, fun ⟨_, _, _, h⟩ =>
        lowerBranch_lookup he (Function.mem_steps.mp (hl _ hstep)).2 h⟩)
    (fun step e g hq hb _ h => (hq h).imp fun p hp => hb.steers hp) hd).2

/-- After the second stage every live branch and select has its pair. -/
theorem steers_lookup (hd : d.graph.Full) {step : InstId × Instruction} (hstep : step ∈ f.steps)
    (hcond : step.2.condition?.isSome = true) :
    ∃ p, (d.enter f forest options .steers).steers.lookup step.1 = some p := by
  have hstart : (d.report (.stage f.name Stage.steers.name)).graph.Full := hd
  obtain ⟨hb, hbranch⟩ := foldl_lowerBranch_builds options hstart fun _ (h : _ ∈ f.steps) => h
  have hfull := (hb.keeps hstart).full
  have hselects := foldl_grows (P := fun e : Draft => e.graph.Full) (l := f.steps)
    (g := lowerSelect f) (R := Builds f options (fun _ => True) (fun _ => True)) (fun _ => .refl)
    .trans (Q := fun (step : InstId × Instruction) e => step.2.isSelect = true →
      ∃ p, e.steers.lookup step.1 = some p)
    (fun e step hstep _ he => by
      have hb : Builds f options (fun _ => True) (fun _ => True) e _ :=
        lowerSelect_builds he (fun _ _ => trivial) step
      exact ⟨(hb.keeps he).full, hb, fun h =>
        lowerSelect_lookup he (Function.mem_steps.mp hstep).2 h⟩)
    (fun step e g hq hb _ h => (hq h).imp fun p hp => hb.steers hp) hfull
  obtain ⟨_, hlater, hselect⟩ := hselects
  obtain ⟨id, i⟩ := step
  cases i with
  | branch cond a b =>
      obtain ⟨p, hp⟩ := hbranch _ hstep ⟨cond, a, b, rfl⟩
      exact ⟨p, hlater.steers hp⟩
  | select => exact hselect _ hstep rfl
  | _ => cases hcond

end Draft

/-- What changes keep, and what is told by the pairs of steers alone, holds in the end if it holds
after the second stage. -/
theorem Function.lowering_induct (f : Function) (forest : LoopForest) (options : LowerOptions)
    {I : Draft → Prop}
    (hbuilds : ∀ {d e}, Draft.Builds f options (fun _ => True) (fun _ => True) d e → I d → I e)
    (hsteers : ∀ {d e}, e.steers = d.steers → I d → I e)
    (h : I ((Draft.enter f forest options {} .nodes).enter f forest options .steers)) :
    I (f.lowering forest options) := by
  obtain ⟨⟨hd, _⟩, _⟩ := Draft.nodes_plays f forest options
  have hrun : f.lowering forest options = [Stage.memory, .cleanup].foldl
      (Draft.enter f forest options) ([Stage.leaves, .results, .joins].foldl
        (Draft.enter f forest options)
        ((Draft.enter f forest options {} .nodes).enter f forest options .steers)) := rfl
  rw [hrun]
  refine hsteers (Draft.steers_last f forest options _) ?_
  exact (Draft.foldl_enter_induct f forest options [.leaves, .results, .joins]
    (fun _ => hbuilds) (fun _ _ _ => hsteers rfl) (by simp)
    ((Draft.steers_builds (T := fun _ => True) hd).keeps hd).full h).2

/-- In the end every live branch and select has a pair of steers, and nothing has two. -/
theorem Function.paired_lowering (f : Function) (forest : LoopForest) (options : LowerOptions) :
    (f.lowering forest options).Paired f := by
  obtain ⟨⟨hd, _⟩, _⟩ := Draft.nodes_plays f forest options
  have hnone := Draft.steers_enter_nodes f forest options
  refine f.lowering_induct forest options (fun hb h => h.later hb)
    (fun heq h => ⟨by rw [heq]; exact h.nodup, by rw [heq]; exact h.pair⟩) ?_
  exact ⟨(Draft.steers_builds (T := fun _ => True) hd).nodup_steers (by simp [hnone]),
    fun _ => Draft.steers_lookup hd⟩

/-- Lowering ends on every function whose references lead somewhere, whatever circles its operands
make: wiring a value ends in every draft, each stage completes in the draft that it is defined to
give, and so do all stages in order. Each live branch and select gets its pair of steers once, and
no instruction gets two. -/
theorem Function.lowering_ends (hf : f.InRange) (forest : LoopForest) (options : LowerOptions) :
    (∀ v target d e, f.Refers v → (Wires f v target d e ↔ d.wire f v target = e)) ∧
    (∀ stage d e, Completes f forest options stage d e ↔ d.run f forest options stage = e) ∧
    (∀ e, Each (fun stage d e => Completes f forest options stage
        (d.report (.stage f.name stage.name)) e) Stage.all {} e ↔
      f.lowering forest options = e) ∧
    ((f.lowering forest options).steers.map (·.1)).Nodup ∧
    ∀ id i, id ∈ f.live → f.instruction? id = some i → i.condition?.isSome = true →
      ((f.lowering forest options).steers.map (·.1)).count id = 1 := by
  obtain ⟨hnodup, hpairs⟩ := f.paired_lowering forest options
  refine ⟨fun v target d e hv => wires_iff hf hv, fun stage d e => completes_iff hf,
    fun e => each_iff fun stage _ d e => completes_iff hf, hnodup, fun id i hid hi hcond => ?_⟩
  obtain ⟨p, hp⟩ := hpairs (id, i) (mem_steps.mpr ⟨hid, hi⟩) hcond
  exact List.count_eq_one_of_mem hnodup (List.mem_map.mpr ⟨_, mem_of_lookup_eq_some hp, rfl⟩)

/-- A function that nothing could run: two selects choose between each other, by values that come
from them through conversions, addresses and calls in a circle. -/
def knot : Function where
  name := "f"
  ret := .void
  params := [⟨"p", .ptr⟩]
  blocks := [⟨"entry", [0, 1, 2, 3, 4, 5]⟩]
  slots := [
    ⟨some "s", .select (.result 4) (.int 1) (.result 1) (.result 2), 0⟩,
    ⟨some "t", .select (.result 0) (.int 1) (.result 4) (.result 1), 0⟩,
    ⟨some "x", .cast .trunc ⟨.int 64, .result 3⟩ (.int 1), 0⟩,
    ⟨some "a", .elementPtr (.int 8) ⟨.ptr, .param 0⟩ [⟨.int 1, .result 4⟩], 0⟩,
    ⟨some "y", .call (.int 1) (.function "g") [⟨.int 1, .result 2⟩, ⟨.int 1, .result 0⟩], 0⟩,
    ⟨none, .branch (.result 1) 0 0, 0⟩]

/-- Lowering `knot` ends, and makes one pair of steers for each select and for the branch. -/
theorem lowering_ends_knot : knot.InRange ∧
    (∀ d target, Wires knot (.result 0) target d (d.wire knot (.result 0) target)) ∧
    (((knot.lowering {} {}).steers.map (·.1)).count 0 = 1 ∧
      ((knot.lowering {} {}).steers.map (·.1)).count 1 = 1 ∧
      ((knot.lowering {} {}).steers.map (·.1)).count 5 = 1) := by
  have hknot : knot.InRange := ⟨by decide, by decide, by decide⟩
  obtain ⟨hwires, _, _, _, honce⟩ := Function.lowering_ends hknot {} {}
  exact ⟨hknot, fun d target => (hwires _ _ _ _ (by decide)).mpr rfl,
    honce 0 _ (by decide) rfl rfl, honce 1 _ (by decide) rfl rfl, honce 5 _ (by decide) rfl rfl⟩

end Dataflow
