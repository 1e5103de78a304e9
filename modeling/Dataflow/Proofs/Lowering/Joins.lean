import Dataflow.Proofs.Lowering.Stages

/-!
# Joins and memory

The stage that wires phis keeps the invariant and feeds every phi: a carry takes its arms and what
decides on another round, a merge each arm directly or through the steer that controls its way
(`Draft.JoinWired`). The stage that wires memory only adds edges between operators. `Draft.Wired` is
what holds before nodes go.
-/

namespace Dataflow

variable {f : Function} {forest : LoopForest} {options : LowerOptions} {d e : Draft}
  {id : InstId} {i : Instruction} {v : Operand} {target a b join : NodeId} {arms : List Arm}
  {arm : Arm} {block : BlockId}

/-! ## Branches that decide -/

namespace Function

/-- Only branches control ways. -/
theorem controlling?_eq_some {ways : Ways} {trace : Bool} {bound : Nat} {seen : List BlockId}
    {source : BlockId} {target : BlockId} {branch : InstId} {taken : Bool}
    (h : f.controlling? ways trace bound seen source target = some (branch, taken)) :
    ∃ cond onTrue onFalse, f.instruction? branch = some (.branch cond onTrue onFalse) := by
  induction bound generalizing seen source target with
  | zero => cases h
  | succ bound ih =>
      simp only [controlling?, Option.bind_eq_bind, Option.bind_eq_some_iff] at h
      obtain ⟨x, _, i, hi, h⟩ := h
      split at h
      · cases h
        exact ⟨_, _, _, hi⟩
      · split at h
        · split at h
          · split at h
            · cases h
            · exact ih h
          · cases h
        · cases h
      · cases h

/-- The value of an arm of a join exists. -/
theorem IsJoin.binds (hjoin : f.IsJoin id block arms) (hf : f.Whole) (harm : arm ∈ arms) :
    f.Binds arm.value := by
  obtain ⟨ty, hi⟩ := hjoin.instruction
  exact hf.resolved.binds hi (by simpa [Instruction.operands] using ⟨arm, harm, rfl⟩)

end Function

namespace Draft

/-! ## Arms -/

/-- The value of an arm feeds a join: directly, or through the steer that controls its way. -/
inductive ArmWired (f : Function) (forest : LoopForest) (options : LowerOptions) (block : BlockId)
    (arms : List Arm) (join : NodeId) (arm : Arm) (d : Draft) : Prop where
  | direct : (∃ l, forest.carrying? block arms = some l) ∨
      f.controlling options.traceBranches arm.source block = none →
      d.Fed f (fun x => ¬ f.HasOperator x) join arm.value →
      ArmWired f forest options block arms join arm d
  | steered {branch taken p} : forest.carrying? block arms = none →
      f.controlling options.traceBranches arm.source block = some (branch, taken) →
      d.steers.lookup branch = some p →
      d.Fed f (fun x => ¬ f.HasOperator x) (SteerPair.side p taken) arm.value →
      d.graph.hasEdge (p.side taken) join → ArmWired f forest options block arms join arm d

/-- An arm that is wired stays wired. -/
theorem ArmWired.mono (h : ArmWired f forest options block arms join arm d) (hle : d ≤ e) :
    ArmWired f forest options block arms join arm e := by
  cases h with
  | direct hway hfed => exact .direct hway (hfed.mono hle fun _ hx => hx)
  | steered hmerge hway hp hfed hedge =>
      exact .steered hmerge hway (hle.steers hp) (hfed.mono hle fun _ hx => hx) (hle.edge hedge)

/-- Everything that a join takes feeds it. -/
structure JoinWired (f : Function) (forest : LoopForest) (options : LowerOptions) (block : BlockId)
    (arms : List Arm) (join : NodeId) (d : Draft) : Prop where
  arm : ∀ {arm}, arm ∈ arms → ArmWired f forest options block arms join arm d
  decider : ∀ {l cond}, forest.carrying? block arms = some l → f.loopDecider l = some cond →
    d.Fed f (fun x => ¬ f.HasOperator x) join cond

/-- A join that is wired stays wired. -/
theorem JoinWired.mono (h : JoinWired f forest options block arms join d) (hle : d ≤ e) :
    JoinWired f forest options block arms join e :=
  ⟨fun harm => (h.arm harm).mono hle,
    fun hl hcond => (h.decider hl hcond).mono hle fun _ hx => hx⟩

/-- Turning the node of a phi into a carry. -/
theorem Steered.toCarry (h : Steered f forest options d) (hop : d.operator? id = some join) :
    Steered f forest options (d.toCarry join) ∧ d ≤ d.toCarry join := by
  obtain ⟨hs, hle⟩ := h.lawful.sound.modifyNode (operator?_eq_some.mp hop).1
    (fun n : Node => { n with kind := .carry, label := "C", symbol := "" })
    (fun _ => rfl) (fun _ _ => by simp) (fun hleaf => by simp [Operand.isLeaf] at hleaf)
    (fun x _ hx _ _ => by
      cases hx
      exact h.lawful.sound.operator hop)
  have hl := h.lawful.of_le hs hle rfl fun _ _ hab => hab
  exact ⟨h.of_settles (h.toSteady.of_settles hl (.of_le hle rfl)) hle, hle⟩

section Join

variable (hf : f.Whole) (h : Steered f forest options d) (hop : d.operator? id = some join)
  (hjoin : f.IsJoin id block arms)

include hf h hop hjoin

/-- Wiring what decides on a carry keeps the steers, and everything that produces the condition
feeds it. -/
theorem Steered.wireDecider {l : NaturalLoop} (hcarry : forest.carrying? block arms = some l) :
    Steered f forest options (d.wireDecider f id join l) ∧ d ≤ d.wireDecider f id join l ∧
      ∀ cond, f.loopDecider l = some cond →
        (d.wireDecider f id join l).Fed f (fun x => ¬ f.HasOperator x) join cond := by
  unfold Draft.wireDecider
  cases hcond : f.loopDecider l with
  | none =>
      obtain ⟨hs, hle⟩ := h.report (.noLoopCondition f.name (f.operandText (.result id)))
      exact ⟨hs, hle, by simp⟩
  | some cond =>
      obtain ⟨x, j, hj, hmem⟩ := Function.loopDecider_eq_some hcond
      obtain ⟨hs, hset, hfed⟩ := h.toSteady.wire hf
        (h.admits (h.lawful.operator_node hop) fun e a he ha =>
          .decider hjoin (he.operator hop) hcarry hcond ha) (hf.resolved.binds hj hmem)
      refine ⟨h.of_settles hs hset.le, hset.le, fun c hc => ?_⟩
      cases hc
      exact hfed

/-- A carry is fed by what decides on another round and by all its arms. -/
theorem Steered.lowerCarry {l : NaturalLoop} (hcarry : forest.carrying? block arms = some l) :
    Steered f forest options (d.lowerCarry f id join l arms) ∧ d ≤ d.lowerCarry f id join l arms ∧
      JoinWired f forest options block arms join (d.lowerCarry f id join l arms) := by
  obtain ⟨h₀, hle₀⟩ := h.toCarry hop
  rw [lowerCarry_eq]
  obtain ⟨h₁, hle₁, hdecider⟩ := h₀.wireDecider hf (hle₀.operator hop) hjoin hcarry
  have hop₁ := hle₁.operator (hle₀.operator hop)
  obtain ⟨h₂, hle₂, hall⟩ := foldl_grows (R := (· ≤ ·)) Le.refl Le.trans
    (P := Steered f forest options) (g := fun (e : Draft) (arm : Arm) => e.wire f arm.value join)
    (l := arms) (Q := fun arm e => e.Fed f (fun x => ¬ f.HasOperator x) join arm.value)
    (fun e arm harm hle hs => by
      have hop' := hle.operator hop₁
      obtain ⟨hs', hset, hfed⟩ := hs.toSteady.wire hf
        (hs.admits (hs.lawful.operator_node hop') fun g a hg ha =>
          .carried hjoin (hg.operator hop') hcarry harm ha) (hjoin.binds hf harm)
      exact ⟨hs.of_settles hs' hset.le, hset.le, hfed⟩)
    (fun arm e g hq hle _ => by
      have hfed : e.Fed f (fun x => ¬ f.HasOperator x) join arm.value := hq
      exact hfed.mono hle fun _ hx => hx) h₁
  refine ⟨h₂, hle₀.trans (hle₁.trans hle₂),
    fun {arm} harm => .direct (Or.inl ⟨l, hcarry⟩) (hall arm harm), fun {l' cond} hl hcond => ?_⟩
  rw [hcarry] at hl
  cases hl
  exact (hdecider cond hcond).mono hle₂ fun _ hx => hx

/-- An arm of a merge feeds it, through a steer if a branch controls its way. -/
theorem Steered.lowerArm (hmerge : forest.carrying? block arms = none) (harm : arm ∈ arms) :
    Steered f forest options (d.lowerArm f options block join arm) ∧
      d ≤ d.lowerArm f options block join arm ∧
      ArmWired f forest options block arms join arm (d.lowerArm f options block join arm) := by
  have hnode := h.lawful.operator_node hop
  unfold Draft.lowerArm
  cases hcontrol : f.controlling options.traceBranches arm.source block with
  | none =>
      obtain ⟨hs, hset, hfed⟩ := h.toSteady.wire hf
        (h.admits hnode fun e a he ha =>
          .merged hjoin (he.operator hop) hmerge harm hcontrol ha) (hjoin.binds hf harm)
      exact ⟨h.of_settles hs hset.le, hset.le, .direct (Or.inr hcontrol) hfed⟩
  | some way =>
      obtain ⟨branch, taken⟩ := way
      obtain ⟨cond, onTrue, onFalse, hbranch⟩ := Function.controlling?_eq_some hcontrol
      -- the value goes to the steer on its side, and that steer to the join
      obtain ⟨e, p, heq, hs, hset, hp, _⟩ := h.toSteady.branchSteers hf hbranch
      have he := h.of_settles hs hset.le
      simp only [heq]
      obtain ⟨hs₁, hset₁, hfed⟩ := hs.wire hf
        (he.admits (hs.lawful.side_node hp taken) fun g a hg ha =>
          .controlled hjoin hmerge harm hcontrol (hg.steers hp) ha) (hjoin.binds hf harm)
      obtain ⟨hs₂, hset₂, hedge⟩ := hs₁.link
        (hs₁.lawful.side_node (hset₁.le.steers hp) taken)
        ((hset.le.trans hset₁.le).node_exists hnode)
        (.steered hjoin ((hset.le.trans hset₁.le).operator hop) hmerge harm hcontrol
          (hset₁.le.steers hp))
      have hle := hset₁.le.trans hset₂.le
      exact ⟨he.of_settles hs₂ hle, hset.le.trans hle,
        .steered hmerge hcontrol (hle.steers hp) (hfed.mono hset₂.le fun _ hx => hx) hedge⟩

omit hf hjoin in
/-- A phi feeds the operators that read it. -/
theorem Steered.feedJoinUser {user : InstId} (huser : user ∈ f.users (.result id)) :
    Steered f forest options (d.feedJoinUser f join user) ∧ d ≤ d.feedJoinUser f join user := by
  obtain ⟨i, hi, hmem⟩ := Function.mem_users huser
  unfold Draft.feedJoinUser
  rw [hi]
  cases hphi : i.isPhi with
  | true =>
      simp only [Option.any_some, hphi, if_true]
      exact ⟨h, Le.refl d⟩
  | false =>
      simp only [Option.any_some, hphi, Bool.false_eq_true, if_false]
      obtain ⟨hs, hset, _⟩ := h.toSteady.elim_link (b := d.operator? user)
        (h.lawful.operator_node hop) (fun n hn => ⟨user, hn⟩)
        fun n hn => .operand hi hphi hmem hn (.node hop)
      exact ⟨h.of_settles hs hset.le, hset.le⟩

omit hf hjoin in
/-- Feeding all users of a phi keeps the steers. -/
theorem Steered.feedJoinUsers :
    Steered f forest options ((f.users (.result id)).foldl (Draft.feedJoinUser f join) d) ∧
      d ≤ (f.users (.result id)).foldl (Draft.feedJoinUser f join) d := by
  exact foldl_keeps (R := (· ≤ ·)) Le.refl Le.trans (P := Steered f forest options)
    (fun g user huser hg hs => hs.feedJoinUser (hg.operator hop) huser) h

end Join

/-- A phi that has an operator is fed by all that it takes. -/
theorem Steered.lowerJoin (hf : f.Whole) (h : Steered f forest options d) (id : InstId) :
    Steered f forest options (d.lowerJoin f forest options id) ∧
      d ≤ d.lowerJoin f forest options id ∧
      ∀ block arms, f.IsJoin id block arms → ∀ join, d.operator? id = some join →
        JoinWired f forest options block arms join (d.lowerJoin f forest options id) := by
  unfold Draft.lowerJoin
  split
  · rename_i name ty arms block join hslot hop
    have hjoin : f.IsJoin id block arms := ⟨_, ty, hslot, rfl, rfl⟩
    -- a carry and a merge both end by feeding the users of the phi
    have hfinish : ∀ e, Steered f forest options e → d ≤ e →
        JoinWired f forest options block arms join e →
        let g := (f.users (.result id)).foldl (Draft.feedJoinUser f join) e
        Steered f forest options g ∧ d ≤ g ∧ ∀ block arms, f.IsJoin id block arms →
          ∀ join, d.operator? id = some join → JoinWired f forest options block arms join g := by
      intro e he hle hwired
      obtain ⟨hs, hle'⟩ := he.feedJoinUsers (hle.operator hop)
      refine ⟨hs, hle.trans hle', fun block' arms' hjoin' join' hop' => ?_⟩
      obtain ⟨rfl, rfl⟩ := hjoin.unique hjoin'
      rw [hop, Option.some.injEq] at hop'
      subst hop'
      exact hwired.mono hle'
    cases hcarry : forest.carrying? block arms with
    | some l =>
        obtain ⟨hs, hle, hwired⟩ := h.lowerCarry hf hop hjoin hcarry
        exact hfinish _ hs hle hwired
    | none =>
        obtain ⟨hs, hle, hwired⟩ := foldl_grows (R := (· ≤ ·)) Le.refl Le.trans
          (P := Steered f forest options) (g := Draft.lowerArm f options block join) (l := arms)
          (Q := fun arm e => ArmWired f forest options block arms join arm e)
          (fun e arm harm hle hs => hs.lowerArm hf (hle.operator hop) hjoin hcarry harm)
          (fun arm e g hq hle _ => hq.mono hle) h
        refine hfinish _ hs hle ⟨fun {arm} harm => hwired arm harm, fun {l cond} hl => ?_⟩
        rw [hcarry] at hl
        cases hl
  · rename_i hnone
    refine ⟨h, Le.refl d, fun block arms ⟨s, ty, hs, hi, hb⟩ join hop => ?_⟩
    obtain ⟨name, instruction, block'⟩ := s
    cases hi
    exact absurd hop (hnone name ty arms block' join hs)

/-- The invariant once every operator is fed. -/
structure Wired (f : Function) (forest : LoopForest) (options : LowerOptions) (d : Draft) : Prop
    extends Supplied f forest options d where
  joined : ∀ {id block arms join}, f.IsJoin id block arms → d.operator? id = some join →
    JoinWired f forest options block arms join d

/-- Each arm feeds a node that is the join or feeds it. -/
theorem Wired.arm_fed (h : Wired f forest options d) (hjoin : f.IsJoin id block arms)
    (hop : d.operator? id = some join) (arm : Arm) (harm : arm ∈ arms) :
    ∃ target, d.Fed f (fun x => ¬ f.HasOperator x) target arm.value ∧
      (target = join ∨ d.graph.hasEdge target join) := by
  cases (h.joined hjoin hop).arm harm with
  | direct _ hfed => exact ⟨join, hfed, Or.inl rfl⟩
  | steered _ _ _ hfed hedge => exact ⟨_, hfed, Or.inr hedge⟩

/-- What is wired stays wired. -/
theorem Wired.of_le (h : Wired f forest options d) (he : Steered f forest options e)
    (hle : d ≤ e) : Wired f forest options e where
  toSupplied := h.toSupplied.of_le he hle
  joined hjoin hop := (h.joined hjoin (h.operator_back he.lawful hle hop)).mono hle

/-- After the fifth stage every phi is fed. -/
theorem joins_wired (hf : f.Whole) (h : Supplied f forest options d) :
    Wired f forest options (d.enter f forest options .joins) := by
  obtain ⟨h₀, hle₀⟩ := h.toSteered.report (.stage f.name Stage.joins.name)
  obtain ⟨h₁, hle₁, hall⟩ := foldl_grows (R := (· ≤ ·)) Le.refl Le.trans
    (P := Steered f forest options) (g := Draft.lowerJoin f forest options) (l := f.live)
    (Q := fun id e => ∀ block arms, f.IsJoin id block arms → ∀ join, d.operator? id = some join →
      JoinWired f forest options block arms join e)
    (fun e id _ hle hs => by
      obtain ⟨hs', hle', hwired⟩ := hs.lowerJoin hf id
      exact ⟨hs', hle', fun block arms hjoin join hop =>
        hwired block arms hjoin join ((hle₀.trans hle).operator hop)⟩)
    (fun id e g hq hle _ block arms hjoin join hop => (hq block arms hjoin join hop).mono hle) h₀
  have hle := hle₀.trans hle₁
  refine ⟨h.of_le h₁ hle, fun {id block arms join} hjoin hop => ?_⟩
  obtain ⟨ty, hi⟩ := hjoin.instruction
  exact hall id (hf.mem_live hi) block arms hjoin join (h.operator_back h₁.lawful hle hop)

/-! ## Memory -/

/-- The state of the stage that wires memory: the last store is an operator. -/
def MemoryState (f : Function) (forest : LoopForest) (options : LowerOptions)
    (state : Draft × Option NodeId) : Prop :=
  Steered f forest options state.1 ∧ ∀ n ∈ state.2, ∃ x, state.1.operator? x = some n

/-- A step of the memory stage keeps the last store, and each load behind it is fed from it. -/
theorem wireMemory_state (hoption : options.memoryDependencies = true)
    {state : Draft × Option NodeId} (h : MemoryState f forest options state) (id : InstId) :
    MemoryState f forest options (Draft.wireMemory state id) ∧
      state.1 ≤ (Draft.wireMemory state id).1 := by
  obtain ⟨d, last⟩ := state
  obtain ⟨hs, hlast⟩ := h
  simp only [Draft.wireMemory]
  cases hop : d.operator? id with
  | none => exact ⟨⟨hs, hlast⟩, Le.refl d⟩
  | some i =>
      simp only
      split
      · exact ⟨⟨hs, fun n hn => ⟨id, by rwa [← Option.some.inj hn]⟩⟩, Le.refl d⟩
      · cases last with
        | none => exact ⟨⟨hs, hlast⟩, Le.refl d⟩
        | some store =>
            obtain ⟨x, hx⟩ := hlast store rfl
            obtain ⟨hs', hset, _⟩ := hs.toSteady.link (hs.lawful.operator_node hx)
              (hs.lawful.operator_node hop) (.memory hoption hx hop)
            refine ⟨⟨hs.of_settles hs' hset.le, fun n hn => ⟨x, ?_⟩⟩, hset.le⟩
            rw [← Option.some.inj hn]
            exact hset.le.operator hx
      · exact ⟨⟨hs, hlast⟩, Le.refl d⟩

/-- After the sixth stage nothing that was wired is lost. -/
theorem memory_wired (h : Wired f forest options d) :
    Wired f forest options (d.enter f forest options .memory) := by
  obtain ⟨h₀, hle₀⟩ := h.toSteered.report (.stage f.name Stage.memory.name)
  simp only [Draft.enter, Draft.run]
  split
  · rename_i hoption
    obtain ⟨h₁, hle₁⟩ := foldl_keeps (R := fun s t : Draft × Option NodeId => s.1 ≤ t.1)
      (fun s => Le.refl s.1) Le.trans (P := MemoryState f forest options)
      (g := Draft.wireMemory) (l := f.live)
      (s := (d.report (.stage f.name Stage.memory.name), none))
      (fun state id _ _ hs => wireMemory_state hoption hs id) ⟨h₀, by simp⟩
    exact h.of_le h₁.1 (hle₀.trans hle₁)
  · exact h.of_le h₀ hle₀

/-- Before phis are wired, every other operator is fed. -/
theorem supplied_of_whole (hf : f.Whole) (forest : LoopForest) (options : LowerOptions) :
    Supplied f forest options ([Stage.nodes, .steers, .leaves, .results].foldl
      (Draft.enter f forest options) {}) := by
  obtain ⟨hnodes, hnone⟩ : Lawful f forest options (Draft.enter f forest options {} .nodes) ∧ _ :=
    nodes_lawful hf
  obtain ⟨hleaves, hfed⟩ := leaves_fed (steers_steered hf hnodes hnone)
  exact results_supplied hf hleaves hfed

/-- Before memory is wired, every operator is fed and every edge has a reason. -/
theorem joined_of_whole (hf : f.Whole) (forest : LoopForest) (options : LowerOptions) :
    Wired f forest options ([Stage.nodes, .steers, .leaves, .results, .joins].foldl
      (Draft.enter f forest options) {}) :=
  joins_wired hf (supplied_of_whole hf forest options)

/-- Before nodes go it is the same. -/
theorem wired_of_whole (hf : f.Whole) (forest : LoopForest) (options : LowerOptions) :
    Wired f forest options ([Stage.nodes, .steers, .leaves, .results, .joins, .memory].foldl
      (Draft.enter f forest options) {}) :=
  memory_wired (joined_of_whole hf forest options)

end Draft

end Dataflow
