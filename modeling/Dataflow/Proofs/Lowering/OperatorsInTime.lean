import Dataflow.Proofs.Lowering.Inventory
import Dataflow.Proofs.Lowering.StagesEnd
import Dataflow.Proofs.Lowering.SteerInputs

/-!
# Operators that come late

A call or an allocation becomes an operator when the steers of a branch or a select that it decides
are made. What was wired before has passed it over. So a steer need not take an operator that is
there in the end (`not_feedsReaders_lateCondition`), and a branch need not feed the first operator
of a block on its side (`not_feedsTargets_lateTarget`): both depend on the order in which steers are
made. What holds of every steer is that it misses no operator that is in time
(`operators_in_time`, `targets_in_time`). Branches get their steers in the order of the text
(`Function.branches_in_order`).
-/

namespace Dataflow

/-! ## The order of branches -/

/-- A branch gets its steers after every branch that stands before it. -/
def Function.BranchesInOrder (f : Function) (steers : List (InstId × SteerPair)) : Prop :=
  ∀ front id cond onTrue onFalse rest,
    f.steps = front ++ (id, .branch cond onTrue onFalse) :: rest →
    ∀ u cond' onTrue' onFalse', (u, .branch cond' onTrue' onFalse') ∈ front →
      u ∈ pairedBefore steers id

section Order

variable {f : Function}

/-- The draft in which the first branch is lowered. -/
def Function.atBranches (f : Function) (forest : LoopForest) (options : LowerOptions) : Draft :=
  (Draft.enter f forest options {} .nodes).report (.stage f.name Stage.steers.name)

theorem Function.full_atBranches (forest : LoopForest) (options : LowerOptions) :
    (f.atBranches forest options).graph.Full :=
  (Draft.nodes_plays f forest options).1.1

/-- The pairs that are there after some branches were lowered stay at the end of the record. -/
theorem Function.record_lowering (forest : LoopForest) (options : LowerOptions)
    {front rest : List (InstId × Instruction)} (hsteps : f.steps = front ++ rest) :
    (front.foldl (Draft.lowerBranch f options) (f.atBranches forest options)).steers <:+
      (f.lowering forest options).steers := by
  have hrun : (Draft.enter f forest options {} .nodes).enter f forest options .steers =
      f.steps.foldl (Draft.lowerSelect f) (f.steps.foldl (Draft.lowerBranch f options)
        (f.atBranches forest options)) := rfl
  have hbranches : f.steps.foldl (Draft.lowerBranch f options) (f.atBranches forest options) =
      rest.foldl (Draft.lowerBranch f options) (front.foldl (Draft.lowerBranch f options)
        (f.atBranches forest options)) := by
    rw [hsteps, List.foldl_append]
  refine f.lowering_induct forest options (I := fun e => _ <:+ e.steers)
    (fun hb h => h.trans hb.record) (fun heq h => by rwa [heq]) ?_
  rw [hrun, hbranches]
  -- the rest of the branches and all selects are still to come
  obtain ⟨hfront, _⟩ := Draft.foldl_lowerBranch_builds options (f.full_atBranches forest options)
    (l := front) fun step hstep => hsteps ▸ List.mem_append_left _ hstep
  have hfull := (hfront.keeps (f.full_atBranches forest options)).full
  obtain ⟨hrest, _⟩ := Draft.foldl_lowerBranch_builds options hfull
    (l := rest) fun step hstep => hsteps ▸ List.mem_append_right _ hstep
  have hfull' := (hrest.keeps hfull).full
  have hselects : Draft.Builds f options (fun _ => True) (fun _ => True) _ _ :=
    Draft.foldl_builds (l := f.steps) (k := Draft.lowerSelect f) fun e step _ he =>
      Draft.lowerSelect_builds (he.keeps hfull').full (fun _ _ => trivial) step
  exact hrest.record.trans hselects.record

/-- Branches get their steers in the order of the text. -/
theorem Function.branches_in_order (hlive : f.live.Nodup) (forest : LoopForest)
    (options : LowerOptions) : f.BranchesInOrder (f.lowering forest options).steers := by
  intro front id cond onTrue onFalse rest hsteps u cond' onTrue' onFalse' hu
  obtain ⟨hb, hbranch⟩ := Draft.foldl_lowerBranch_builds options (f.full_atBranches forest options)
    (l := front) fun step hstep => hsteps ▸ List.mem_append_left _ hstep
  obtain ⟨later, hlater⟩ := f.record_lowering forest options hsteps
  obtain ⟨p, hp⟩ := hbranch _ hu ⟨_, _, _, rfl⟩
  have hi : f.instruction? id = some (.branch cond onTrue onFalse) :=
    (mem_steps.mp (hsteps ▸ List.mem_append_right _ List.mem_cons_self)).2
  have hfirst : ∀ step ∈ front, step.1 ≠ id := by
    have hdistinct := pairwise_steps hlive
    rw [hsteps, List.pairwise_append] at hdistinct
    exact fun step hstep => hdistinct.2.2 step hstep _ List.mem_cons_self
  rw [← hlater]
  refine mem_pairedBefore hp ?_
  -- a pair that was made so far belongs to a branch in front or to a select
  cases hq : List.lookup id _ with
  | none => rfl
  | some q =>
      rcases hb.pair hq with hold | hmem | ⟨i, hi', hsel⟩
      · have hnone : (f.atBranches forest options).steers = [] :=
          Draft.steers_enter_nodes f forest options
        rw [hnone] at hold
        cases hold
      · obtain ⟨step, hstep, heq⟩ := List.mem_map.mp hmem
        exact absurd heq (hfirst step hstep)
      · rw [hi] at hi'
        cases hi'
        cases hsel

end Order

/-! ## What a steer takes -/

/-- Value `v` is the result of `x`, directly or through address computations and conversions. -/
inductive Function.ComesFrom (f : Function) : Operand → InstId → Prop where
  | result {x} : ComesFrom f (.result x) x
  | through {y i v x} : f.instruction? y = some i → i.isTransparent = true → v ∈ i.operands →
      ComesFrom f v x → ComesFrom f (.result y) x

section Statements

variable (f : Function) (forest : LoopForest) (options : LowerOptions)

/-- The steers of every branch and select take each call and allocation with a node that is read as
their condition or as the value of their side. -/
def Function.FeedsReaders : Prop :=
  ∀ id i p taken v x n, (id, i) ∈ f.steps →
    (f.lowering forest options).steers.lookup id = some p →
    i.condition? = some v ∨ i.choice? taken = some v → f.ComesFrom v x →
    (f.instruction? x).any (·.isOpaque) = true →
    (f.lowerWith forest options).graph.find? (.result x) = some n →
    n ∈ (f.lowerWith forest options).graph.inputs (p.side taken)

/-- Node `a` is no operator that comes too late for the steers of `id`. -/
def Function.NotLate (id : InstId) (a : NodeId) : Prop :=
  ∀ x, (f.lowerWith forest options).graph.find? (.result x) = some a →
    f.InTime (f.lowering forest options).steers id x

/-- What produces a value feeds a steer of `id`, unless it comes too late. -/
def Function.FedInTime (id : InstId) (steer : NodeId) (v : Operand) : Prop :=
  ∀ a, Producers f (f.lowerWith forest options).graph (f.lowering forest options).steers v a →
    f.NotLate forest options id a → a ∈ (f.lowerWith forest options).graph.inputs steer

/-- What the steers of branches and selects take. -/
structure Function.TakesInTime : Prop where
  /-- Every branch and select has its steers. -/
  paired : ∀ {id i}, (id, i) ∈ f.steps → i.condition?.isSome = true →
    ∃ p, (f.lowering forest options).steers.lookup id = some p
  /-- An operator that is in time feeds the steers that its result goes to. -/
  operator : ∀ {id i p taken v x n}, (id, i) ∈ f.steps →
    (f.lowering forest options).steers.lookup id = some p →
    i.condition? = some v ∨ i.choice? taken = some v → f.ComesFrom v x →
    (f.lowerWith forest options).graph.find? (.result x) = some n →
    f.InTime (f.lowering forest options).steers id x →
    n ∈ (f.lowerWith forest options).graph.inputs (p.side taken)
  /-- So does anything else that produces what goes to the steers. -/
  producer : ∀ {id i p taken v}, (id, i) ∈ f.steps →
    (f.lowering forest options).steers.lookup id = some p →
    i.condition? = some v ∨ i.choice? taken = some v →
    f.FedInTime forest options id (p.side taken) v
  /-- An operator that comes too late feeds the steers as well, or its operands do instead. -/
  late : ∀ {id i p taken v x j n}, (id, i) ∈ f.steps →
    (f.lowering forest options).steers.lookup id = some p →
    i.condition? = some v ∨ i.choice? taken = some v → f.ComesFrom v x →
    f.instruction? x = some j →
    (f.lowerWith forest options).graph.find? (.result x) = some n →
    n ∈ (f.lowerWith forest options).graph.inputs (p.side taken) ∨
      ∀ w ∈ j.operands, f.FedInTime forest options id (p.side taken) w
  /-- The condition itself is always in time. -/
  condition : ∀ {id i p taken x n}, (id, i) ∈ f.steps →
    (f.lowering forest options).steers.lookup id = some p →
    i.condition? = some (.result x) →
    (f.lowerWith forest options).graph.find? (.result x) = some n →
    n ∈ (f.lowerWith forest options).graph.inputs (p.side taken)
  /-- What decides a branch is in time for every later branch. -/
  order : f.BranchesInOrder (f.lowering forest options).steers

end Statements

variable {f : Function} {forest : LoopForest} {options : LowerOptions} {d : Draft}
  {id x : InstId} {i : Instruction} {v : Operand} {a n steer : NodeId} {p : SteerPair}
  {taken : Bool}

/-- An instruction with a node produces what comes from it. -/
theorem Function.ComesFrom.producers (h : f.ComesFrom v x) (hd : Draft.Finishes f forest options d
    (f.lowering forest options))
    (hn : (f.lowerWith forest options).graph.find? (.result x) = some n) :
    Producers f (f.lowerWith forest options).graph (f.lowering forest options).steers v n := by
  induction h with
  | result =>
      rw [f.graph_lowerWith] at hn ⊢
      exact hd.producers_iff.mpr (.node (by rwa [← hd.operator]))
  | through hi htransparent hv _ ih => exact .transparent hi htransparent hv (ih hn)

namespace Draft.Finishes

variable (h : Finishes f forest options d (f.lowering forest options))

include h

/-- What is fed in the draft is fed in time in the finished graph. -/
theorem fedInTime (hfed : d.SideFed f id steer v) : f.FedInTime forest options id steer v := by
  intro a ha htime
  rw [f.graph_lowerWith] at ha ⊢
  refine h.input.mpr ((hfed.reaches h.wired.lawful.sound (fun y m hop hnot =>
    hnot (h.wired.lawful.sound.operator hop)) (h.producers_iff.mp ha)).resolve_right ?_)
  rintro ⟨x, j, hop, _, hlate, _⟩
  refine hlate ?_
  rw [← h.steers]
  exact htime x (by rw [f.graph_lowerWith, h.operator, hop])

/-- An operator that is in time feeds the steer. -/
theorem mem_inputs_of_inTime (hfed : d.SideFed f id steer v) (hx : f.ComesFrom v x)
    (hn : (f.lowerWith forest options).graph.find? (.result x) = some n)
    (htime : f.InTime (f.lowering forest options).steers id x) :
    n ∈ (f.lowerWith forest options).graph.inputs steer := by
  refine h.fedInTime hfed n (hx.producers h hn) fun y hy => ?_
  -- a node belongs to one instruction
  rw [f.graph_lowerWith, h.operator] at hn hy
  cases h.wired.lawful.sound.operator_unique hy hn
  exact htime

/-- What produces a value feeds the steer, or it was passed over for its operands. -/
theorem fed_or_passed (hfed : d.SideFed f id steer v)
    (ha : Producers f (f.lowerWith forest options).graph (f.lowering forest options).steers v a)
    (hx : (f.lowerWith forest options).graph.find? (.result x) = some a)
    (hi : f.instruction? x = some i) :
    a ∈ (f.lowerWith forest options).graph.inputs steer ∨
      ∀ w ∈ i.operands, f.FedInTime forest options id steer w := by
  rw [f.graph_lowerWith] at ha hx ⊢
  rcases hfed.reaches h.wired.lawful.sound (fun y m hop hnot =>
    hnot (h.wired.lawful.sound.operator hop)) (h.producers_iff.mp ha) with hedge | hpassed
  · exact Or.inl (h.input.mpr hedge)
  · obtain ⟨y, j, hop, hj, _, hall⟩ := hpassed
    cases h.wired.lawful.sound.operator_unique hop (by rwa [← h.operator])
    rw [hi] at hj
    cases hj
    exact Or.inr fun w hw => h.fedInTime (hall w hw)

end Draft.Finishes

/-- The condition of a branch or a select is in time for its own steers. -/
theorem Function.InTime.own {steers : List (InstId × SteerPair)} {j : Instruction}
    (hi : f.instruction? id = some i) (hcond : i.condition? = some (.result x))
    (hj : f.instruction? x = some j) (hnode : j.hasNode = true) : f.InTime steers id x :=
  Or.inr ⟨⟨j, hj, hnode⟩, id, i, List.mem_cons_self, hi, hcond⟩

/-- No steer misses an operator that is in time. -/
theorem operators_in_time {text : String} {m : Module} (hread : Module.readChecked text = .ok m)
    (hf : f ∈ m.functions) (forest : LoopForest) (options : LowerOptions) :
    f.TakesInTime forest options := by
  have hbound := (Module.readChecked_checked hread hf).toBound
  obtain ⟨d, h⟩ := Draft.finishes_lowering hbound forest options
  have hfed : ∀ {id i p taken v}, (id, i) ∈ f.steps →
      (f.lowering forest options).steers.lookup id = some p →
      i.condition? = some v ∨ i.choice? taken = some v → d.SideFed f id (p.side taken) v := by
    intro id i p taken v hid hp hv
    rw [h.steers] at hp
    exact h.wired.fed hp i taken v (Function.mem_steps.mp hid).2 hv
  refine ⟨fun {id i} hid hcond => ?_,
    fun hid hp hv hx hn htime => h.mem_inputs_of_inTime (hfed hid hp hv) hx hn htime,
    fun hid hp hv => h.fedInTime (hfed hid hp hv),
    fun hid hp hv hx hj hn => h.fed_or_passed (hfed hid hp hv) (hx.producers h hn) hn hj,
    fun {id i p taken x n} hid hp hcond hn => ?_,
    Function.branches_in_order hbound.placed.live_nodup forest options⟩
  · obtain ⟨cond, hcond⟩ := Option.isSome_iff_exists.mp hcond
    obtain ⟨p, hp⟩ := h.wired.paired (Function.mem_steps.mp hid).2 hcond
    exact ⟨p, by rw [h.steers, hp]⟩
  · have hop := hn
    rw [f.graph_lowerWith, h.operator] at hop
    obtain ⟨j, hj, hnode⟩ := h.wired.lawful.sound.result (Draft.operator?_eq_some.mp hop).1
    exact h.mem_inputs_of_inTime (hfed hid hp (Or.inl hcond)) .result hn
      (.own (Function.mem_steps.mp hid).2 hcond hj hnode)

/-- A call that one select reads and the next one takes as its condition. -/
def lateCondition : Function where
  name := "f"
  ret := .int 1
  params := [⟨"c", .int 1⟩]
  blocks := [⟨"entry", [0, 1, 2, 3]⟩]
  slots := [
    ⟨some "v", .call (.int 1) (.function "g") [], 0⟩,
    ⟨some "s", .select (.param 0) (.int 1) (.result 0) (.const ⟨.int 1, "false"⟩), 0⟩,
    ⟨some "r", .select (.result 0) (.int 1) (.result 1) (.param 0), 0⟩,
    ⟨none, .ret (some ⟨.int 1, .result 2⟩), 0⟩]

/-- The text of `lateCondition`. -/
def lateConditionText : String :=
  "define i1 @f(i1 %c) \x7b\nentry:\n  %v = call i1 @g()\n" ++
    "  %s = select i1 %c, i1 %v, i1 false\n  %r = select i1 %v, i1 %s, i1 %c\n" ++
    "  ret i1 %r\n\x7d\n"

theorem read_lateCondition : Module.readChecked lateConditionText = .ok ⟨[lateCondition]⟩ := by
  decide +kernel

/-- The call `%v` has a node, but the steers of `%s` are made before it is an operator, and then
nothing feeds the true one but the condition `%c`. -/
theorem not_feedsReaders_lateCondition :
    Module.readChecked lateConditionText = .ok ⟨[lateCondition]⟩ ∧
    ¬ lateCondition.FeedsReaders lateCondition.loopForest {} := by
  refine ⟨read_lateCondition, fun h => ?_⟩
  have hedge := h 1 _ ⟨3, 4⟩ true (.result 0) 0 0
    (Function.mem_steps.mpr ⟨by decide +kernel, rfl⟩) (by decide +kernel) (Or.inr rfl) .result rfl
    (by decide +kernel)
  exact absurd hedge (by decide +kernel)

/-- The call `%v` is in time for the steers of `%r`, which it decides. -/
theorem operators_in_time_lateCondition :
    lateCondition.TakesInTime lateCondition.loopForest {} ∧
    (lateCondition.lowering lateCondition.loopForest {}).steers.lookup 2 = some ⟨6, 7⟩ ∧
    0 ∈ (lateCondition.lowerWith lateCondition.loopForest {}).graph.inputs 6 ∧
    0 ∈ (lateCondition.lowerWith lateCondition.loopForest {}).graph.inputs 7 := by
  have htakes : lateCondition.TakesInTime lateCondition.loopForest {} :=
    operators_in_time read_lateCondition List.mem_cons_self lateCondition.loopForest {}
  have hr : (2, .select (.result 0) (.int 1) (.result 1) (.param 0)) ∈ lateCondition.steps :=
    Function.mem_steps.mpr ⟨by decide +kernel, rfl⟩
  have hp : (lateCondition.lowering lateCondition.loopForest {}).steers.lookup 2 =
      some ⟨6, 7⟩ := by
    decide +kernel
  have hnode : (lateCondition.lowerWith lateCondition.loopForest {}).graph.find? (.result 0) =
      some 0 := by
    decide +kernel
  have hside : ∀ taken, 0 ∈ (lateCondition.lowerWith lateCondition.loopForest {}).graph.inputs
      (SteerPair.side ⟨6, 7⟩ taken) := fun _ => htakes.condition hr hp rfl hnode
  exact ⟨htakes, hp, hside true, hside false⟩

/-! ## What a branch leads to -/

section Statements

variable (f : Function) (forest : LoopForest) (options : LowerOptions)

/-- The first instruction of a block, past its phis, that has a node. -/
def Function.firstWithNode (g : Graph) (b : BlockId) : Option InstId :=
  (f.pastPhis b).find? fun x => (g.find? (.result x)).isSome

/-- The steers of every branch feed the first instruction with a node on their side. -/
def Function.FeedsTargets : Prop :=
  ∀ id cond onTrue onFalse p taken x n, (id, .branch cond onTrue onFalse) ∈ f.steps →
    (f.lowering forest options).steers.lookup id = some p →
    f.firstWithNode (f.lowerWith forest options).graph (if taken then onTrue else onFalse) =
      some x →
    (f.lowerWith forest options).graph.find? (.result x) = some n →
    p.side taken ∈ (f.lowerWith forest options).graph.inputs n

/-- If an operator of a block is in time for the steers of `id`, then a steer feeds an operator of
the block with none in time before it. -/
def Function.EntersBlock (id : InstId) (steer : NodeId) (block : BlockId) : Prop :=
  ∀ y ∈ f.pastPhis block, f.InTime (f.lowering forest options).steers id y →
    ∃ front x rest n, f.pastPhis block = front ++ x :: rest ∧
      (f.lowerWith forest options).graph.find? (.result x) = some n ∧
      steer ∈ (f.lowerWith forest options).graph.inputs n ∧
      ∀ z ∈ front, ¬ f.InTime (f.lowering forest options).steers id z

/-- What the steers of branches feed on their sides. -/
structure Function.EntersInTime : Prop where
  /-- Every branch has its steers. -/
  paired : ∀ {id cond onTrue onFalse}, (id, .branch cond onTrue onFalse) ∈ f.steps →
    ∃ p, (f.lowering forest options).steers.lookup id = some p
  /-- They feed the first instruction with a node if it is an operator in time. -/
  first : ∀ {id cond onTrue onFalse p taken x n}, (id, .branch cond onTrue onFalse) ∈ f.steps →
    (f.lowering forest options).steers.lookup id = some p →
    f.firstWithNode (f.lowerWith forest options).graph (if taken then onTrue else onFalse) =
      some x →
    (f.lowerWith forest options).graph.find? (.result x) = some n →
    f.InTime (f.lowering forest options).steers id x →
    p.side taken ∈ (f.lowerWith forest options).graph.inputs n
  /-- If any operator of the block is in time, then they feed one with none in time before it. -/
  next : ∀ {id cond onTrue onFalse p taken}, (id, .branch cond onTrue onFalse) ∈ f.steps →
    (f.lowering forest options).steers.lookup id = some p →
    f.EntersBlock forest options id (p.side taken) (if taken then onTrue else onFalse)
  /-- Apart from phis they feed no instruction outside the block on their side. -/
  within : ∀ {id cond onTrue onFalse p taken x i n}, (id, .branch cond onTrue onFalse) ∈ f.steps →
    (f.lowering forest options).steers.lookup id = some p →
    f.instruction? x = some i → i.isPhi = false →
    (f.lowerWith forest options).graph.find? (.result x) = some n →
    p.side taken ∈ (f.lowerWith forest options).graph.inputs n →
    x ∈ f.pastPhis (if taken then onTrue else onFalse)
  /-- What decides a branch is in time for every later branch. -/
  order : f.BranchesInOrder (f.lowering forest options).steers

end Statements

/-- The only reason for an edge from a steer of a branch to an operator that is no phi is that the
operator stands in the block on the side of the steer. -/
theorem Draft.Lawful.mem_pastPhis (h : Lawful f forest options d) {cond : Operand}
    {onTrue onFalse : BlockId} (hi : f.instruction? id = some (.branch cond onTrue onFalse))
    (hp : d.steers.lookup id = some p) {j : Instruction} (hj : f.instruction? x = some j)
    (hphi : j.isPhi = false) (hop : d.operator? x = some n)
    (hedge : d.graph.hasEdge (p.side taken) n) :
    x ∈ f.pastPhis (if taken then onTrue else onFalse) := by
  have hfind := (operator?_eq_some.mp hop).1
  have hjoin : ∀ {y block arms}, f.IsJoin y block arms → d.operator? y ≠ some n := by
    intro y block arms hy hop'
    obtain ⟨ty, hi'⟩ := hy.instruction
    rw [h.sound.operator_unique hop' hop, hj] at hi'
    cases hi'
    cases hphi
  generalize ha : p.side taken = a at hedge
  generalize hb : n = b at hedge
  cases h.justified hedge with
  | operand _ _ _ _ hv =>
      exact absurd ⟨id, cond, onTrue, onFalse, p, taken, hi, hp, ha.symm⟩
        (h.sound.not_isBranchSteer hv)
  | condition hq | choice hq | stream _ _ hq | controlled _ _ _ _ hq =>
      exact absurd hb (h.sound.find?_ne_side hq hfind)
  | entry hq hbranch hy hj' hphi' hop' =>
      obtain ⟨rfl, rfl⟩ := h.sound.steer_unique hp hq ha
      rw [hi] at hbranch
      cases hbranch
      cases h.sound.operator_unique hop (hb ▸ hop')
      exact List.mem_filter.mpr ⟨hy, by simp [hj', hphi']⟩
  | carried hy hop' | decider hy hop' | merged hy hop' | steered hy hop' =>
      exact absurd (hb ▸ hop') (hjoin hy)
  | memory _ hop' =>
      exact absurd ha.symm (h.sound.find?_ne_side hp (operator?_eq_some.mp hop').1)

/-- If the first instruction with a node is in time, then it is the one that is fed. -/
theorem Function.EntersBlock.first {block : BlockId}
    (h : f.EntersBlock forest options id steer block)
    (hfirst : f.firstWithNode (f.lowerWith forest options).graph block = some x)
    (hn : (f.lowerWith forest options).graph.find? (.result x) = some n)
    (htime : f.InTime (f.lowering forest options).steers id x) :
    steer ∈ (f.lowerWith forest options).graph.inputs n := by
  obtain ⟨front, y, rest, k, hbody, hk, hedge, hfront⟩ :=
    h x (List.mem_of_find?_eq_some hfirst) htime
  have hy : ((f.lowerWith forest options).graph.find? (.result y)).isSome = true := by
    rw [hk]
    rfl
  rw [firstWithNode, hbody, List.find?_append, List.find?_cons_of_pos
    (p := fun z => ((f.lowerWith forest options).graph.find? (.result z)).isSome) hy] at hfirst
  cases hfound : front.find? fun z =>
      ((f.lowerWith forest options).graph.find? (.result z)).isSome with
  | none =>
      rw [hfound] at hfirst
      cases hfirst
      rw [hn] at hk
      cases hk
      exact hedge
  | some z =>
      -- it would stand before the one that is fed, where nothing is in time
      rw [hfound] at hfirst
      cases hfirst
      exact absurd htime (hfront _ (List.mem_of_find?_eq_some hfound))

/-- What a branch feeds in the draft it feeds in the finished graph. -/
theorem Draft.Finishes.entersBlock (h : Finishes f forest options d (f.lowering forest options))
    {cond : Operand} {onTrue onFalse : BlockId}
    (hi : f.instruction? id = some (.branch cond onTrue onFalse))
    (hp : (f.lowering forest options).steers.lookup id = some p) :
    f.EntersBlock forest options id (p.side taken) (if taken then onTrue else onFalse) := by
  intro y hy htime
  rw [h.steers] at hp htime ⊢
  obtain ⟨front, x, rest, n, hbody, hop, hedge, hfront⟩ :=
    h.wired.entered hp cond onTrue onFalse taken hi ⟨y, hy, htime⟩
  rw [f.graph_lowerWith]
  exact ⟨front, x, rest, n, hbody, h.operator.trans hop, h.input.mpr hedge, hfront⟩

/-- A branch passes over no operator that is in time. -/
theorem targets_in_time {text : String} {m : Module} (hread : Module.readChecked text = .ok m)
    (hf : f ∈ m.functions) (forest : LoopForest) (options : LowerOptions) :
    f.EntersInTime forest options := by
  have hbound := (Module.readChecked_checked hread hf).toBound
  obtain ⟨d, h⟩ := Draft.finishes_lowering hbound forest options
  refine ⟨fun {id cond onTrue onFalse} hid => ?_,
    fun hid hp => (h.entersBlock (Function.mem_steps.mp hid).2 hp).first,
    fun hid hp => h.entersBlock (Function.mem_steps.mp hid).2 hp,
    fun {id cond onTrue onFalse p taken x i n} hid hp hi hphi hn hedge => ?_,
    Function.branches_in_order hbound.placed.live_nodup forest options⟩
  · obtain ⟨p, hp⟩ := h.wired.paired (Function.mem_steps.mp hid).2 rfl
    exact ⟨p, by rw [h.steers, hp]⟩
  · rw [h.steers] at hp
    rw [f.graph_lowerWith] at hn hedge
    rw [h.operator] at hn
    exact h.wired.lawful.mem_pastPhis (Function.mem_steps.mp hid).2 hp hi hphi hn
      (h.input.mp hedge)

/-- A branch to a block that calls a function, and goes round again if it says so. -/
def lateTarget : Function where
  name := "f"
  ret := .void
  params := [⟨"c", .int 1⟩]
  blocks := [⟨"entry", [0]⟩, ⟨"a", [1, 2]⟩, ⟨"b", [3]⟩]
  slots := [
    ⟨none, .branch (.param 0) 1 2, 0⟩,
    ⟨some "p", .call (.int 1) (.function "g") [], 1⟩,
    ⟨none, .branch (.result 1) 1 2, 1⟩,
    ⟨none, .ret none, 2⟩]

/-- The text of `lateTarget`. -/
def lateTargetText : String :=
  "define void @f(i1 %c) \x7b\nentry:\n  br i1 %c, label %a, label %b\na:\n" ++
    "  %p = call i1 @g()\n  br i1 %p, label %a, label %b\nb:\n  ret void\n\x7d\n"

theorem read_lateTarget : Module.readChecked lateTargetText = .ok ⟨[lateTarget]⟩ := by
  decide +kernel

/-- The call `%p` is the first instruction of `%a` with a node, but the first branch to `%a` is
lowered before the call is an operator, and feeds nothing there. -/
theorem not_feedsTargets_lateTarget :
    Module.readChecked lateTargetText = .ok ⟨[lateTarget]⟩ ∧
    ¬ lateTarget.FeedsTargets lateTarget.loopForest {} := by
  refine ⟨read_lateTarget, fun h => ?_⟩
  have hedge := h 0 (.param 0) 1 2 ⟨2, 3⟩ true 1 0
    (Function.mem_steps.mpr ⟨by decide +kernel, rfl⟩) (by decide +kernel) (by decide +kernel)
    (by decide +kernel)
  exact absurd hedge (by decide +kernel)

/-- The branch that `%p` decides leads to `%a` as well, and feeds the call. -/
theorem targets_in_time_lateTarget :
    lateTarget.EntersInTime lateTarget.loopForest {} ∧
    (lateTarget.lowering lateTarget.loopForest {}).steers.lookup 2 = some ⟨5, 6⟩ ∧
    5 ∈ (lateTarget.lowerWith lateTarget.loopForest {}).graph.inputs 0 := by
  have henters : lateTarget.EntersInTime lateTarget.loopForest {} :=
    targets_in_time read_lateTarget List.mem_cons_self lateTarget.loopForest {}
  have hbranch : (2, .branch (.result 1) 1 2) ∈ lateTarget.steps :=
    Function.mem_steps.mpr ⟨by decide +kernel, rfl⟩
  have hp : (lateTarget.lowering lateTarget.loopForest {}).steers.lookup 2 = some ⟨5, 6⟩ := by
    decide +kernel
  have hedge : SteerPair.side ⟨5, 6⟩ true ∈
      (lateTarget.lowerWith lateTarget.loopForest {}).graph.inputs 0 :=
    henters.first (x := 1) hbranch hp (by decide +kernel) (by decide +kernel)
      (.own (Function.mem_steps.mp hbranch).2 rfl rfl rfl)
  exact ⟨henters, hp, hedge⟩

end Dataflow
