import Dataflow.Proofs.Lowering.Changes

/-!
# Stages are made of changes

Every step of the stages that make steers and wire operands is a sequence of changes
(`Draft.Builds`), and so is wiring a phi, once its node is a carry if it is to be one
(`Draft.lowerJoin_cases`).
-/

namespace Dataflow

/-- A loop carries values round to a phi. -/
def Function.Carries (f : Function) (forest : LoopForest) (id : InstId) : Prop :=
  ∃ block arms l, f.IsJoin id block arms ∧ forest.carrying? block arms = some l

namespace Function

variable {f : Function} {block : BlockId} {cond : Operand}

/-- The condition a block branches on is an operand of the function. -/
theorem branchCond?_eq_some (h : f.branchCond? block = some cond) :
    ∃ id i, f.instruction? id = some i ∧ cond ∈ i.operands := by
  unfold branchCond? at h
  split at h
  · rename_i c onTrue onFalse hterm
    cases h
    obtain ⟨id, _, hi⟩ := Option.bind_eq_some_iff.mp hterm
    exact ⟨id, _, hi, by simp [Instruction.operands]⟩
  · cases h

/-- The condition that decides on a loop is an operand of the function. -/
theorem loopDecider_eq_some {l : NaturalLoop} (h : f.loopDecider l = some cond) :
    ∃ id i, f.instruction? id = some i ∧ cond ∈ i.operands := by
  simp only [loopDecider, Option.or_eq_some_iff] at h
  rcases h with hguard | ⟨_, hexit⟩
  · obtain ⟨p, _, hp⟩ := Option.bind_eq_some_iff.mp hguard
    split at hp
    · exact branchCond?_eq_some hp
    · cases hp
  · obtain ⟨c, _, hc⟩ := List.exists_of_findSome?_eq_some hexit
    exact branchCond?_eq_some hc

end Function

/-- The values that the third stage makes nodes for: parameters, and leaves that are read. -/
def Function.leaves (f : Function) : List Operand :=
  (List.range f.params.length).map Operand.param ++
    (f.steps.flatMap (·.2.operands)).filter (·.isLeaf)

namespace Draft

variable {f : Function} {T : NodeId → Prop} {P : InstId → Prop} {d : Draft} {v : Operand}
  {target : NodeId} {id : InstId} {p : SteerPair} {forest : LoopForest} {options : LowerOptions}

/-! ## Steps of the stages -/

/-- Linking the stream only adds edges into steers that are there. -/
theorem linkStream_builds (hp : d.steers.lookup id = some p) (hstream : f.Streams options) :
    Builds f options T P d (d.linkStream p) := by
  have hp' : d.streamNode.1.steers.lookup id = some p := by rwa [streamNode_steers]
  have hfirst : Builds f options T P d (d.streamNode.1.link d.streamNode.2 p.onTrue) :=
    .link (.streamNode .refl hstream) (.steer hp' (rfl : p.side true = p.onTrue))
  exact hfirst.link (.steer hp' (rfl : p.side false = p.onFalse))

/-- Making the steers of a branch is a proper change, and records them. -/
theorem branchSteers_builds (hchoice : ∀ x, f.Chooses x → P x) (hid : P id) (hd : d.graph.Full) :
    Builds f options T P d (d.branchSteers f options id).1 ∧
      ∀ p, (d.branchSteers f options id).2 = some p →
        (d.branchSteers f options id).1.steers.lookup id = some p := by
  unfold branchSteers
  split
  · rename_i hold
    exact ⟨.refl, fun p hp => by rwa [← hp]⟩
  · rename_i hnew
    split
    · rename_i cond onTrue onFalse hi
      have hcond : f.Asks cond := Function.asks_of_mem hi (by simp [Instruction.operands])
      obtain ⟨hopen, hpair⟩ :
          Builds f options T P d (d.openSteers f (wire f) id cond none none).1 ∧ _ :=
        openSteers_builds (wire_builds hchoice) hd hid hnew hcond (by simp) (by simp)
      simp only
      split
      · rename_i hstream
        have hlink := linkStream_builds (T := T) (P := P) hpair
          ⟨hstream, id, cond, onTrue, onFalse, hi⟩
        exact ⟨hopen.trans hlink, fun p hp => Option.some.inj hp ▸ hlink.steers hpair⟩
      · exact ⟨hopen, fun p hp => Option.some.inj hp ▸ hpair⟩
    · exact ⟨.refl, fun p hp => by cases hp⟩

/-- A branch feeds operators that are no phis. -/
theorem firstOperator_eq_some {block : BlockId} {n : NodeId}
    (hn : d.firstOperator f block = some n) :
    ∃ x ∈ f.body block, (f.instruction? x).any (·.isPhi) = false ∧ d.operator? x = some n := by
  obtain ⟨x, hx, hop⟩ := List.exists_of_findSome?_eq_some hn
  obtain ⟨hbody, hphi⟩ := List.mem_filter.mp hx
  exact ⟨x, hbody, by simpa using hphi, hop⟩

/-- An edge into a node that may be missing is a proper change. -/
theorem elim_link_builds {a : NodeId} {b : Option NodeId} (hb : ∀ n, b = some n → d.Enters f T n) :
    Builds f options T P d (b.elim d (d.link a)) := by
  cases b with
  | none => exact .refl
  | some n => exact Builds.refl.link (hb n rfl)

/-- The sinks are the nodes of all instructions but phis, each with its operands. -/
theorem mem_sinks {sink : List Operand × NodeId} : sink ∈ d.sinks f ↔
    ∃ id i, (id, i) ∈ f.steps ∧ i.isPhi = false ∧ d.operator? id = some sink.2 ∧
      sink.1 = i.operands := by
  obtain ⟨operands, n⟩ := sink
  simp only [sinks, List.mem_filterMap, Prod.exists]
  refine exists_congr fun id => exists_congr fun i => and_congr_right fun _ => ?_
  cases i.isPhi with
  | true => simp
  | false =>
      simp only [Bool.false_eq_true, if_false, Option.map_eq_some_iff, Prod.mk.injEq, true_and]
      constructor
      · intro hex
        obtain ⟨m, hm, rfl, rfl⟩ := hex
        exact ⟨hm, rfl⟩
      · intro hex
        obtain ⟨hm, rfl⟩ := hex
        exact ⟨n, hm, rfl, rfl⟩

section Steps

variable (hd : d.graph.Full)

include hd

/-- Lowering a branch is a proper change. -/
theorem lowerBranch_builds (hchoice : ∀ x, f.Chooses x → P x) {step : InstId × Instruction}
    (hstep : P step.1) : Builds f options T P d (d.lowerBranch f options step) := by
  unfold lowerBranch
  split
  · rename_i cond onTrue onFalse _
    obtain ⟨hsteers, _⟩ : Builds f options T P d (d.branchSteers f options step.1).1 ∧ _ :=
      branchSteers_builds hchoice hstep hd
    have hd' := (hsteers.keeps hd).full
    split
    · rename_i heq
      rwa [heq] at hsteers
    · rename_i e p heq
      rw [heq] at hsteers hd'
      have hfirst : ∀ block n, e.firstOperator f block = some n → e.Enters f T n := by
        intro block n hn
        obtain ⟨x, _, hphi, hop⟩ := firstOperator_eq_some hn
        exact .operator hphi hop
      have htrue : Builds f options T P e
          ((e.firstOperator f onTrue).elim e (e.link p.onTrue)) := elim_link_builds (hfirst onTrue)
      exact hsteers.trans (htrue.trans (elim_link_builds fun n hn =>
        (hfirst onFalse n hn).later htrue hd'))
  · exact .refl

/-- Lowering a select is a proper change. -/
theorem lowerSelect_builds (hchoice : ∀ x, f.Chooses x → P x) (step : InstId × Instruction) :
    Builds f options T P d (d.lowerSelect f step) := by
  unfold lowerSelect
  split
  · exact selectSteers_builds (wire_builds hchoice) hchoice hd _
  · exact .refl

/-- Wiring the results that a node uses is a proper change. -/
theorem wireResults_builds {sink : List Operand × NodeId} (htarget : d.Enters f T sink.2) :
    Builds f options T (fun _ => True) d (d.wireResults f sink) :=
  foldl_builds fun e v hv he => by
    have hasks : f.Asks v := by
      cases v <;> simp_all [Function.Asks, Operand.isLeaf, Operand.result?]
    exact wire_builds (fun _ _ => trivial) v sink.2 e hasks (he.keeps hd).full (htarget.later he hd)

/-- Wiring the leaves that a node uses is a proper change. -/
theorem wireLeaves_builds {sink : List Operand × NodeId} (htarget : d.Enters f T sink.2) :
    Builds f options T P d (d.wireLeaves sink) :=
  foldl_builds fun _ _ _ he => Builds.refl.connect fun _ hn =>
    Option.some.inj hn ▸ htarget.later he hd

/-- Steps that each wire an operator other than a phi. -/
theorem foldl_sinks_builds {k : Draft → List Operand × NodeId → Draft}
    (hstep : ∀ e sink, e.graph.Full → e.Enters f T sink.2 → Builds f options T P e (k e sink)) :
    Builds f options T P d ((d.sinks f).foldl k d) := by
  refine foldl_builds fun e sink hsink he => hstep e sink (he.keeps hd).full ?_
  obtain ⟨x, i, hmem, hphi, hop, _⟩ := mem_sinks.mp hsink
  have hi := (Function.mem_steps.mp hmem).2
  exact .operator (by simpa [hi] using hphi) (operator?_of_keeps (he.keeps hd) hop)

/-- Wiring a value of a merge is a proper change. -/
theorem lowerArm_builds {block : BlockId} {join : NodeId} (htarget : d.Enters f T join)
    {arm : Arm} (harm : f.Asks arm.value) :
    Builds f options T (fun _ => True) d (d.lowerArm f options block join arm) := by
  unfold lowerArm
  split
  · exact wire_builds (fun _ _ => trivial) _ _ _ harm hd htarget
  · rename_i branch taken _
    obtain ⟨hsteers, hpair⟩ :
        Builds f options T (fun _ => True) d (d.branchSteers f options branch).1 ∧ _ :=
      branchSteers_builds (fun _ _ => trivial) trivial hd
    have hd' := (hsteers.keeps hd).full
    have htarget' := htarget.later hsteers hd
    split
    · rename_i heq
      rw [heq] at hsteers hd' htarget'
      exact hsteers.trans (wire_builds (fun _ _ => trivial) _ _ _ harm hd' htarget')
    · rename_i e p heq
      rw [heq] at hsteers hd' htarget' hpair
      have hwire : Builds f options T (fun _ => True) e (e.wire f arm.value (p.side taken)) :=
        wire_builds (fun _ _ => trivial) _ _ _ harm hd' (.steer (hpair p rfl) rfl)
      exact hsteers.trans (hwire.link (htarget'.later hwire hd'))

omit hd in
/-- The users of a phi are fed where they are operators other than phis. -/
theorem feedJoinUsers_builds (join : NodeId) (users : List InstId) :
    Builds f options T P d (users.foldl (feedJoinUser f join) d) := by
  refine foldl_builds fun e user _ _ => ?_
  unfold feedJoinUser
  cases hphi : (f.instruction? user).any (·.isPhi) with
  | true => exact .refl
  | false => exact elim_link_builds fun n hn => .operator hphi hn

end Steps

/-! ### Phis -/

/-- Turns the node of a phi into a carry. -/
def toCarry (d : Draft) (join : NodeId) : Draft :=
  { d with graph := d.graph.modifyNode join fun n =>
      { n with kind := .carry, label := "C", symbol := "" } }

/-- Wires what decides on another round into a carry, or reports that nothing does. -/
def wireDecider (f : Function) (id : InstId) (join : NodeId) (l : NaturalLoop) (d : Draft) :
    Draft :=
  match f.loopDecider l with
  | some cond => d.wire f cond join
  | none => d.report (.noLoopCondition f.name (f.operandText (.result id)))

/-- A carry is made first, then wired to what decides on it and to its values. -/
theorem lowerCarry_eq (l : NaturalLoop) (join : NodeId) (arms : List Arm) :
    d.lowerCarry f id join l arms = arms.foldl (fun d arm => d.wire f arm.value join)
      (wireDecider f id join l (d.toCarry join)) := rfl

/-- A carry is wired by changes once its node is one. -/
theorem lowerCarry_builds {join : NodeId} (l : NaturalLoop) {arms : List Arm}
    (harms : ∀ arm ∈ arms, f.Asks arm.value) (hd : (d.toCarry join).graph.Full)
    (htarget : (d.toCarry join).Enters f T join) :
    Builds f options T (fun _ => True) (d.toCarry join) (d.lowerCarry f id join l arms) := by
  have hwire : ∀ {e : Draft} {v : Operand}, f.Asks v →
      Builds f options T (fun _ => True) (d.toCarry join) e →
      Builds f options T (fun _ => True) e (e.wire f v join) := fun hv he =>
    wire_builds (fun _ _ => trivial) _ join _ hv (he.keeps hd).full (htarget.later he hd)
  have hdecider : Builds f options T (fun _ => True) (d.toCarry join)
      (wireDecider f id join l (d.toCarry join)) := by
    unfold wireDecider
    split
    · rename_i cond hcond
      obtain ⟨x, i, hi, hmem⟩ := Function.loopDecider_eq_some hcond
      exact hwire (Function.asks_of_mem hi hmem) .refl
    · exact .report .refl
  rw [lowerCarry_eq]
  exact hdecider.trans
    (foldl_builds fun e arm harm he => hwire (harms arm harm) (hdecider.trans he))

/-- Wiring a phi is a sequence of changes, which starts with a carry if a loop carries values round
to the phi. -/
theorem lowerJoin_cases (forest : LoopForest) (options : LowerOptions) (id : InstId)
    (hd : d.graph.Full) :
    (∃ join, d.operator? id = some join ∧ f.Carries forest id ∧
      Builds f options (fun _ => True) (fun _ => True) (d.toCarry join)
        (d.lowerJoin f forest options id)) ∨
    (d.operator? id = none ∨ ¬ f.Carries forest id) ∧
      Builds f options (fun _ => True) (fun _ => True) d (d.lowerJoin f forest options id) := by
  unfold lowerJoin
  split
  · rename_i name ty arms block join hslot hop
    have hjoin : f.IsJoin id block arms := ⟨_, ty, hslot, rfl, rfl⟩
    obtain ⟨_, hi⟩ := hjoin.instruction
    have harms : ∀ arm ∈ arms, f.Asks arm.value := fun arm harm =>
      Function.asks_of_mem hi (List.mem_map_of_mem harm)
    cases hcarry : forest.carrying? block arms with
    | some l =>
        refine Or.inl ⟨join, hop, ⟨block, arms, l, hjoin, hcarry⟩, ?_⟩
        have hfull : (d.toCarry join).graph.Full := Graph.full_modifyNode hd fun _ => rfl
        exact (lowerCarry_builds l harms hfull (.target trivial)).trans
          (feedJoinUsers_builds join _)
    | none =>
        refine Or.inr ⟨Or.inr fun ⟨block', arms', l, hjoin', hcarry'⟩ => ?_, ?_⟩
        · obtain ⟨rfl, rfl⟩ := hjoin.unique hjoin'
          rw [hcarry] at hcarry'
          cases hcarry'
        · have hwired : Builds f options (fun _ => True) (fun _ => True) d
              (arms.foldl (lowerArm f options block join) d) :=
            foldl_builds fun e arm harm he =>
              lowerArm_builds (he.keeps hd).full (.target trivial) (harms arm harm)
          exact hwired.trans (feedJoinUsers_builds join _)
  · rename_i hnone
    refine Or.inr ⟨?_, .refl⟩
    cases hop : d.operator? id with
    | none => exact Or.inl rfl
    | some join =>
        refine Or.inr fun ⟨block, arms, l, ⟨s, ty, hs, hi, hblock⟩, hcarry⟩ => ?_
        obtain ⟨name, i, block'⟩ := s
        cases hi
        exact hnone name ty arms block' join hs hop

/-! ## Stages -/

/-- The leaves of a function are leaves. -/
theorem isLeaf_of_mem_leaves (hv : v ∈ f.leaves) : v.isLeaf = true := by
  rcases List.mem_append.mp hv with hparam | hread
  · obtain ⟨k, _, rfl⟩ := List.mem_map.mp hparam
    rfl
  · exact (List.mem_filter.mp hread).2

/-- The third stage asks for nothing that may not be asked for. -/
theorem asks_of_mem_leaves (hv : v ∈ f.leaves) : f.Asks v := by
  rcases List.mem_append.mp hv with hparam | hread
  · obtain ⟨k, hk, rfl⟩ := List.mem_map.mp hparam
    exact fun _ => Or.inl ⟨k, List.mem_range.mp hk, rfl⟩
  · obtain ⟨step, hstep, hmem⟩ := List.mem_flatMap.mp (List.mem_filter.mp hread).1
    exact Function.asks_of_mem (Function.mem_steps.mp hstep).2 hmem

/-- Making nodes for leaves keeps those there are. -/
theorem keeps_foldl_ensure (hd : d.graph.Full) (l : List Operand) :
    d.graph.Keeps (l.foldl (ensure f) d).graph :=
  List.foldlRecOn l _ (motive := fun e : Draft => d.graph.Keeps e.graph) (.refl hd)
    fun _ he v _ => he.trans (Graph.keeps_nodeFor he.full f v)

/-- A leaf that was asked for has a node. -/
theorem find?_foldl_ensure {l : List Operand} (hd : d.graph.Full) (hv : v ∈ l)
    (hleaf : v.isLeaf = true) : ∃ n, (l.foldl (ensure f) d).graph.find? v = some n := by
  obtain ⟨front, rest, rfl⟩ := List.append_of_mem hv
  have hfront := (keeps_foldl_ensure (f := f) hd front).full
  have hkeep := Graph.keeps_nodeFor hfront f v
  obtain ⟨n, hn⟩ := nodeFor_leaf (f := f) (d := front.foldl (ensure f) d) hleaf
  rw [List.foldl_append, List.foldl_cons]
  exact ⟨n, (keeps_foldl_ensure hkeep.full rest).owner ((Graph.find?_nodeFor hfront).trans hn)⟩

section Stages

variable (hd : d.graph.Full)

include hd

/-- The stage of steers is a proper change. -/
theorem steers_builds :
    Builds f options T (fun _ => True) d (d.enter f forest options .steers) := by
  have hrun : d.enter f forest options .steers = f.steps.foldl (lowerSelect f)
      (f.steps.foldl (lowerBranch f options) (d.report (.stage f.name Stage.steers.name))) := rfl
  rw [hrun]
  have hbranches : Builds f options T (fun _ => True) d (f.steps.foldl (lowerBranch f options)
      (d.report (.stage f.name Stage.steers.name))) :=
    Builds.trans (.report .refl) (foldl_builds fun e step _ he =>
      lowerBranch_builds (he.keeps hd).full (fun _ _ => trivial) trivial)
  exact hbranches.trans (foldl_builds fun e step _ he =>
    lowerSelect_builds (he.keeps (hbranches.keeps hd).full).full (fun _ _ => trivial) step)

/-- The stage of leaves is a proper change. -/
theorem leaves_builds :
    Builds f options T (fun _ => True) d (d.enter f forest options .leaves) := by
  have hensure : Builds f options T (fun _ => True) d
      (f.leaves.foldl (ensure f) (d.report (.stage f.name Stage.leaves.name))) :=
    Builds.trans (.report .refl) (foldl_builds fun _ _ hv _ =>
      .nodeFor .refl (asks_of_mem_leaves hv))
  exact hensure.trans (foldl_sinks_builds (hensure.keeps hd).full
    fun _ _ he htarget => wireLeaves_builds he htarget)

/-- The stage of results is a proper change. -/
theorem results_builds : Builds f options T (fun _ => True) d (d.enter f forest options .results) :=
  have hstart : (d.report (.stage f.name Stage.results.name)).graph.Full := hd
  Builds.trans (.report .refl) (foldl_sinks_builds hstart
    fun _ _ he htarget => wireResults_builds he htarget)

/-- The stages between the one that gives nodes and the one that wires phis are made of changes. -/
theorem enter_builds {stage : Stage} (hstage : stage ∈ [Stage.steers, .leaves, .results]) :
    Builds f options T (fun _ => True) d (d.enter f forest options stage) := by
  simp only [List.mem_cons, List.not_mem_nil, or_false] at hstage
  rcases hstage with rfl | rfl | rfl
  · exact steers_builds hd
  · exact leaves_builds hd
  · exact results_builds hd

end Stages

/-- The third stage makes a node for every leaf. -/
theorem leaves_find? (forest : LoopForest) (options : LowerOptions) (hd : d.graph.Full)
    (hv : v ∈ f.leaves) :
    ∃ n, (d.enter f forest options .leaves).graph.find? v = some n := by
  have hstart : (d.report (.stage f.name Stage.leaves.name)).graph.Full := hd
  have hfull := (keeps_foldl_ensure (f := f) hstart f.leaves).full
  obtain ⟨n, hn⟩ := find?_foldl_ensure (f := f) hstart hv (isLeaf_of_mem_leaves hv)
  have hsinks : Builds f options (fun _ => True) (fun _ => True) _
      (d.enter f forest options .leaves) :=
    foldl_sinks_builds hfull fun _ _ he htarget => wireLeaves_builds he htarget
  exact ⟨n, (hsinks.keeps hfull).owner hn⟩

end Draft

end Dataflow
