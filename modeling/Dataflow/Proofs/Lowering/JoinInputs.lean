import Dataflow.Proofs.Lowering.Inputs

/-!
# Phis are wired exactly

The node of a phi is fed by what the phi takes and by nothing else (`join_inputs`): a carry by what
produces the condition of its loop and its values, a merge by the steers that control the ways of
its arms, or by what produces a value where no branch controls the way. All these edges come from
the stage that wires phis. The other stages may not add one, since their edges enter steers,
operators that are no phis, and loads (`Function.hasEdge_of_enter`).
-/

namespace Dataflow

/-- The draft that a stage starts from. -/
def Function.draftBefore (f : Function) (forest : LoopForest) (options : LowerOptions)
    (stage : Stage) : Draft :=
  (Stage.all.takeWhile (· ≠ stage)).foldl (Draft.enter f forest options) {}

/-- What feeds the node `j` of a phi in block `block` with the given arms, in the finished graph and
on the way to it. -/
structure Function.JoinInputs (f : Function) (forest : LoopForest) (options : LowerOptions)
    (block : BlockId) (arms : List Arm) (j : NodeId) : Prop where
  /-- The node is a carry or a merge. -/
  kind : (f.lowerWith forest options).graph.kind? j = some .carry ∨
    (f.lowerWith forest options).graph.kind? j = some .merge
  /-- A carry takes the condition that decides on another round of its loop, and all values. -/
  carry : (f.lowerWith forest options).graph.kind? j = some .carry →
    ∃ l, forest.carrying? block arms = some l ∧
      ∀ a, a ∈ (f.lowerWith forest options).graph.inputs j ↔
        (∃ cond, f.loopDecider l = some cond ∧ Producers f (f.lowerWith forest options).graph
          (f.lowering forest options).steers cond a) ∨
        ∃ arm ∈ arms, Producers f (f.lowerWith forest options).graph
          (f.lowering forest options).steers arm.value a
  /-- A merge takes each arm through the steer that controls its way, or else directly. -/
  merge : (f.lowerWith forest options).graph.kind? j = some .merge →
    ∀ a, a ∈ (f.lowerWith forest options).graph.inputs j ↔
      ∃ arm ∈ arms, f.ArmTakes options.traceBranches (f.lowering forest options).steers
        (Producers f (f.lowerWith forest options).graph (f.lowering forest options).steers)
        block arm a
  /-- A steer that controls the way of an arm takes the value of the arm. -/
  steer : (f.lowerWith forest options).graph.kind? j = some .merge →
    ∀ arm ∈ arms, ∀ branch taken,
      f.controlling options.traceBranches arm.source block = some (branch, taken) →
      ∃ p, (f.lowering forest options).steers.lookup branch = some p ∧
        ∀ a, Producers f (f.lowerWith forest options).graph (f.lowering forest options).steers
          arm.value a → a ∈ (f.lowerWith forest options).graph.inputs (p.side taken)
  /-- Only the stage that wires phis adds edges into the node. -/
  stage : ∀ stage ≠ .joins, ∀ a,
    ((f.draftBefore forest options stage).enter f forest options stage).graph.hasEdge a j →
    (f.draftBefore forest options stage).graph.hasEdge a j

variable {f : Function} {forest : LoopForest} {options : LowerOptions} {d e : Draft}
  {id : InstId} {a j : NodeId} {arms : List Arm} {block : BlockId}

/-! ## The other stages -/

namespace Draft

/-- The first stage adds no edge. -/
theorem hasEdge_enter_nodes (d : Draft) :
    (d.enter f forest options .nodes).graph.hasEdge a j = d.graph.hasEdge a j := by
  have hstep : ∀ (e : Draft) step, (e.addRole f step).graph.hasEdge a j = e.graph.hasEdge a j := by
    intro e step
    have hnode := hasEdge_nodeFor (f := f) (d := e) (a := a) (b := j) (.result step.1)
    unfold addRole
    split
    · rfl
    · split
      · rename_i heq
        rwa [heq] at hnode
      · rename_i heq
        rwa [heq] at hnode
  exact List.foldlRecOn f.steps (addRole f) (b := d.report (.stage f.name Stage.nodes.name))
    (motive := fun e => e.graph.hasEdge a j = d.graph.hasEdge a j) rfl
    fun e he step _ => (hstep e step).trans he

/-- The stages that wire operators add no edge into a phi. -/
theorem hasEdge_of_enter {stage : Stage} (hstage : stage ∈ [Stage.steers, .leaves, .results])
    (hd : d.graph.Full) (hsound : Sound f (d.enter f forest options stage))
    (hjoin : f.IsJoin id block arms)
    (hop : (d.enter f forest options stage).operator? id = some j)
    (hab : (d.enter f forest options stage).graph.hasEdge a j) : d.graph.hasEdge a j := by
  have hbuilds :
      Builds f options (fun _ => False) (fun _ => True) d (d.enter f forest options stage) :=
    enter_builds hd hstage
  refine (hbuilds.edge hd hab).resolve_right fun henters => ?_
  cases henters with
  | target hfalse => exact hfalse
  | steer hp hside =>
      exact hsound.find?_ne_side hp (operator?_eq_some.mp hop).1 hside.symm
  | operator hphi hx =>
      obtain ⟨ty, hi⟩ := hjoin.instruction
      rw [hsound.operator_unique hx hop, hi] at hphi
      cases hphi

end Draft

/-- A stage other than the one that wires phis adds no edge into a phi. -/
theorem Function.hasEdge_of_enter (hf : f.Whole) (hjoin : f.IsJoin id block arms)
    (hj : (f.lowerWith forest options).graph.find? (.result id) = some j) {stage : Stage}
    (hstage : stage ≠ .joins)
    (hab : ((f.draftBefore forest options stage).enter f forest options stage).graph.hasEdge a j) :
    (f.draftBefore forest options stage).graph.hasEdge a j := by
  obtain ⟨ty, hi⟩ := hjoin.instruction
  have hstep : (id, .phi ty arms) ∈ f.steps := mem_steps.mpr ⟨hf.mem_live hi, hi⟩
  have hbefore := operator_before hstep rfl (by simp) hj
  obtain ⟨hnodes, hnone⟩ : Draft.Lawful f forest options (Draft.enter f forest options {} .nodes) ∧
    _ := Draft.nodes_lawful hf
  have hsteers := Draft.steers_steered hf hnodes hnone
  obtain ⟨hleaves, hfed⟩ := Draft.leaves_fed hsteers
  cases stage with
  | nodes => rwa [Draft.hasEdge_enter_nodes] at hab
  | steers =>
      exact Draft.hasEdge_of_enter (by simp) hnodes.sound.full hsteers.lawful.sound hjoin
        (hbefore [.steers] (by simp)).2 hab
  | leaves =>
      exact Draft.hasEdge_of_enter (by simp) hsteers.lawful.sound.full hleaves.lawful.sound hjoin
        (hbefore [.steers, .leaves] (by simp)).2 hab
  | results =>
      exact Draft.hasEdge_of_enter (by simp) hleaves.lawful.sound.full
        (Draft.results_supplied hf hleaves hfed).lawful.sound hjoin
        (hbefore [.steers, .leaves, .results] (by simp)).2 hab
  | joins => exact absurd rfl hstage
  | memory =>
      have hloads := Draft.memory_feedsInto f forest options
        (f.draftBefore forest options .memory)
      refine (hloads.edge hab).resolve_right fun hload => ?_
      -- the node would be a load in the end
      have hend : (f.lowerWith forest options).graph.kind? j = some .load :=
        Draft.kind?_cleanup f forest options (hloads.kind?.trans hload) (by simp)
      rcases Function.kind_of_isJoin hf hjoin hj with ⟨hk, _⟩ | ⟨hk, _⟩
      · rw [hk] at hend
        cases hend
      · rw [hk] at hend
        cases hend
  | cleanup =>
      rw [Draft.graph_enter_cleanup] at hab
      exact Graph.hasEdge_of_foldl_removeNode hab

/-! ## The result -/

/-- Leaves and selects have their nodes, and the node of a phi is fed by exactly what the phi takes,
and by one stage. -/
theorem join_inputs {text : String} {m : Module} (hread : Module.readChecked text = .ok m)
    (hf : f ∈ m.functions) (hjoin : f.IsJoin id block arms)
    (hj : (f.lowerWith forest options).graph.find? (.result id) = some j) :
    f.Stocked forest options ∧ f.JoinInputs forest options block arms j := by
  have hwhole := (Module.readChecked_checked hread hf).toBound.whole
  have hkind := Function.kind_of_isJoin hwhole hjoin hj
  obtain ⟨d, h⟩ := Draft.yields_lowering hwhole forest options
  have hop : d.operator? id = some j := by rw [← h.operator, ← f.graph_lowerWith, hj]
  have hinput := h.mem_inputs_join hwhole hjoin hj
  have hnone : (f.lowerWith forest options).graph.kind? j = some .merge →
      forest.carrying? block arms = none := by
    intro hmerge
    rcases hkind with ⟨hk, _⟩ | ⟨_, hnone⟩
    · rw [hk] at hmerge
      cases hmerge
    · exact hnone
  have hproducers : Producers f (f.lowerWith forest options).graph
      (f.lowering forest options).steers = Produced f d :=
    funext fun v => funext fun a => propext h.producers
  refine ⟨hwhole.stocked forest options, ?_, fun hkc => ?_, fun hkm a => ?_,
    fun hkm arm harm branch taken hway => ?_,
    fun stage hstage a => Function.hasEdge_of_enter hwhole hjoin hj hstage⟩
  · exact hkind.imp And.left And.left
  · rcases hkind with ⟨_, l, hl⟩ | ⟨hk, _⟩
    · refine ⟨l, hl, fun a => ?_⟩
      rw [hinput, hproducers]
      exact h.wired.hasEdge_carry hjoin hop rfl hl
    · rw [hk] at hkc
      cases hkc
  · rw [hinput, hproducers, h.steers]
    exact h.wired.hasEdge_merge hjoin hop rfl (hnone hkm)
  · obtain ⟨p, hp, hfed⟩ := h.wired.hasEdge_controlled hjoin hop (hnone hkm) harm hway
    refine ⟨p, by rw [h.steers, hp], fun a ha => ?_⟩
    rw [hproducers] at ha
    exact (h.mem_inputs_side hp).mpr (hfed a ha)

/-- A function that takes its parameter on one side of a branch and a literal on the other. -/
def chosenSide : Function where
  name := "f"
  ret := .int 32
  params := [⟨"a", .int 32⟩, ⟨"c", .int 1⟩]
  blocks := [⟨"entry", [0]⟩, ⟨"left", [1]⟩, ⟨"right", [2]⟩, ⟨"join", [3, 4]⟩]
  slots := [
    ⟨none, .branch (.param 1) 1 2, 0⟩,
    ⟨none, .jump 3, 1⟩,
    ⟨none, .jump 3, 2⟩,
    ⟨some "p", .phi (.int 32) [⟨.param 0, 1⟩, ⟨.const ⟨.int 32, "7"⟩, 2⟩], 3⟩,
    ⟨none, .ret (some ⟨.int 32, .result 3⟩), 3⟩]

/-- The text of `chosenSide`. -/
def chosenSideText : String :=
  "define i32 @f(i32 %a, i1 %c) \x7b\nentry:\n  br i1 %c, label %left, label %right\n" ++
    "left:\n  br label %join\nright:\n  br label %join\n" ++
    "join:\n  %p = phi i32 [ %a, %left ], [ 7, %right ]\n  ret i32 %p\n\x7d\n"

theorem read_chosenSide : Module.readChecked chosenSideText = .ok ⟨[chosenSide]⟩ := by
  decide +kernel

theorem join_inputs_chosenSide :
    (chosenSide.lowerWith {} {}).graph.find? (.result 3) = some 0 ∧ chosenSide.Stocked {} {} ∧
      chosenSide.JoinInputs {} {} 3 [⟨.param 0, 1⟩, ⟨.const ⟨.int 32, "7"⟩, 2⟩] 0 :=
  have hnode : (chosenSide.lowerWith {} {}).graph.find? (.result 3) = some 0 := by decide +kernel
  ⟨hnode, join_inputs read_chosenSide List.mem_cons_self ⟨_, .int 32, rfl, rfl, rfl⟩ hnode⟩

end Dataflow
