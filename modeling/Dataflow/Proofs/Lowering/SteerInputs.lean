import Dataflow.Proofs.Lowering.JoinInputs
import Dataflow.Proofs.Lowering.NodeReasons

/-!
# Steers are wired exactly

A steer of a select is fed by what produces the condition and the value of its side. A steer of a
branch is fed by what produces the condition, by the stream if that is asked for, and by what
produces the values that come to a merge by its side (`steer_inputs`). No call and no reservation of
memory may be a condition: those have no operator until they are come to as a condition, so a search
that comes earlier goes past them.
-/

namespace Dataflow

/-- Whether an instruction is a call or reserves memory. -/
def Instruction.isOpaque : Instruction → Bool
  | .call _ _ _ | .alloca _ _ => true
  | _ => false

/-- No condition of a branch or select is the result of a call or reserves memory. -/
def Function.PlainConditions (f : Function) : Prop :=
  ∀ step ∈ f.steps, ∀ c ∈ step.2.condition?.bind Operand.result?,
    (f.instruction? c).any (·.isOpaque) = false

/-- Whether all conditions are plain is decided instruction by instruction. -/
instance (f : Function) : Decidable f.PlainConditions :=
  inferInstanceAs (Decidable (∀ step ∈ f.steps, ∀ c ∈ step.2.condition?.bind Operand.result?,
    (f.instruction? c).any (·.isOpaque) = false))

/-- Node `a` comes by the given side of a branch to a merge that takes the value it produces. -/
def Function.ComesBy (f : Function) (forest : LoopForest) (options : LowerOptions)
    (branch : InstId) (taken : Bool) (a : NodeId) : Prop :=
  ∃ x block arms arm j, f.IsJoin x block arms ∧ arm ∈ arms ∧
    (f.lowerWith forest options).graph.find? (.result x) = some j ∧
    (f.lowerWith forest options).graph.kind? j = some .merge ∧
    f.controlling options.traceBranches arm.source block = some (branch, taken) ∧
    Producers f (f.lowerWith forest options).graph (f.lowering forest options).steers arm.value a

variable {f : Function} {forest : LoopForest} {options : LowerOptions} {d e : Draft}
  {id : InstId} {i : Instruction} {v : Operand} {a j : NodeId} {arms : List Arm} {block : BlockId}
  {p : SteerPair} {taken : Bool}

/-- What can have a node has an operator by its role, unless it is opaque. -/
theorem Instruction.isSolid_of_hasNode (h : i.hasNode = true) (hi : i.isOpaque = false) :
    i.isSolid = true := by
  cases i with
  | compare test => cases test <;> simp [isSolid, role?]
  | ret value => cases value <;> simp_all [isSolid, role?, hasNode]
  | _ => simp_all [isSolid, role?, hasNode, isOpaque]

/-- Then only roles give operators. -/
theorem Function.PlainConditions.isSolid (hf : f.PlainConditions) (h : f.HasOperator id) :
    f.IsSolid id := by
  rcases h with hsolid | ⟨⟨i, hi, hnode⟩, x, j, hx, hj, hcond⟩
  · exact hsolid
  · have hplain := hf (x, j) (mem_steps.mpr ⟨hx, hj⟩) id (by simp [hcond, Operand.result?])
    exact ⟨i, hi, Instruction.isSolid_of_hasNode hnode (by simpa [hi] using hplain)⟩

/-- With plain conditions a value is traced to what produces it. -/
theorem Function.PlainConditions.traced_iff (hf : f.PlainConditions) :
    Traced f d v a ↔ Produced f d v a :=
  ⟨fun h => h.mono fun _ hx hhas => hx (hf.isSolid hhas),
    fun h => h.mono fun _ hx hsolid => hx (Or.inl hsolid)⟩

namespace Draft

section Side

variable (h : Wired f forest options d) (hplain : f.PlainConditions)
  (hp : d.steers.lookup id = some p) (hi : f.instruction? id = some i)

include h hp hi

/-- Why something feeds a steer. A search for the condition or the value of its side may have gone
past an operator that was not in time. -/
theorem Wired.side_reason (hoff : options.memoryDependencies = false)
    (hab : d.graph.hasEdge a (p.side taken)) :
    (∃ v, (i.condition? = some v ∨ i.choice? taken = some v) ∧
        Supplies f d (fun x => ¬ f.InTime d.steers id x) v a) ∨
      (options.entryStream = true ∧ d.stream = some a ∧
        ∃ cond onTrue onFalse, i = .branch cond onTrue onFalse) ∨
      ∃ x block arms arm, f.IsJoin x block arms ∧ arm ∈ arms ∧
        forest.carrying? block arms = none ∧
        f.controlling options.traceBranches arm.source block = some (id, taken) ∧
        Produced f d arm.value a := by
  have hsound := h.lawful.sound
  generalize hb : p.side taken = b at hab
  -- a pair with this steer is the pair of this instruction
  have hthis : ∀ {x q side}, d.steers.lookup x = some q → SteerPair.side q side = b →
      x = id ∧ side = taken :=
    fun hq hside => hsound.steer_unique hq hp (hside.trans hb.symm)
  have hoperator : ∀ {x}, d.operator? x ≠ some b := by
    intro x hx
    exact hsound.find?_ne_side hp (operator?_eq_some.mp hx).1 hb.symm
  cases h.lawful.justified hab with
  | operand _ _ _ hx | entry _ _ _ _ _ hx | carried _ hx | decider _ hx | merged _ hx
  | steered _ hx => exact absurd (by assumption) hoperator
  | condition hq hj hcond ha =>
      obtain ⟨rfl, rfl⟩ := hthis hq rfl
      rw [hi] at hj
      cases hj
      exact Or.inl ⟨_, Or.inl hcond, ha⟩
  | choice hq hj hchoice ha =>
      obtain ⟨rfl, rfl⟩ := hthis hq rfl
      rw [hi] at hj
      cases hj
      exact Or.inl ⟨_, Or.inr hchoice, ha⟩
  | stream hon hstream hq hj =>
      obtain ⟨rfl, rfl⟩ := hthis hq rfl
      rw [hi] at hj
      cases hj
      exact Or.inr (Or.inl ⟨hon, hstream, _, _, _, rfl⟩)
  | controlled hjoin hmerge harm hway hq ha =>
      obtain ⟨rfl, rfl⟩ := hthis hq rfl
      exact Or.inr (Or.inr ⟨_, _, _, _, hjoin, harm, hmerge, hway, ha⟩)
  | memory hon =>
      rw [hoff] at hon
      cases hon

include hplain

/-- What produces the condition and the value of a side feeds the steer of that side. -/
theorem Wired.hasEdge_pair (hv : i.condition? = some v ∨ i.choice? taken = some v)
    (ha : Produced f d v a) : d.graph.hasEdge a (p.side taken) := by
  refine ((h.fed hp).traced hi hv).hasEdge h.lawful.sound (fun x n hop hnot => ?_)
    (hplain.traced_iff.mpr ha)
  exact hnot (hplain.isSolid (h.lawful.sound.operator hop))

/-- What feeds a steer: what produces the condition and the value of its side, the stream, and what
comes by its side to a merge. -/
theorem Wired.hasEdge_side (hoff : options.memoryDependencies = false) :
    d.graph.hasEdge a (p.side taken) ↔
      (∃ v, (i.condition? = some v ∨ i.choice? taken = some v) ∧ Produced f d v a) ∨
      (options.entryStream = true ∧ d.stream = some a ∧
        ∃ cond onTrue onFalse, i = .branch cond onTrue onFalse) ∨
      ∃ x block arms arm, f.IsJoin x block arms ∧ arm ∈ arms ∧
        forest.carrying? block arms = none ∧
        f.controlling options.traceBranches arm.source block = some (id, taken) ∧
        Produced f d arm.value a := by
  constructor
  · intro hab
    refine (h.side_reason hp hi hoff hab).imp_left fun hex => ?_
    obtain ⟨v, hv, ha⟩ := hex
    exact ⟨v, hv, hplain.traced_iff.mp (ha.mono fun _ => mt Or.inl)⟩
  · intro hex
    rcases hex with ⟨v, hv, ha⟩ | ⟨hon, hstream, cond, onTrue, onFalse, rfl⟩ |
      ⟨x, block, arms, arm, hjoin, harm, hmerge, hway, ha⟩
    · exact h.hasEdge_pair hplain hp hi hv ha
    · obtain ⟨n, hn, hedge⟩ := h.streamed hon id cond onTrue onFalse p hi hp
      rw [hstream] at hn
      cases hn
      exact hedge taken
    · obtain ⟨ty, hx⟩ := hjoin.instruction
      obtain ⟨join, hop⟩ := h.lawful.classified ⟨_, hx, rfl⟩
      obtain ⟨q, hq, hfed⟩ := h.hasEdge_controlled hjoin hop hmerge harm hway
      rw [hp] at hq
      cases hq
      exact hfed a ha

end Side

section Final

variable (h : Yields f forest options d (f.lowering forest options))

include h

/-- What comes by a side of a branch to a merge, told by the draft before memory is wired. -/
theorem Yields.comesBy_iff (hf : f.Whole) : f.ComesBy forest options id taken a ↔
    ∃ x block arms arm, f.IsJoin x block arms ∧ arm ∈ arms ∧
      forest.carrying? block arms = none ∧
      f.controlling options.traceBranches arm.source block = some (id, taken) ∧
      Produced f d arm.value a := by
  constructor
  · intro hex
    obtain ⟨x, block, arms, arm, j, hjoin, harm, hj, hk, hway, ha⟩ := hex
    exact ⟨x, block, arms, arm, hjoin, harm, (Function.kind_merge_iff hf hjoin hj).mp hk, hway,
      h.producers.mp ha⟩
  · intro hex
    obtain ⟨x, block, arms, arm, hjoin, harm, hnone, hway, ha⟩ := hex
    obtain ⟨ty, hi⟩ := hjoin.instruction
    obtain ⟨j, _, hj, _⟩ := f.kind_lowerWith forest options
      (Function.mem_steps.mpr ⟨hf.mem_live hi, hi⟩) rfl (by simp)
    exact ⟨x, block, arms, arm, j, hjoin, harm, hj,
      (Function.kind_merge_iff hf hjoin hj).mpr hnone, hway, h.producers.mpr ha⟩

/-- The stream is the node whose operator says so. -/
theorem Yields.stream_iff :
    d.stream = some a ↔ (f.lowerWith forest options).graph.kind? a = some .stream := by
  constructor
  · intro ha
    refine h.kind (Graph.kind?_eq_some.mpr ⟨_, h.wired.lawful.sound.stream ha, rfl⟩) (by simp)
  · intro hk
    rw [← h.stream]
    exact stream_of_kind hk

section Side

variable (hf : f.Whole) (hplain : f.PlainConditions) (hp : d.steers.lookup id = some p)

include hf hplain hp

/-- What feeds a steer in the finished graph. -/
theorem Yields.side_inputs (hi : f.instruction? id = some i) :
    a ∈ (f.lowerWith forest options).graph.inputs (p.side taken) ↔
      (∃ v, (i.condition? = some v ∨ i.choice? taken = some v) ∧
        Producers f (f.lowerWith forest options).graph (f.lowering forest options).steers v a) ∨
      (options.entryStream = true ∧
        (f.lowerWith forest options).graph.kind? a = some .stream ∧
        ∃ cond onTrue onFalse, i = .branch cond onTrue onFalse) ∨
      f.ComesBy forest options id taken a := by
  have hproducers : Producers f (f.lowerWith forest options).graph
      (f.lowering forest options).steers = Produced f d :=
    funext fun v => funext fun a => propext h.producers
  rw [hproducers, h.comesBy_iff hf, ← h.stream_iff, f.graph_lowerWith, h.mem_inputs_side hp]
  exact h.wired.hasEdge_side hplain hp hi rfl

/-- A side of the steers of a select takes the producers of the condition and of its own value. -/
theorem Yields.side_of_select {cond onTrue onFalse : Operand} {ty : Ty}
    (hi : f.instruction? id = some (.select cond ty onTrue onFalse)) :
    a ∈ (f.lowerWith forest options).graph.inputs (p.side taken) ↔
      Producers f (f.lowerWith forest options).graph (f.lowering forest options).steers cond a ∨
      Producers f (f.lowerWith forest options).graph (f.lowering forest options).steers
        (if taken then onTrue else onFalse) a := by
  rw [h.side_inputs hf hplain hp hi]
  constructor
  · intro hex
    rcases hex with ⟨v, hv | hv, ha⟩ | ⟨_, _, _, _, _, hbranch⟩ | hcomes
    · cases hv
      exact Or.inl ha
    · cases hv
      exact Or.inr ha
    · cases hbranch
    · -- only branches control ways
      obtain ⟨_, _, _, _, _, _, _, _, _, hway, _⟩ := hcomes
      obtain ⟨cond', onTrue', onFalse', hbranch⟩ := Function.controlling?_eq_some hway
      rw [hi] at hbranch
      cases hbranch
  · intro hex
    rcases hex with ha | ha
    · exact Or.inl ⟨cond, Or.inl rfl, ha⟩
    · exact Or.inl ⟨_, Or.inr rfl, ha⟩

/-- A side of the steers of a branch takes the producers of the condition, the stream, and what
comes by. -/
theorem Yields.side_of_branch {cond : Operand} {onTrue onFalse : BlockId}
    (hi : f.instruction? id = some (.branch cond onTrue onFalse)) :
    a ∈ (f.lowerWith forest options).graph.inputs (p.side taken) ↔
      Producers f (f.lowerWith forest options).graph (f.lowering forest options).steers cond a ∨
      (options.entryStream = true ∧
        (f.lowerWith forest options).graph.kind? a = some .stream) ∨
      f.ComesBy forest options id taken a := by
  rw [h.side_inputs hf hplain hp hi]
  refine or_congr ⟨fun hex => ?_, fun ha => ⟨cond, Or.inl rfl, ha⟩⟩
    (or_congr ⟨fun hex => ⟨hex.1, hex.2.1⟩, fun hex => ⟨hex.1, hex.2, _, _, _, rfl⟩⟩ Iff.rfl)
  obtain ⟨v, hv | hv, ha⟩ := hex
  · cases hv
    exact ha
  · cases hv

end Side

end Final

end Draft

/-! ## The result -/

/-- What feeds the steers of every branch and select in the finished graph. -/
structure Function.SteerInputs (f : Function) (forest : LoopForest) (options : LowerOptions) :
    Prop where
  /-- A pair has a steer for either side. -/
  kind : ∀ {id p}, (f.lowering forest options).steers.lookup id = some p →
    (f.lowerWith forest options).graph.kind? p.onTrue = some .trueSteer ∧
    (f.lowerWith forest options).graph.kind? p.onFalse = some .falseSteer
  /-- Each side of a select takes the condition and the value of that side. -/
  select : ∀ {id cond ty onTrue onFalse}, (id, .select cond ty onTrue onFalse) ∈ f.steps →
    ∃ p, (f.lowering forest options).steers.lookup id = some p ∧ ∀ taken a,
      a ∈ (f.lowerWith forest options).graph.inputs (p.side taken) ↔
        Producers f (f.lowerWith forest options).graph (f.lowering forest options).steers cond a ∨
        Producers f (f.lowerWith forest options).graph (f.lowering forest options).steers
          (if taken then onTrue else onFalse) a
  /-- Each side of a branch takes the condition, the stream if that is asked for, and what comes by
  it to a merge. -/
  branch : ∀ {id cond onTrue onFalse}, (id, .branch cond onTrue onFalse) ∈ f.steps →
    ∃ p, (f.lowering forest options).steers.lookup id = some p ∧ ∀ taken a,
      a ∈ (f.lowerWith forest options).graph.inputs (p.side taken) ↔
        Producers f (f.lowerWith forest options).graph (f.lowering forest options).steers cond a ∨
        (options.entryStream = true ∧
          (f.lowerWith forest options).graph.kind? a = some .stream) ∨
        f.ComesBy forest options id taken a
  /-- If there is a branch and the stream is asked for, then there is one stream. -/
  stream : ∀ {id cond onTrue onFalse}, (id, .branch cond onTrue onFalse) ∈ f.steps →
    options.entryStream = true →
      ∃ n, ∀ a, (f.lowerWith forest options).graph.kind? a = some .stream ↔ a = n

/-- Leaves and selects have their nodes, and the steers of branches and selects are fed by exactly
what they pass on and what they pass it on by. -/
theorem steer_inputs {text : String} {m : Module} (hread : Module.readChecked text = .ok m)
    (hf : f ∈ m.functions) (hplain : f.PlainConditions) (forest : LoopForest)
    (options : LowerOptions) : f.Stocked forest options ∧ f.SteerInputs forest options := by
  have hwhole := (Module.readChecked_checked hread hf).toBound.whole
  obtain ⟨d, h⟩ := Draft.yields_lowering hwhole forest options
  refine ⟨hwhole.stocked forest options, fun {id p} hp => ?_,
    fun {id cond ty onTrue onFalse} hid => ?_, fun {id cond onTrue onFalse} hid => ?_,
    fun {id cond onTrue onFalse} hid hon => ?_⟩
  · rw [h.steers] at hp
    obtain ⟨htrue, hfalse⟩ := h.wired.lawful.sound.steer hp
    exact ⟨h.kind (Graph.kind?_eq_some.mpr ⟨_, htrue, rfl⟩) (by simp),
      h.kind (Graph.kind?_eq_some.mpr ⟨_, hfalse, rfl⟩) (by simp)⟩
  · obtain ⟨_, hi⟩ := Function.mem_steps.mp hid
    obtain ⟨p, hp⟩ := h.wired.paired hi rfl
    exact ⟨p, by rw [h.steers, hp], fun taken a => h.side_of_select hwhole hplain hp hi⟩
  · obtain ⟨_, hi⟩ := Function.mem_steps.mp hid
    obtain ⟨p, hp⟩ := h.wired.paired hi rfl
    exact ⟨p, by rw [h.steers, hp], fun taken a => h.side_of_branch hwhole hplain hp hi⟩
  · obtain ⟨_, hi⟩ := Function.mem_steps.mp hid
    obtain ⟨p, hp⟩ := h.wired.paired hi rfl
    obtain ⟨n, hn, _⟩ := h.wired.streamed hon id cond onTrue onFalse p hi hp
    refine ⟨n, fun a => (h.stream_iff).symm.trans ?_⟩
    rw [hn, Option.some.injEq]
    exact eq_comm

/-- A function that branches on the test that it also selects by. -/
def clampedSide : Function where
  name := "f"
  ret := .int 32
  params := [⟨"a", .int 32⟩]
  blocks := [⟨"entry", [0, 1, 2]⟩, ⟨"left", [3]⟩, ⟨"right", [4]⟩, ⟨"join", [5, 6]⟩]
  slots := [
    ⟨some "t", .compare (.int .slt) (.int 32) (.param 0) (.const ⟨.int 32, "0"⟩), 0⟩,
    ⟨some "b", .select (.result 0) (.int 32) (.const ⟨.int 32, "0"⟩) (.param 0), 0⟩,
    ⟨none, .branch (.result 0) 1 2, 0⟩,
    ⟨none, .jump 3, 1⟩,
    ⟨none, .jump 3, 2⟩,
    ⟨some "p", .phi (.int 32) [⟨.result 1, 1⟩, ⟨.param 0, 2⟩], 3⟩,
    ⟨none, .ret (some ⟨.int 32, .result 5⟩), 3⟩]

/-- The text of `clampedSide`. -/
def clampedSideText : String :=
  "define i32 @f(i32 %a) \x7b\nentry:\n  %t = icmp slt i32 %a, 0\n" ++
    "  %b = select i1 %t, i32 0, i32 %a\n  br i1 %t, label %left, label %right\n" ++
    "left:\n  br label %join\nright:\n  br label %join\n" ++
    "join:\n  %p = phi i32 [ %b, %left ], [ %a, %right ]\n  ret i32 %p\n\x7d\n"

/-- The text of a clamped side is read as the function. -/
theorem read_clampedSide : Module.readChecked clampedSideText = .ok ⟨[clampedSide]⟩ := by
  decide +kernel

/-- A clamped side has plain conditions, its leaves and selects are in the graph, and each side
takes just its producers. -/
theorem steer_inputs_clampedSide :
    clampedSide.PlainConditions ∧ clampedSide.Stocked clampedSide.loopForest {} ∧
      clampedSide.SteerInputs clampedSide.loopForest {} :=
  have hplain : clampedSide.PlainConditions := by decide
  ⟨hplain, steer_inputs read_clampedSide List.mem_cons_self hplain clampedSide.loopForest {}⟩

end Dataflow
