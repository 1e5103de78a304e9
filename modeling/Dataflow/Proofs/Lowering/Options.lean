import Dataflow.Proofs.Lowering.JoinChoices
import Dataflow.Proofs.Lowering.MemoryOption
import Dataflow.Proofs.Lowering.StreamOption
import Dataflow.Proofs.Text.Binding

/-!
# Options do not get in each other's way

Each choice in lowering changes its own part of the graph and no other (`options_apart`). The option
about memory adds the edges from stores to loads, the one about the stream adds the stream, and the
way in which loops and plain branches are seen shows in the nodes of phis and in what feeds them and
the steers of branches (`Draft.joins_shows`).
-/

namespace Dataflow

/-- A node that takes values for phis: that of a phi or a steer of a branch. -/
def Function.TakesForPhi (f : Function) (d : Draft) (n : NodeId) : Prop :=
  f.IsPhiNode d.graph n ∨ f.IsBranchSteer d.steers n

/-- Two runs of lowering that differ in one choice. -/
structure Function.OptionsApart (f : Function) : Prop where
  /-- The option about memory adds the edges from stores to loads. -/
  memory : ∀ (forest : LoopForest) (options : LowerOptions),
    (f.lowerWith forest { options with memoryDependencies := false }).graph.AddsMemory f
      (f.lowerWith forest { options with memoryDependencies := true }).graph
  /-- The option about the stream adds it to a function that branches, and does nothing for any
  other. -/
  stream : ∀ (forest : LoopForest) (options : LowerOptions),
    (f.steps.any (·.2.isBranch) = true → ∃ k,
      (f.lowerWith forest { options with entryStream := false }).graph.AddsStream k
        (f.IsBranchSteer (f.lowering forest { options with entryStream := true }).steers)
        (f.lowerWith forest { options with entryStream := true }).graph) ∧
    (f.steps.any (·.2.isBranch) = false →
      (f.lowerWith forest { options with entryStream := false }).graph.Shows none (fun _ => False)
        (fun _ => False) (f.lowerWith forest { options with entryStream := true }).graph)
  /-- Other loops and another way to trace branches show in phis and what feeds them. -/
  joins : ∀ (forest forest' : LoopForest) (options : LowerOptions) (trace : Bool),
    (f.lowerWith forest options).graph.Shows none
      (f.IsPhiNode (f.lowerWith forest options).graph)
      (f.TakesForPhi (f.lowering forest options))
      (f.lowerWith forest' { options with traceBranches := trace }).graph

variable {f : Function} {forest : LoopForest} {options : LowerOptions} {id : InstId} {n : NodeId}
  {arms : List Arm} {block : BlockId} {p : SteerPair}

namespace Draft

/-! ## Phis -/

/-- The node of a phi is there before phis are wired. -/
theorem find?_join (hf : f.Whole) (forest : LoopForest) (options : LowerOptions)
    (hjoin : f.IsJoin id block arms) :
    ([Stage.nodes, .steers, .leaves, .results].foldl (Draft.enter f forest options)
        {}).graph.find? (.result id) =
      (f.lowerWith forest options).graph.find? (.result id) := by
  obtain ⟨ty, hi⟩ := hjoin.instruction
  have hstep := Function.mem_steps.mpr ⟨hf.mem_live hi, hi⟩
  obtain ⟨n, _, hn, _⟩ := f.kind_lowerWith forest options hstep rfl (by simp)
  obtain ⟨_, hop⟩ := f.operator_before hstep rfl (by simp) hn [.steers, .leaves, .results]
    (by simp)
  rw [hn]
  exact (operator?_eq_some.mp hop).1

/-- A pair of steers that is there then is there in the end. -/
theorem lookup_lowering (hf : f.Whole)
    (hp : ([Stage.nodes, .steers, .leaves, .results].foldl (Draft.enter f forest options)
      {}).steers.lookup id = some p) : (f.lowering forest options).steers.lookup id = some p := by
  have hfull := (supplied_of_whole hf forest options).lawful.sound.full
  have hrun : f.lowering forest options = [Stage.memory, .cleanup].foldl
      (Draft.enter f forest options) ([Stage.joins].foldl (Draft.enter f forest options)
        ([Stage.nodes, .steers, .leaves, .results].foldl (Draft.enter f forest options) {})) := rfl
  rw [hrun]
  obtain ⟨_, hjoins⟩ := foldl_enter_induct f forest options [Stage.joins]
    (I := fun e => e.steers.lookup id = some p) (fun _ hb h => hb.steers h) (fun _ _ _ h => h)
    (by simp) hfull hp
  rwa [steers_last]

/-- Other loops and another way to trace branches show in phis and what feeds them. -/
theorem joins_shows (hf : f.Whole) (forest forest' : LoopForest) (options : LowerOptions)
    (trace : Bool) : (f.lowerWith forest options).graph.Shows none
      (f.IsPhiNode (f.lowerWith forest options).graph)
      (f.TakesForPhi (f.lowering forest options))
      (f.lowerWith forest' { options with traceBranches := trace }).graph := by
  have hsettled : Settled f (f.IsPhiNode (f.lowerWith forest options).graph)
      (f.TakesForPhi (f.lowering forest options))
      ([Stage.nodes, .steers, .leaves, .results].foldl (Draft.enter f forest options) {}) := by
    refine settled_before hf forest options (fun n hn => ?_) fun n hn => ?_
    · obtain ⟨id, block, arms, hjoin, hn⟩ := hn
      have hphi : f.IsPhiNode (f.lowerWith forest options).graph n :=
        ⟨id, block, arms, hjoin, (find?_join hf forest options hjoin).symm.trans hn⟩
      exact ⟨hphi, Or.inl hphi⟩
    · obtain ⟨id, cond, onTrue, onFalse, p, taken, hi, hp, hn⟩ := hn
      exact Or.inr ⟨id, cond, onTrue, onFalse, p, taken, hi, lookup_lowering hf hp, hn⟩
  -- up to there the two runs are the same
  have hstart : Mirrors none (f.IsPhiNode (f.lowerWith forest options).graph)
      (f.TakesForPhi (f.lowering forest options))
      ([Stage.nodes, .steers, .leaves, .results].foldl (Draft.enter f forest options) {})
      ([Stage.nodes, .steers, .leaves, .results].foldl
        (Draft.enter f forest' { options with traceBranches := trace }) {}) := by
    refine Mirrors.refl (supplied_of_whole hf forest options).lawful.sound fun hn => ?_
    obtain ⟨id, block, arms, hjoin, hn⟩ := hn
    obtain ⟨ty, hi⟩ := hjoin.instruction
    exact joins_before f forest options hjoin (hf.mem_live hi)
      ((find?_join hf forest options hjoin).trans hn)
  have hjoins := hsettled.enter_joins hstart forest forest' options
    { options with traceBranches := trace }
  exact (hjoins.enter_memory rfl forest forest').enter_cleanup
    (wired_of_whole hf forest options).lawful
    (wired_of_whole hf forest' { options with traceBranches := trace }).lawful

end Draft

/-! ## The result -/

/-- Each choice in lowering changes its own part of the graph and no other. -/
theorem options_apart {text : String} {m : Module} (hread : Module.read text = .ok m)
    (hf : f ∈ m.functions) : f.OptionsApart := by
  have hwhole := (Module.read_bound hread hf).whole
  exact {
    memory := Draft.adds_memory hwhole
    stream := fun forest options => Draft.adds_stream { options with entryStream := false }
      { options with entryStream := true } rfl rfl hwhole rfl rfl forest
    joins := Draft.joins_shows hwhole }

/-- A loop that adds up what it reads from where the entry block has written. -/
def polledSum : Function where
  name := "f"
  ret := .int 32
  params := [⟨"p", .ptr⟩, ⟨"n", .int 32⟩]
  blocks := [⟨"entry", [0, 1]⟩, ⟨"loop", [2, 3, 4, 5, 6]⟩, ⟨"out", [7]⟩]
  slots := [
    ⟨none, .store ⟨.int 32, .param 1⟩ ⟨.ptr, .param 0⟩, 0⟩,
    ⟨none, .jump 1, 0⟩,
    ⟨some "s", .phi (.int 32) [⟨.const ⟨.int 32, "0"⟩, 0⟩, ⟨.result 4, 1⟩], 1⟩,
    ⟨some "x", .load (.int 32) ⟨.ptr, .param 0⟩, 1⟩,
    ⟨some "t", .binary .add (.int 32) (.result 2) (.result 3), 1⟩,
    ⟨some "go", .compare (.int .slt) (.int 32) (.result 4) (.param 1), 1⟩,
    ⟨none, .branch (.result 5) 1 2, 1⟩,
    ⟨none, .ret (some ⟨.int 32, .result 4⟩), 2⟩]

/-- The text of `polledSum`. -/
def polledSumText : String :=
  "define i32 @f(ptr %p, i32 %n) \x7b\nentry:\n  store i32 %n, ptr %p\n  br label %loop\n" ++
    "loop:\n  %s = phi i32 [ 0, %entry ], [ %t, %loop ]\n  %x = load i32, ptr %p\n" ++
    "  %t = add i32 %s, %x\n  %go = icmp slt i32 %t, %n\n" ++
    "  br i1 %go, label %loop, label %out\nout:\n  ret i32 %t\n\x7d\n"

theorem read_polledSum : Module.read polledSumText = .ok ⟨[polledSum]⟩ := by
  decide +kernel

theorem options_apart_polledSum :
    Module.read polledSumText = .ok ⟨[polledSum]⟩ ∧ polledSum.OptionsApart :=
  ⟨read_polledSum, options_apart read_polledSum List.mem_cons_self⟩

-- only with the option does the store feed the load
example : (polledSum.lowerWith polledSum.loopForest {}).graph.hasEdge 0 2 = false ∧
    (polledSum.lowerWith polledSum.loopForest { memoryDependencies := true }).graph.hasEdge
      0 2 = true := by
  decide +kernel

-- without loops the sum is a merge
example : (polledSum.lowerWith polledSum.loopForest {}).graph.kind? 1 = some .carry ∧
    (polledSum.lowerWith {} {}).graph.kind? 1 = some .merge := by
  decide +kernel

end Dataflow
