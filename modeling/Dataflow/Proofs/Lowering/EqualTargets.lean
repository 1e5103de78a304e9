import Dataflow.Proofs.Lowering.ControllingBranch
import Dataflow.Proofs.Lowering.SharedSteers

/-!
# Branches with equal targets

A conditional branch may name one block twice. The side of such a branch that leads to the block is
looked for among its targets with the true one first, so it is always the true side. Hence a merge
that is entered by such a branch gets a value only where the condition holds, although control takes
the same way where it fails: a value is not delivered both ways (`not_deliversBothWays_sameTarget`).
What the lowering does instead is told by `one_sided`.
-/

namespace Dataflow

/-- Where a branch with equal targets controls the way of an arm, the value of the arm goes to the
merge by both sides of the branch, or directly. -/
def Function.DeliversBothWays (f : Function) (forest : LoopForest) (options : LowerOptions) :
    Prop :=
  ∀ r block arms j, f.IsJoin r block arms →
    (f.lowerWith forest options).graph.find? (.result r) = some j →
    (f.lowerWith forest options).graph.kind? j = some .merge →
    ∀ arm ∈ arms, ∀ branch taken cond target,
      f.controlling options.traceBranches arm.source block = some (branch, taken) →
      f.instruction? branch = some (.branch cond target target) →
      (∀ side, f.GoesBy forest options arm.value branch side j) ∨
      ∀ a, Producers f (f.lowerWith forest options).graph (f.lowering forest options).steers
        arm.value a → a ∈ (f.lowerWith forest options).graph.inputs j

/-- The value of an arm goes to a merge by the true side of a branch alone, whichever side control
takes. -/
structure Function.OneSided (f : Function) (forest : LoopForest) (options : LowerOptions)
    (block : BlockId) (arm : Arm) (branch : InstId) (j : NodeId) : Prop where
  /-- The value goes by the true side. -/
  goes : f.GoesBy forest options arm.value branch true j
  /-- Nothing goes by the false side. -/
  apart : ∀ p, (f.lowering forest options).steers.lookup branch = some p →
    p.onFalse ∉ (f.lowerWith forest options).graph.inputs j
  /-- Where control can come by one side of the branch last, it can come by the other. -/
  either : ∀ w side earlier, f.Travels (block :: arm.source :: w) ((branch, side) :: earlier) →
    f.Travels (block :: arm.source :: w) ((branch, !side) :: earlier)

namespace Function

variable {f : Function} {trace taken side : Bool} {seen w : List BlockId}
  {source block target : BlockId} {r branch : InstId} {arms : List Arm} {arm : Arm} {cond : Operand}
  {sides earlier : List (InstId × Bool)}

/-- An arm comes by a way of the function. -/
theorem IsJoin.mem_successors (hjoin : f.IsJoin r block arms) (h : f.Checked) (harm : arm ∈ arms) :
    block ∈ f.successors arm.source := by
  obtain ⟨_, hr⟩ := hjoin.instruction
  obtain ⟨s, ty, hs, hi, rfl⟩ := hjoin
  exact (mem_predecessors.mp (h.shaped.arm (h.toBound.whole.mem_live hr) hs hi harm)).2

/-- A climb from a way of the function to a branch with equal targets finds the true side. -/
theorem Climbs.taken_of_equal (hi : f.instruction? branch = some (.branch cond target target))
    (hway : block ∈ f.successors source)
    (h : f.Climbs trace seen source block (some (branch, taken))) : taken = true := by
  generalize hanswer : some (branch, taken) = answer at h
  induction h with
  | decided hid hi' =>
      cases hanswer
      cases hi.symm.trans hi'
      rw [successors_eq_of_terminator hid hi] at hway
      simpa [Instruction.successors, eq_comm] using hway
  | climbed _ _ _ hpred _ _ ih =>
      exact ih (mem_predecessors.mp (hpred ▸ List.mem_singleton_self _)).2 hanswer
  | stopped => cases hanswer

/-- Where control leaves a branch with equal targets last, it may as well take the other side. -/
theorem Travels.other (hi : f.instruction? branch = some (.branch cond target target))
    (h : f.Travels w ((branch, side) :: earlier)) :
    f.Travels w ((branch, !side) :: earlier) := by
  generalize hsides : (branch, side) :: earlier = sides at h
  induction h with
  | start => cases hsides
  | jump _ hid hjump ih => exact (ih hsides).jump hid hjump
  | branch taken hw hid hi' =>
      cases hsides
      cases hi.symm.trans hi'
      simpa using hw.branch (!side) hid hi

end Function

variable {f : Function} {forest : LoopForest} {options : LowerOptions} {r branch : InstId}
  {block target : BlockId} {arms : List Arm} {arm : Arm} {j : NodeId} {taken : Bool}
  {cond : Operand}

/-- A merge whose way is controlled by a branch with equal targets takes the value by the true side
alone. -/
theorem one_sided {text : String} {m : Module} (hread : Module.readChecked text = .ok m)
    (hf : f ∈ m.functions) (hjoin : f.IsJoin r block arms)
    (hj : (f.lowerWith forest options).graph.find? (.result r) = some j)
    (hk : (f.lowerWith forest options).graph.kind? j = some .merge) (harm : arm ∈ arms)
    (hway : f.controlling options.traceBranches arm.source block = some (branch, taken))
    (hi : f.instruction? branch = some (.branch cond target target)) :
    f.OneSided forest options block arm branch j := by
  have hchecked := Module.readChecked_checked hread hf
  have hwhole := hchecked.toBound.whole
  obtain ⟨d, h⟩ := Draft.yields_lowering hwhole forest options
  have htrue : ∀ arm ∈ arms, ∀ side,
      f.controlling options.traceBranches arm.source block = some (branch, side) →
      side = true := by
    intro arm harm side hside
    have hclimbs := f.climbs_controlling options.traceBranches arm.source block
    rw [hside] at hclimbs
    exact hclimbs.taken_of_equal hi (hjoin.mem_successors hchecked harm)
  obtain rfl := htrue arm harm taken hway
  refine ⟨h.goesBy hwhole hjoin hj hk harm hway, fun p hp hfalse => ?_, fun w side earlier hw =>
    hw.other hi⟩
  rw [h.steers] at hp
  have hedge : p.side false ∈ (f.lowerWith forest options).graph.inputs j := hfalse
  obtain ⟨arm', harm', hway'⟩ := h.controls hwhole hjoin hj hk hi hp hedge
  cases htrue arm' harm' false hway'

/-- A value that is passed on by a branch with equal targets. -/
def sameTarget : Function where
  name := "f"
  ret := .int 32
  params := [⟨"c", .int 1⟩, ⟨"a", .int 32⟩]
  blocks := [⟨"entry", [0]⟩, ⟨"join", [1, 2]⟩]
  slots := [
    ⟨none, .branch (.param 0) 1 1, 0⟩,
    ⟨some "p", .phi (.int 32) [⟨.param 1, 0⟩], 1⟩,
    ⟨none, .ret (some ⟨.int 32, .result 1⟩), 1⟩]

/-- The text of `sameTarget`. -/
def sameTargetText : String :=
  "define i32 @f(i1 %c, i32 %a) \x7b\nentry:\n  br i1 %c, label %join, label %join\n" ++
    "join:\n  %p = phi i32 [ %a, %entry ]\n  ret i32 %p\n\x7d\n"

theorem read_sameTarget : Module.readChecked sameTargetText = .ok ⟨[sameTarget]⟩ := by
  decide +kernel

/-- The value `%a` goes to the merge `%p` by the true side alone, so it is lost if `%c` fails. -/
theorem not_deliversBothWays_sameTarget :
    Module.readChecked sameTargetText = .ok ⟨[sameTarget]⟩ ∧
    ¬ sameTarget.DeliversBothWays sameTarget.loopForest {} := by
  refine ⟨read_sameTarget, fun h => ?_⟩
  have hways := h 1 1 _ 0 ⟨_, .int 32, rfl, rfl, rfl⟩ (by decide +kernel) (by decide +kernel)
    ⟨.param 1, 0⟩ List.mem_cons_self 0 true (.param 0) 1 (by decide +kernel) rfl
  have hpair : (sameTarget.lowering sameTarget.loopForest {}).steers.lookup 0 = some ⟨3, 4⟩ := by
    decide +kernel
  rcases hways with hboth | hdirect
  · obtain ⟨p, hp, _, _, hfalse⟩ := hboth false
    rw [hpair] at hp
    cases hp
    exact absurd hfalse (by decide +kernel)
  · have hvalue := hdirect 6 (.leaf rfl (by decide +kernel))
    exact absurd hvalue (by decide +kernel)

theorem one_sided_sameTarget :
    sameTarget.controlling true 0 1 = some (0, true) ∧
      sameTarget.OneSided sameTarget.loopForest {} 1 ⟨.param 1, 0⟩ 0 0 := by
  have hway : sameTarget.controlling true 0 1 = some (0, true) := by decide +kernel
  have hjoin : sameTarget.IsJoin 1 1 [⟨.param 1, 0⟩] := ⟨_, .int 32, rfl, rfl, rfl⟩
  have hnode : (sameTarget.lowerWith sameTarget.loopForest {}).graph.find? (.result 1) =
      some 0 := by
    decide +kernel
  exact ⟨hway, one_sided read_sameTarget List.mem_cons_self hjoin hnode (by decide +kernel)
    List.mem_cons_self hway rfl⟩

end Dataflow
