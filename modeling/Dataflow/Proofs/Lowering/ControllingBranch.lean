import Dataflow.Proofs.Lowering.JoinInputs
import Dataflow.Proofs.Ssa.Walk

/-!
# The branch that controls a way

The steer through which a merge takes a value is found by climbing from the way the value comes by,
through blocks that end in a plain branch and have one predecessor, up to a conditional branch.
`Function.Climbs` tells the climb without a bound on its length, and it always ends
(`Function.climbs_controlling`), since it stops at a block it has seen. `Function.Travels` is a walk
together with the sides of the branches that control takes on it. On every walk that ends with the
way in question the branch that was found is the last one, and control leaves it by the side that
was found (`controls_way`).
-/

namespace Dataflow

namespace Function

/-- Control passes the blocks of a walk, the last one in front, and takes sides of the conditional
branches on it, the last one in front. -/
inductive Travels (f : Function) : List BlockId → List (InstId × Bool) → Prop where
  | start : Travels f [0] []
  | jump {b c w sides id} : Travels f (b :: w) sides → f.terminator? b = some id →
      f.instruction? id = some (.jump c) → Travels f (c :: b :: w) sides
  | branch {b w sides id cond onTrue onFalse} (taken : Bool) : Travels f (b :: w) sides →
      f.terminator? b = some id → f.instruction? id = some (.branch cond onTrue onFalse) →
      Travels f ((if taken then onTrue else onFalse) :: b :: w) ((id, taken) :: sides)

/-- The climb from the way between two blocks comes to an end with the given answer, after it has
come through the blocks in `seen`. -/
inductive Climbs (f : Function) (trace : Bool) :
    List BlockId → BlockId → BlockId → Option (InstId × Bool) → Prop where
  /-- A conditional branch is the answer, with the side that leads to the target. -/
  | decided {seen source target id cond onTrue onFalse} : f.terminator? source = some id →
      f.instruction? id = some (.branch cond onTrue onFalse) →
      Climbs f trace seen source target (some (id, onTrue = target))
  /-- A plain branch is followed up to the one block before it. -/
  | climbed {seen source target id c before answer} : f.terminator? source = some id →
      f.instruction? id = some (.jump c) → trace = true → f.predecessors source = [before] →
      source ∉ seen → Climbs f trace (source :: seen) before source answer →
      Climbs f trace seen source target answer
  /-- Elsewhere there is no answer. -/
  | stopped {seen source target} :
      (¬ ∃ id cond onTrue onFalse, f.terminator? source = some id ∧
        f.instruction? id = some (.branch cond onTrue onFalse)) →
      (¬ ∃ id c before, f.terminator? source = some id ∧ f.instruction? id = some (.jump c) ∧
        trace = true ∧ f.predecessors source = [before] ∧ source ∉ seen) →
      Climbs f trace seen source target none

variable {f : Function} {trace : Bool} {seen w : List BlockId} {b c source target : BlockId}
  {bound : Nat} {branch : InstId} {sides : List (InstId × Bool)} {taken : Bool}

/-! ## Sides that are taken -/

/-- Where control goes on at the end of a block, it is by a plain branch or by a side of a
conditional one. -/
theorem exists_of_mem_successors (h : c ∈ f.successors b) :
    ∃ id, f.terminator? b = some id ∧ (f.instruction? id = some (.jump c) ∨
      ∃ cond onTrue onFalse, f.instruction? id = some (.branch cond onTrue onFalse) ∧
        ∃ taken : Bool, c = if taken then onTrue else onFalse) := by
  cases hid : f.terminator? b with
  | none => simp [successors, hid] at h
  | some id =>
      refine ⟨id, rfl, ?_⟩
      cases hi : f.instruction? id with
      | none => simp [successors, hid, hi] at h
      | some i =>
          rw [successors_eq_of_terminator hid hi] at h
          cases i with
          | jump d =>
              rw [Instruction.successors, List.mem_singleton] at h
              exact .inl (h ▸ rfl)
          | branch cond onTrue onFalse =>
              refine .inr ⟨cond, onTrue, onFalse, rfl, ?_⟩
              simp only [Instruction.successors, List.mem_cons, List.not_mem_nil, or_false] at h
              exact h.elim (fun h => ⟨true, h⟩) fun h => ⟨false, h⟩
          | _ => cases h

/-- Control can pass exactly the blocks of walks. -/
theorem walk_iff_travels : f.Walk w ↔ ∃ sides, f.Travels w sides := by
  constructor
  · intro h
    induction h with
    | start => exact ⟨[], .start⟩
    | step _ hc ih =>
        obtain ⟨sides, hsides⟩ := ih
        obtain ⟨id, hid, hi | ⟨cond, onTrue, onFalse, hi, taken, rfl⟩⟩ :=
          exists_of_mem_successors hc
        · exact ⟨sides, hsides.jump hid hi⟩
        · exact ⟨(id, taken) :: sides, hsides.branch taken hid hi⟩
  · rintro ⟨sides, h⟩
    induction h with
    | start => exact .start
    | jump _ hid hi ih =>
        refine .step ih ?_
        rw [successors_eq_of_terminator hid hi]
        exact List.mem_singleton.mpr rfl
    | branch taken _ hid hi ih =>
        refine .step ih ?_
        rw [successors_eq_of_terminator hid hi]
        cases taken <;> simp [Instruction.successors]

/-! ## The climb -/

/-- A climb that has come through `seen` ends before it has come through more blocks than there
are, since it comes through none twice. -/
theorem climbs_controlling? (hnodup : seen.Nodup) (hseen : ∀ b ∈ seen, b < f.blocks.length)
    (hbound : f.blocks.length < bound + seen.length) :
    f.Climbs trace seen source target (f.controlling? f.ways trace bound seen source target) := by
  induction bound generalizing seen source target with
  | zero =>
      have hle : seen.length ≤ (List.range f.blocks.length).length :=
        List.Nodup.length_le_of_subset hnodup fun b hb => List.mem_range.mpr (hseen b hb)
      rw [List.length_range] at hle
      omega
  | succ bound ih =>
      by_cases hbranch : ∃ id cond onTrue onFalse, f.terminator? source = some id ∧
          f.instruction? id = some (.branch cond onTrue onFalse)
      · obtain ⟨id, cond, onTrue, onFalse, hid, hi⟩ := hbranch
        simpa [controlling?, hid, hi] using Climbs.decided hid hi
      · by_cases hclimb : ∃ id c before, f.terminator? source = some id ∧
            f.instruction? id = some (.jump c) ∧ trace = true ∧
            f.predecessors source = [before] ∧ source ∉ seen
        · obtain ⟨id, c, before, hid, hi, rfl, hpred, hnew⟩ := hclimb
          have hsource : source < f.blocks.length := lt_length_of_mem_body (terminator_mem_body hid)
          have hrest : f.Climbs true (source :: seen) before source
              (f.controlling? f.ways true bound (source :: seen) before source) :=
            ih (List.nodup_cons.mpr ⟨hnew, hnodup⟩) (by simpa using ⟨hsource, hseen⟩)
              (by rw [List.length_cons]; omega)
          simpa [controlling?, hid, hi, into_ways, hpred, hnew] using
            Climbs.climbed hid hi rfl hpred hnew hrest
        · have hnone : f.controlling? f.ways trace (bound + 1) seen source target = none := by
            refine Option.eq_none_iff_forall_ne_some.mpr fun answer h => ?_
            simp only [controlling?, Option.bind_eq_bind, Option.bind_eq_some_iff] at h
            obtain ⟨id, hid, i, hi, h⟩ := h
            split at h
            · exact hbranch ⟨id, _, _, _, hid, hi⟩
            · split at h
              · split at h
                · rename_i before hways
                  split at h
                  · cases h
                  · rw [into_ways] at hways
                    exact hclimb ⟨id, _, before, hid, hi, ‹_›, hways, ‹_›⟩
                · cases h
              · cases h
            · cases h
          rw [hnone]
          exact .stopped hbranch hclimb

/-- The climb ends wherever it starts, in the branch and the side that control the way. -/
theorem climbs_controlling (f : Function) (trace : Bool) (source target : BlockId) :
    f.Climbs trace [] source target (f.controlling trace source target) :=
  climbs_controlling? List.nodup_nil (by simp) (by simp)

/-- On every walk that ends with the way that a climb started from, the branch it has found is the
last one, and control takes the side it has found unless both sides lead to one block. -/
theorem Climbs.last_side (hentry : f.predecessors 0 = [])
    (h : f.Climbs trace seen source target (some (branch, taken)))
    (hw : f.Travels (target :: source :: w) sides) :
    ∃ cond onTrue onFalse, f.instruction? branch = some (.branch cond onTrue onFalse) ∧
      ∃ side earlier, sides = (branch, side) :: earlier ∧ (onTrue ≠ onFalse → side = taken) := by
  generalize hanswer : some (branch, taken) = answer at h
  induction h generalizing w sides with
  | @decided _ source target id cond onTrue onFalse hid hi =>
      cases hanswer
      refine ⟨cond, onTrue, onFalse, hi, ?_⟩
      cases hw with
      | jump _ hid' hi' =>
          cases hid.symm.trans hid'
          cases hi.symm.trans hi'
      | branch side _ hid' hi' =>
          cases hid.symm.trans hid'
          cases hi.symm.trans hi'
          refine ⟨side, _, rfl, fun hne => ?_⟩
          cases side with
          | true => simp
          | false => simpa using hne
  | @climbed _ source target id c before answer hid hi _ hpred _ _ ih =>
      cases hw with
      | jump hw hid' hi' =>
          -- before the source control was in its one predecessor
          have hsource : source ≠ 0 := by
            rintro rfl
            rw [hentry] at hpred
            cases hpred
          obtain ⟨x, rfl⟩ := (walk_iff_travels.mpr ⟨sides, hw⟩).before hpred hsource
          exact ih hw hanswer
      | branch side _ hid' hi' =>
          cases hid.symm.trans hid'
          cases hi.symm.trans hi'
  | stopped => cases hanswer

/-- In the finished graph a value goes to node `j` by one side of a branch: the steer of that side
takes what produces the value and feeds the node. -/
def GoesBy (f : Function) (forest : LoopForest) (options : LowerOptions) (v : Operand)
    (branch : InstId) (taken : Bool) (j : NodeId) : Prop :=
  ∃ p, (f.lowering forest options).steers.lookup branch = some p ∧
    (f.lowerWith forest options).graph.kind? (p.side taken) =
      some (if taken then .trueSteer else .falseSteer) ∧
    (∀ a, Producers f (f.lowerWith forest options).graph (f.lowering forest options).steers v a →
      a ∈ (f.lowerWith forest options).graph.inputs (p.side taken)) ∧
    p.side taken ∈ (f.lowerWith forest options).graph.inputs j

end Function

variable {f : Function} {forest : LoopForest} {options : LowerOptions} {d : Draft}
  {r branch : InstId} {block : BlockId} {arms : List Arm} {arm : Arm} {j : NodeId} {taken : Bool}

/-- The value of an arm goes to a merge by the side that controls its way. -/
theorem Draft.Yields.goesBy (h : Yields f forest options d (f.lowering forest options))
    (hf : f.Whole) (hjoin : f.IsJoin r block arms)
    (hj : (f.lowerWith forest options).graph.find? (.result r) = some j)
    (hk : (f.lowerWith forest options).graph.kind? j = some .merge) (harm : arm ∈ arms)
    (hway : f.controlling options.traceBranches arm.source block = some (branch, taken)) :
    f.GoesBy forest options arm.value branch taken j := by
  obtain ⟨p, hp, hfed⟩ := h.fed_of_controlled hf hjoin hj hk harm hway
  obtain ⟨htrue, hfalse⟩ := h.wired.lawful.sound.steer hp
  refine ⟨p, by rw [h.steers, hp], ?_, fun a ha => ?_, ?_⟩
  · cases taken with
    | true => exact h.kind (Graph.kind?_eq_some.mpr ⟨_, htrue, rfl⟩) (by simp)
    | false => exact h.kind (Graph.kind?_eq_some.mpr ⟨_, hfalse, rfl⟩) (by simp)
  · exact (h.mem_inputs_side hp).mpr (hfed a (h.producers.mp ha))
  · exact (h.mem_inputs_merge hf hjoin hj hk _).mpr ⟨arm, harm, .steered hway hp⟩

/-! ## The result -/

/-- Every climb ends. If it finds a side of a branch for the way of an arm, then the value of the
arm goes to the merge by that side, and on every walk that ends with that way the branch is the last
one and control takes that side, unless both sides lead to one block. -/
theorem controls_way {text : String} {m : Module} (hread : Module.readChecked text = .ok m)
    (hf : f ∈ m.functions) (hentry : f.predecessors 0 = []) (hjoin : f.IsJoin r block arms)
    (hj : (f.lowerWith forest options).graph.find? (.result r) = some j)
    (hk : (f.lowerWith forest options).graph.kind? j = some .merge) (harm : arm ∈ arms) :
    (∀ source target, f.Climbs options.traceBranches [] source target
      (f.controlling options.traceBranches source target)) ∧
    ∀ branch taken,
      f.controlling options.traceBranches arm.source block = some (branch, taken) →
      f.GoesBy forest options arm.value branch taken j ∧
      ∃ cond onTrue onFalse, f.instruction? branch = some (.branch cond onTrue onFalse) ∧
        ∀ w sides, f.Travels (block :: arm.source :: w) sides →
          ∃ side earlier, sides = (branch, side) :: earlier ∧
            (onTrue ≠ onFalse → side = taken) := by
  have hwhole := (Module.readChecked_checked hread hf).toBound.whole
  obtain ⟨d, h⟩ := Draft.yields_lowering hwhole forest options
  refine ⟨f.climbs_controlling _, fun branch taken hway => ?_⟩
  have hclimbs := f.climbs_controlling options.traceBranches arm.source block
  rw [hway] at hclimbs
  refine ⟨h.goesBy hwhole hjoin hj hk harm hway, ?_⟩
  obtain ⟨cond, onTrue, onFalse, hi⟩ := Function.controlling?_eq_some hway
  refine ⟨cond, onTrue, onFalse, hi, fun w sides hw => ?_⟩
  obtain ⟨cond', onTrue', onFalse', hi', hlast⟩ := hclimbs.last_side hentry hw
  cases hi.symm.trans hi'
  exact hlast

/-- `chosenSide` takes its parameter by the true side of its branch, and every walk to the merge
from the left block leaves the branch by that side. -/
theorem controls_way_chosenSide :
    chosenSide.controlling true 1 3 = some (0, true) ∧
      chosenSide.GoesBy {} {} (.param 0) 0 true 0 ∧
      ∀ w sides, chosenSide.Travels (3 :: 1 :: w) sides →
        ∃ earlier, sides = (0, true) :: earlier := by
  have hway : chosenSide.controlling true 1 3 = some (0, true) := by decide +kernel
  have hnode : (chosenSide.lowerWith {} {}).graph.find? (.result 3) = some 0 := by decide +kernel
  have hjoin : chosenSide.IsJoin 3 3 [⟨.param 0, 1⟩, ⟨.const ⟨.int 32, "7"⟩, 2⟩] :=
    ⟨_, .int 32, rfl, rfl, rfl⟩
  obtain ⟨_, hcontrols⟩ := controls_way read_chosenSide List.mem_cons_self rfl hjoin hnode
    (by decide +kernel) List.mem_cons_self
  obtain ⟨hgoes, _, _, _, hi, hlast⟩ := hcontrols 0 true hway
  cases hi
  refine ⟨hway, hgoes, fun w sides hw => ?_⟩
  obtain ⟨side, earlier, rfl, hside⟩ := hlast w sides hw
  exact ⟨earlier, by rw [hside (by decide)]⟩

end Dataflow
