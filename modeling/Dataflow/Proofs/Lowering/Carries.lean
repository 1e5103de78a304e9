import Dataflow.Proofs.ControlFlow.Loop
import Dataflow.Proofs.Lowering.Kinds

/-!
# A phi is a carry just if it is loop-carried

With the loops of the function itself, a phi becomes a carry if one of its arms comes from a
reachable block that its own block dominates, and a merge otherwise (`Function.kind_join`). The
loops are told by walks (`Function.carrying?_isSome_iff`), and what a phi becomes by the loops
(`Function.kind_lowerWith`).
-/

namespace Dataflow

variable {f : Function} {id : InstId} {block : BlockId} {arms : List Arm}

/-- A loop of the function carries values round to a phi just if one of its arms comes from a
reachable block that the block of the phi dominates. -/
theorem Function.carries_loopForest_iff (hf : f.violations = []) (hid : id ∈ f.live)
    (hjoin : f.IsJoin id block arms) : f.Carries f.loopForest id ↔
      ∃ arm ∈ arms, f.Reachable arm.source ∧ f.Dominates block arm.source := by
  rw [violations, List.append_eq_nil_iff] at hf
  obtain ⟨s, ty, hs, hi, rfl⟩ := hjoin
  have harms : ∀ arm ∈ arms, arm.source ∈ f.predecessors s.block :=
    fun arm harm => (wellShaped_of_structureViolations hf.1).arm hid hs hi harm
  rw [← carrying?_isSome_iff harms]
  constructor
  · intro hex
    obtain ⟨block', arms', l, hjoin', hl⟩ := hex
    obtain ⟨rfl, rfl⟩ := IsJoin.unique ⟨s, ty, hs, hi, rfl⟩ hjoin'
    exact ⟨l, hl⟩
  · intro hex
    obtain ⟨l, hl⟩ := hex
    exact ⟨_, _, l, ⟨s, ty, hs, hi, rfl⟩, hl⟩

/-- The node of a phi in a function without violations is a carry just if one of the arms comes from
a reachable block that the block of the phi dominates, and a merge otherwise. -/
theorem Function.kind_join (hf : f.violations = []) (hid : id ∈ f.live)
    (hjoin : f.IsJoin id block arms) (options : LowerOptions) :
    ∃ j kind, (f.lower options).graph.find? (.result id) = some j ∧
      (f.lower options).graph.kind? j = some kind ∧
      (kind = .carry ↔ ∃ arm ∈ arms, f.Reachable arm.source ∧ f.Dominates block arm.source) ∧
      (kind ≠ .carry → kind = .merge) := by
  obtain ⟨ty, hi⟩ := hjoin.instruction
  obtain ⟨j, kind, hj, hkind, hcarry, hmerge⟩ := f.kind_lowerWith f.loopForest options
    (mem_steps.mpr ⟨hid, hi⟩) rfl (by simp)
  refine ⟨j, kind, hj, hkind, ?_, fun hne => hmerge fun hcarries => hne (hcarry hcarries)⟩
  rw [← carries_loopForest_iff hf hid hjoin]
  refine ⟨fun hk => ?_, hcarry⟩
  by_contra hnot
  rw [hk] at hmerge
  cases hmerge hnot

/-- A function that counts up to ten. -/
def countUp : Function where
  name := "f"
  ret := .int 32
  params := []
  blocks := [⟨"entry", [0]⟩, ⟨"loop", [1, 2, 3, 4]⟩, ⟨"exit", [5]⟩]
  slots := [
    ⟨none, .jump 1, 0⟩,
    ⟨some "i", .phi (.int 32) [⟨.const ⟨.int 32, "0"⟩, 0⟩, ⟨.result 2, 1⟩], 1⟩,
    ⟨some "j", .binary .add (.int 32) (.result 1) (.const ⟨.int 32, "1"⟩), 1⟩,
    ⟨some "c", .compare (.int .slt) (.int 32) (.result 2) (.const ⟨.int 32, "10"⟩), 1⟩,
    ⟨none, .branch (.result 3) 1 2, 1⟩,
    ⟨none, .ret (some ⟨.int 32, .result 2⟩), 2⟩]

theorem kind_join_countUp :
    countUp.violations = [] ∧ ∃ j kind, (countUp.lower {}).graph.find? (.result 1) = some j ∧
      (countUp.lower {}).graph.kind? j = some kind ∧
      (kind = .carry ↔ ∃ arm ∈ [⟨.const ⟨.int 32, "0"⟩, 0⟩, ⟨.result 2, 1⟩],
        countUp.Reachable (Arm.source arm) ∧ countUp.Dominates 1 arm.source) ∧
      (kind ≠ .carry → kind = .merge) :=
  have hf : countUp.violations = [] := by decide +kernel
  have hid : 1 ∈ countUp.live := by decide
  ⟨hf, Function.kind_join hf hid ⟨_, .int 32, rfl, rfl, rfl⟩ {}⟩

end Dataflow
