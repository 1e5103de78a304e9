import Dataflow.Lowering.Join
import Dataflow.Proofs.ControlFlow.LoopNesting

/-!
# Where loops are left

From every block of a loop control can go on inside the loop (`exists_successor_mem_body`): from a
latch to the header, from any other block towards a latch, and from the header along the last round
of a walk to a latch. So a block from which control can leave has a way out besides, and that takes
a conditional branch with one side inside and one outside. Hence something decides on another round
of a loop just if control can leave the loop, or a branch guards it (`isNone_loopDecider_iff`).
-/

namespace Dataflow

namespace Function

/-- Control leaves a block by a conditional branch on `cond`. -/
def BranchesOn (f : Function) (b : BlockId) (cond : Operand) : Prop :=
  ∃ id onTrue onFalse, f.terminator? b = some id ∧
    f.instruction? id = some (.branch cond onTrue onFalse)

/-- A branch on `cond` ends the only predecessor of the preheader of a loop. -/
def Guards (f : Function) (l : NaturalLoop) (cond : Operand) : Prop :=
  ∃ p before, l.preheader = some p ∧ f.predecessors p = [before] ∧ f.BranchesOn before cond

/-- Control can go from a block of a loop to one outside it. -/
def Leaves (f : Function) (l : NaturalLoop) : Prop :=
  ∃ b ∈ l.body, ∃ c ∈ f.successors b, c ∉ l.body

variable {f : Function} {b c h p : BlockId} {w : List BlockId} {l : NaturalLoop} {cond : Operand}

theorem branchCond?_eq_some_iff : f.branchCond? b = some cond ↔ f.BranchesOn b cond := by
  unfold branchCond? BranchesOn
  constructor
  · intro h
    split at h
    · rename_i c onTrue onFalse hterm
      cases h
      obtain ⟨id, hid, hi⟩ := Option.bind_eq_some_iff.mp hterm
      exact ⟨id, onTrue, onFalse, hid, hi⟩
    · cases h
  · intro h
    obtain ⟨id, onTrue, onFalse, hid, hi⟩ := h
    simp [hid, hi]

section Loop

variable (hl : f.loopAt? h = some l)

include hl

/-- Control can go on from the header inside the loop. -/
theorem exists_successor_of_header : ∃ c ∈ f.successors h, c ∈ l.body := by
  have hlt := lt_length_of_loopAt? hl
  obtain ⟨p, hp⟩ := List.exists_mem_of_ne_nil _ (loopAt?_eq_some hl).2.1
  have hback := mem_latches_iff_backEdge.mp hp
  have hbody := latch_mem_body hl hlt hp
  obtain ⟨w, hw⟩ := hback.reachable
  obtain ⟨u, rest, hsplit, hu⟩ := List.eq_append_cons_of_mem (hback.dominates w hw)
  rw [hsplit] at hw
  rcases u.eq_nil_or_concat with rfl | ⟨u, c, rfl⟩
  · -- the header is a latch
    cases hsplit
    exact ⟨h, hback.way, hbody⟩
  · -- control last left the header for `c`, and came to the latch from there
    rw [List.concat_append] at hw hsplit
    have hhead : (u ++ c :: h :: rest).head? = some p := by rw [← hsplit, List.head?_cons]
    refine ⟨c, hw.suffix.mem_successors, ?_⟩
    exact mem_body_of_walk hl hw hhead hbody fun hin => hu (by simp [hin])

/-- From every block of a loop control can go on inside the loop. -/
theorem exists_successor_mem_body (hb : b ∈ l.body) : ∃ c ∈ f.successors b, c ∈ l.body := by
  have hlt := lt_length_of_loopAt? hl
  rcases (mem_body_iff hl).mp hb with rfl | ⟨hreach, p, hp, haround⟩
  · exact exists_successor_of_header hl
  · cases haround with
    | refl => exact ⟨h, ((loopAt?_latches hl).mp hp).way, header_mem_body hl hlt⟩
    | step hne hsucc haround =>
        exact ⟨_, hsucc, (mem_body_iff hl).mpr (Or.inr ⟨hreach.step hsucc, p, hp, haround⟩)⟩

theorem mem_exiting_iff : b ∈ l.exiting ↔ b ∈ l.body ∧ ∃ c ∈ f.successors b, c ∉ l.body := by
  rw [loopAt?_exiting hl]
  simp

/-- Where control can leave a loop it does so by one side of a conditional branch, and the other
side stays in the loop. -/
theorem branch_of_mem_exiting (hb : b ∈ l.exiting) :
    ∃ id cond onTrue onFalse, f.terminator? b = some id ∧
      f.instruction? id = some (.branch cond onTrue onFalse) ∧
      (onTrue ∈ l.body ↔ onFalse ∉ l.body) := by
  obtain ⟨hbody, c, hc, hout⟩ := (mem_exiting_iff hl).mp hb
  obtain ⟨d, hd, hin⟩ := exists_successor_mem_body hl hbody
  cases hid : f.terminator? b with
  | none => simp [successors, hid] at hc
  | some id =>
      cases hi : f.instruction? id with
      | none => simp [successors, hid, hi] at hc
      | some i =>
          rw [successors_eq_of_terminator hid hi] at hc hd
          cases i with
          | branch cond onTrue onFalse =>
              refine ⟨id, cond, onTrue, onFalse, rfl, hi, ?_⟩
              simp only [Instruction.successors, List.mem_cons, List.not_mem_nil, or_false] at hc hd
              grind
          | jump target =>
              -- there is but one way
              rw [Instruction.successors, List.mem_singleton] at hc hd
              exact absurd (hd ▸ hin) (hc ▸ hout)
          | _ => cases hc

end Loop

/-! ## What decides on another round -/

/-- What decides on another round of a loop is the condition of a branch that guards it or that it
is left by. -/
theorem guards_or_of_loopDecider (h : f.loopDecider l = some cond) :
    f.Guards l cond ∨ ∃ b ∈ l.exiting, f.BranchesOn b cond := by
  simp only [loopDecider, Option.or_eq_some_iff] at h
  rcases h with hguard | ⟨_, hexit⟩
  · obtain ⟨p, hp, hcond⟩ := Option.bind_eq_some_iff.mp hguard
    split at hcond
    · rename_i before hpred
      exact Or.inl ⟨p, before, hp, hpred, branchCond?_eq_some_iff.mp hcond⟩
    · cases hcond
  · obtain ⟨b, hb, hcond⟩ := List.exists_of_findSome?_eq_some hexit
    exact Or.inr ⟨b, hb, branchCond?_eq_some_iff.mp hcond⟩

theorem isSome_loopDecider_of_guards (h : f.Guards l cond) : (f.loopDecider l).isSome = true := by
  obtain ⟨p, before, hp, hpred, hcond⟩ := h
  simp [loopDecider, hp, hpred, branchCond?_eq_some_iff.mpr hcond]

/-- If control can leave a loop, something decides on another round. -/
theorem isSome_loopDecider_of_leaves (hl : f.loopAt? h = some l) (h : f.Leaves l) :
    (f.loopDecider l).isSome = true := by
  obtain ⟨b, hb, hout⟩ := h
  have hexit := (mem_exiting_iff hl).mpr ⟨hb, hout⟩
  obtain ⟨id, cond, onTrue, onFalse, hid, hi, _⟩ := branch_of_mem_exiting hl hexit
  have hcond := branchCond?_eq_some_iff.mpr ⟨id, onTrue, onFalse, hid, hi⟩
  have hfound : (l.exiting.findSome? f.branchCond?).isSome = true :=
    List.findSome?_isSome_iff.mpr ⟨b, hexit, by rw [hcond]; rfl⟩
  simp [loopDecider, hfound]

/-- Nothing decides on another round of a loop just if control cannot leave it and no branch guards
it. -/
theorem isNone_loopDecider_iff (hl : f.loopAt? h = some l) : (f.loopDecider l).isNone = true ↔
    ¬ f.Leaves l ∧ ¬ ∃ cond, f.Guards l cond := by
  rw [Option.isNone_iff_eq_none]
  constructor
  · intro hnone
    refine ⟨fun hleaves => ?_, fun hex => ?_⟩
    · simpa [hnone] using isSome_loopDecider_of_leaves hl hleaves
    · obtain ⟨cond, hguards⟩ := hex
      simpa [hnone] using isSome_loopDecider_of_guards hguards
  · intro hnot
    refine Option.eq_none_iff_forall_ne_some.mpr fun cond hcond => ?_
    rcases guards_or_of_loopDecider hcond with hguards | ⟨b, hb, _⟩
    · exact hnot.2 ⟨cond, hguards⟩
    · obtain ⟨hbody, hout⟩ := (mem_exiting_iff hl).mp hb
      exact hnot.1 ⟨b, hbody, hout⟩

end Function

end Dataflow
