import Dataflow.Proofs.Ssa.Rename
import Dataflow.Proofs.Ssa.Walk

/-!
# Functions in single assignment form

A block reads an operand if one of its instructions other than a phi does, or if a phi does when
control comes from that block. In single assignment form the block of the definition dominates every
block that reads it, and a phi has one arm for each predecessor of its block.
-/

namespace Dataflow.Function

/-- An operand is read in block `c`, or at the end of it by a phi. -/
inductive ReadsAt (f : Function) (c : BlockId) : Operand → Prop where
  | inst {id i v} : id ∈ f.body c → f.instruction? id = some i → i.isPhi = false →
      v ∈ i.operands → ReadsAt f c v
  | arm {id b ty arms arm} : id ∈ f.body b → f.instruction? id = some (.phi ty arms) →
      arm ∈ arms → arm.source = c → ReadsAt f c arm.value

/-- Single assignment form. The order of instructions inside a block is left open. -/
structure IsSsa (f : Function) : Prop where
  /-- A result that is read is defined in a block that dominates the place. -/
  dominated : ∀ {c x d}, f.ReadsAt c (.result x) → x ∈ f.body d → f.Dominates d c
  /-- A phi has one arm for each predecessor of its block. -/
  arms_once : ∀ {id b ty arms}, id ∈ f.body b → f.instruction? id = some (.phi ty arms) →
    ∀ p ∈ f.predecessors b, (arms.map (·.source)).count p = 1

/-- No call calls the result of an instruction. -/
def CalleesFixed (f : Function) : Prop :=
  ∀ {id i x}, id ∈ f.live → f.instruction? id = some i → i.callee? ≠ some (.result x)

/-- Block `b` lists `init` and then `t`, where control leaves it for the first time. -/
structure EndsIn (f : Function) (b : BlockId) (init : List InstId) (t : InstId) : Prop where
  body : f.body b = init ++ [t]
  leaves : (f.instruction? t).any (·.isTerminator) = true
  stays : ∀ x ∈ init, (f.instruction? x).any (·.isTerminator) = false

variable {f : Function} {b : BlockId} {init : List InstId} {t : InstId}

/-- The last instruction of such a block ends it. -/
theorem EndsIn.terminator? (h : f.EndsIn b init t) : f.terminator? b = some t := by
  rw [Function.terminator?, h.body, List.getLast?_concat, Option.filter_some, if_pos h.leaves]

/-- Control leaves such a block by its last instruction. -/
theorem EndsIn.successors {i : Instruction} (h : f.EndsIn b init t)
    (hi : f.instruction? t = some i) : f.successors b = i.successors :=
  successors_eq_of_terminator h.terminator? hi

/-- The last instruction of such a block is there and is one that ends blocks. -/
theorem EndsIn.instruction (h : f.EndsIn b init t) :
    ∃ i, f.instruction? t = some i ∧ i.isTerminator = true := by
  have hleaves := h.leaves
  rwa [Option.any_eq_true] at hleaves

/-- In a well-shaped function every block has one instruction that ends it, its last. -/
theorem WellShaped.endsIn (h : f.WellShaped) (hb : b < f.blocks.length) :
    ∃ init t, f.EndsIn b init t := by
  obtain ⟨t, ht⟩ := h.terminated b hb
  have hlast := ht
  rw [Function.terminator?, Option.filter_eq_some_iff] at hlast
  obtain ⟨init, hbody⟩ := List.getLast?_eq_some_iff.mp hlast.1
  refine ⟨init, t, hbody, hlast.2, fun x hx => ?_⟩
  obtain ⟨front, rest, rfl⟩ := List.append_of_mem hx
  cases hterm : (f.instruction? x).any (·.isTerminator) with
  | false => rfl
  | true =>
      rw [List.append_assoc, List.cons_append] at hbody
      have hrest := h.terminator_last hbody hterm
      simp at hrest

end Dataflow.Function
