import Dataflow.Lowering.Stage
import Dataflow.Proofs.Graph.Growth
import Dataflow.Proofs.Ssa.Placement

/-!
# Producers of a value

`Supplies f d opens v n` says that node `n` of a draft produces value `v`, where `opens` tells which
instructions let their operands through. Three choices of `opens` matter. `Produces` opens what has
no operator in the draft: this is what a search in that draft follows. `Produced` opens what has no
operator at the end, which the function alone decides (`Function.HasOperator`). `Traced` opens
whatever has no operator by its role, so it also covers searches that came too early.
-/

namespace Dataflow

/-! ## Which instructions have an operator -/

namespace Instruction

/-- Whether the role of an instruction gives it an operator. -/
def isSolid (i : Instruction) : Bool := i.role?.any (·.kind ≠ .unknown)

/-- The value that decides on the ways of a branch or on the choice of a select. -/
def condition? : Instruction → Option Operand
  | branch cond _ _ => some cond
  | select cond _ _ _ => some cond
  | _ => none

/-- Whether an instruction chooses between two values. -/
def isSelect : Instruction → Bool
  | select _ _ _ _ => true
  | _ => false

/-- An instruction can have a node when it has a role. -/
theorem hasNode_iff_role {i : Instruction} : i.hasNode = true ↔ ∃ r, i.role? = some r := by
  cases i with
  | compare test => cases test <;> simp [hasNode, role?]
  | ret value => cases value <;> simp [hasNode, role?]
  | _ => simp [hasNode, role?]

/-- A solid instruction has a node. -/
theorem hasNode_of_isSolid {i : Instruction} (h : i.isSolid = true) : i.hasNode = true := by
  cases hrole : i.role? with
  | none => simp [isSolid, hrole] at h
  | some r => exact hasNode_iff_role.mpr ⟨r, hrole⟩

/-- A select is not solid and has no node of its own. -/
theorem not_isSolid_of_isSelect {i : Instruction} (h : i.isSelect = true) :
    i.isSolid = false ∧ i.hasNode = false := by
  cases i <;> simp_all [isSelect, isSolid, role?, hasNode]

/-- A select has a condition. -/
theorem condition?_of_isSelect {i : Instruction} (h : i.isSelect = true) :
    ∃ cond, i.condition? = some cond := by
  cases i <;> simp_all [isSelect, condition?]

/-- A condition is an operand. -/
theorem mem_operands_of_condition? {i : Instruction} {cond : Operand}
    (h : i.condition? = some cond) : cond ∈ i.operands := by
  cases i <;> simp_all [condition?, operands]

end Instruction

namespace Function

variable (f : Function)

/-- Whether the role of an instruction gives it an operator. -/
def IsSolid (id : InstId) : Prop := ∃ i, f.instruction? id = some i ∧ i.isSolid = true

/-- Whether an instruction is the condition of a live branch or select. -/
def IsCondition (id : InstId) : Prop :=
  ∃ x i, x ∈ f.live ∧ f.instruction? x = some i ∧ i.condition? = some (.result id)

/-- Whether an instruction has an operator in the end: by its role, or because it can have a node
and a branch or a select takes it as its condition. -/
def HasOperator (id : InstId) : Prop :=
  f.IsSolid id ∨ (∃ i, f.instruction? id = some i ∧ i.hasNode = true) ∧ f.IsCondition id

/-- What has an operator is an instruction that can have a node. -/
theorem HasOperator.hasNode {f : Function} {id : InstId} (h : f.HasOperator id) :
    ∃ i, f.instruction? id = some i ∧ i.hasNode = true := by
  rcases h with ⟨i, hi, hsolid⟩ | ⟨h, _⟩
  · exact ⟨i, hi, Instruction.hasNode_of_isSolid hsolid⟩
  · exact h

end Function

/-! ## Producers -/

/-- Node `n` produces value `v`, where instructions without an operator that satisfy `opens` let
their operands through. -/
inductive Supplies (f : Function) (d : Draft) (opens : InstId → Prop) :
    Operand → NodeId → Prop where
  /-- A parameter, a literal or a global is produced by its node. -/
  | leaf {v n} : v.isLeaf = true → d.graph.find? v = some n → Supplies f d opens v n
  /-- A select is produced by both its steers. -/
  | steer {id i p taken} : f.instruction? id = some i → i.isSelect = true →
      d.steers.lookup id = some p → Supplies f d opens (.result id) (SteerPair.side p taken)
  /-- Any other instruction is produced by its node, if it has an operator. -/
  | node {id n} : d.operator? id = some n → Supplies f d opens (.result id) n
  /-- An instruction that is open is produced by what produces one of its operands. -/
  | operand {id i v n} : f.instruction? id = some i → i.isSelect = false → opens id →
      v ∈ i.operands → Supplies f d opens v n → Supplies f d opens (.result id) n

/-- What a search in the draft follows: instructions without an operator are open. -/
abbrev Produces (f : Function) (d : Draft) : Operand → NodeId → Prop :=
  Supplies f d fun id => d.operator? id = none

/-- What produces a value once every instruction that gets an operator has it. -/
abbrev Produced (f : Function) (d : Draft) : Operand → NodeId → Prop :=
  Supplies f d fun id => ¬ f.HasOperator id

/-- What may have been taken for the producer of a value before conditions got their operators. -/
abbrev Traced (f : Function) (d : Draft) : Operand → NodeId → Prop :=
  Supplies f d fun id => ¬ f.IsSolid id

/-- More open instructions give more producers. -/
theorem Supplies.mono {f : Function} {d : Draft} {opens opens' : InstId → Prop} {v : Operand}
    {n : NodeId} (h : Supplies f d opens v n) (hopens : ∀ id, opens id → opens' id) :
    Supplies f d opens' v n := by
  induction h with
  | leaf hv hn => exact .leaf hv hn
  | steer hi hs hp => exact .steer hi hs hp
  | node hn => exact .node hn
  | operand hi hs ho hv _ ih => exact .operand hi hs (hopens _ ho) hv ih

end Dataflow
