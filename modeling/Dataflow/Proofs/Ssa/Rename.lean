import Dataflow.Ssa.Instruction

/-!
# Renaming the references of an instruction

What `mapOperands` and `mapBlocks` do to the questions about an instruction. Neither changes what
kind of instruction it is, and two renamings in a row are one.
-/

namespace Dataflow.Instruction

variable {g h : Operand → Operand} {k l : BlockId → BlockId} {i : Instruction}

/-- The function that a call calls. -/
def callee? : Instruction → Option Operand
  | call _ callee _ => some callee
  | _ => none

/-- The operands are mapped in their order. -/
@[simp] theorem operands_mapOperands : (i.mapOperands g).operands = i.operands.map g := by
  cases i with
  | alloca ty count => cases count <;> rfl
  | ret value => cases value <;> rfl
  | _ => simp [mapOperands, operands, TypedOperand.map, Function.comp_def]

/-- Blocks are no operands. -/
@[simp] theorem operands_mapBlocks : (i.mapBlocks k).operands = i.operands := by
  cases i <;> simp [mapBlocks, operands, Function.comp_def]

/-- A callee is no operand: renaming values leaves it as it is. -/
@[simp] theorem callee?_mapOperands : (i.mapOperands g).callee? = i.callee? := by
  cases i <;> rfl

/-- Renaming blocks leaves a callee as it is. -/
@[simp] theorem callee?_mapBlocks : (i.mapBlocks k).callee? = i.callee? := by
  cases i <;> rfl

/-- A phi stays a phi with other values. -/
@[simp] theorem isPhi_mapOperands : (i.mapOperands g).isPhi = i.isPhi := by
  cases i <;> rfl

/-- A phi stays a phi with other sources. -/
@[simp] theorem isPhi_mapBlocks : (i.mapBlocks k).isPhi = i.isPhi := by
  cases i <;> rfl

@[simp] theorem isTerminator_mapOperands : (i.mapOperands g).isTerminator = i.isTerminator := by
  cases i <;> rfl

@[simp] theorem isTerminator_mapBlocks : (i.mapBlocks k).isTerminator = i.isTerminator := by
  cases i <;> rfl

/-- Renaming values leaves the targets of a branch as they are. -/
@[simp] theorem successors_mapOperands : (i.mapOperands g).successors = i.successors := by
  cases i <;> rfl

/-- The targets of a branch are renamed in their order. -/
@[simp] theorem successors_mapBlocks : (i.mapBlocks k).successors = i.successors.map k := by
  cases i <;> rfl

/-- Renaming values twice is renaming them once by both. -/
theorem mapOperands_mapOperands :
    (i.mapOperands g).mapOperands h = i.mapOperands fun v => h (g v) := by
  cases i <;> simp [mapOperands, TypedOperand.map, Function.comp_def]

/-- Renaming blocks twice is renaming them once by both. -/
theorem mapBlocks_mapBlocks : (i.mapBlocks k).mapBlocks l = i.mapBlocks fun b => l (k b) := by
  cases i <;> simp [mapBlocks, Function.comp_def]

/-- Values and blocks are renamed apart from each other. -/
theorem mapOperands_mapBlocks :
    (i.mapBlocks k).mapOperands g = (i.mapOperands g).mapBlocks k := by
  cases i <;> simp [mapBlocks, mapOperands, Function.comp_def]

/-- Renaming every value to itself changes nothing. -/
theorem mapOperands_id : i.mapOperands (fun v => v) = i := by
  cases i <;> simp [mapOperands, TypedOperand.map]

theorem isTerminator_of_jump {b : BlockId} : (jump b).isTerminator = true := rfl

/-- What ends a block is no phi. -/
theorem not_isPhi_of_isTerminator (h : i.isTerminator = true) : i.isPhi = false := by
  cases i <;> simp_all [isTerminator, isPhi]

end Dataflow.Instruction
