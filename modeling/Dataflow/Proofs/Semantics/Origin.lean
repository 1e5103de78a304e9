import Dataflow.Proofs.Ssa.Walk

/-!
# Where values come from

On a walk every run of an instruction is told by its number and its place on the walk. `origin`
follows an operand back to the run that made it: a phi is read along the way by which control came
to its block. `latest` looks back for the last run of an instruction of some kind since control was
in the first block.
-/

namespace Dataflow

/-- Where a value comes from on a walk. -/
inductive Origin where
  /-- The run of instruction `id` in the block that control came to after `visit` others. -/
  | run (visit : Nat) (id : InstId)
  /-- No run. -/
  | operand (v : Operand)
deriving DecidableEq, Repr

namespace Function

/-- What has been run of the last block of a walk when control has left it. -/
def finished (g : Function) (w : List BlockId) : List InstId := w.head?.elim [] g.body

/-- Where operand `v` comes from on the walk, when `done` has been run of its last block. -/
def origin (g : Function) : List BlockId → List InstId → Operand → Origin
  | b :: rest, done, .result x =>
    match g.instruction? x with
    | some (.phi _ arms) =>
      if x ∈ g.body b then
        match rest.head?.bind fun p => arms.find? (·.source = p) with
        | some arm => g.origin rest (g.finished rest) arm.value
        | none => .operand (.result x)
      else g.origin rest (g.finished rest) (.result x)
    | _ => if x ∈ done then .run rest.length x else g.origin rest (g.finished rest) (.result x)
  | _, _, v => .operand v

/-- The last run of an instruction of kind `p` on the walk since control came to the first block,
when `done` has been run of its last block. -/
def latest (g : Function) (p : InstId → Bool) : List BlockId → List InstId → Option Origin
  | [], _ => none
  | b :: rest, done =>
    match done.reverse.find? p with
    | some x => some (.run rest.length x)
    | none => if b = 0 then none else g.latest p rest (g.finished rest)

/-- What is run on a walk, block after block. -/
def runs (g : Function) (w : List BlockId) : List InstId := w.reverse.flatMap g.body

variable {g : Function} {b c : BlockId} {rest : List BlockId} {done : List InstId} {x : InstId}
  {i : Instruction} {p : InstId → Bool}

/-- A result that is no phi comes from its last run. -/
theorem origin_of_mem (hi : g.instruction? x = some i) (hphi : i.isPhi = false) (hx : x ∈ done) :
    g.origin (b :: rest) done (.result x) = .run rest.length x := by
  rw [origin, hi]
  cases i with
  | phi ty arms => cases hphi
  | _ => exact if_pos hx

/-- A phi of the last block comes from where its arm for the block before came from. -/
theorem origin_phi {ty : Ty} {arms : List Arm} {arm : Arm}
    (hi : g.instruction? x = some (.phi ty arms)) (hx : x ∈ g.body b)
    (harm : arms.find? (·.source = c) = some arm) :
    g.origin (b :: c :: rest) done (.result x) = g.origin (c :: rest) (g.body c) arm.value := by
  rw [origin, hi]
  simp [hx, harm, finished]

/-- What was run last in the current block comes last on the walk. -/
theorem latest_of_find (hx : done.reverse.find? p = some x) :
    g.latest p (b :: rest) done = some (.run rest.length x) := by
  rw [latest, hx]

/-- Where the current block has run nothing of the kind, the blocks before it count, up to the first
block. -/
theorem latest_of_not_find (hnone : done.reverse.find? p = none) :
    g.latest p (b :: rest) done = if b = 0 then none else g.latest p rest (g.finished rest) := by
  rw [latest, hnone]

end Function

end Dataflow
