import Dataflow.Proofs.Ssa.Rename
import Dataflow.Ssa.Function

/-!
# Running a function

A run goes from block to block. The phis of a block take their values together on the way in, from
the arm for the block that control comes from. The other instructions are run in order up to the
first that leaves the block. What they do is up to an `Interpretation`: each takes the values it
reads and a memory to its result and the next memory. Every instruction but a phi and a jump is
recorded as an `Action`.
-/

namespace Dataflow

/-- What values, conditions and instructions mean. -/
structure Interpretation (V M : Type) where
  const : Constant → V
  global : String → V
  function : String → V
  /-- Whether a branch on the value takes its first way. -/
  truth : V → Bool
  /-- What an instruction does, given its number, what it is apart from the references it holds, and
  the values it reads. -/
  step : InstId → Instruction → List V → M → V × M

/-- An instruction that was run, with the values it read. -/
structure Action (V : Type) where
  id : InstId
  shape : Instruction
  values : List V

/-- The state after a block, what was run in it, and the block control goes to. -/
structure Outcome (V M : Type) where
  actions : List (Action V)
  env : InstId → V
  memory : M
  next : Option BlockId

/-- The outcome of a longer run, which did `earlier` first. -/
def Outcome.prepend {V M : Type} (earlier : List (Action V)) (o : Outcome V M) : Outcome V M :=
  { o with actions := earlier ++ o.actions }

/-- Two outcomes of the same actions, with the next blocks renamed and the values related. -/
structure Outcome.Matches {V M : Type} (k : BlockId → BlockId)
    (R : (InstId → V) → (InstId → V) → Prop) (o o' : Outcome V M) : Prop where
  actions : o'.actions = o.actions
  env : R o.env o'.env
  memory : o'.memory = o.memory
  next : o'.next = o.next.map k

/-- Outcomes match when the same was done before both. -/
theorem Outcome.Matches.prepend {V M : Type} {k : BlockId → BlockId}
    {R : (InstId → V) → (InstId → V) → Prop} {o o' : Outcome V M} (h : o.Matches k R o')
    (earlier : List (Action V)) : (o.prepend earlier).Matches k R (o'.prepend earlier) where
  actions := congrArg (earlier ++ ·) h.actions
  env := h.env
  memory := h.memory
  next := h.next

namespace Instruction

/-- What an instruction is apart from the operands and blocks it refers to. -/
def shape (i : Instruction) : Instruction :=
  (i.mapOperands fun _ => .param 0).mapBlocks fun _ => 0

/-- What an instruction reads: its operands, and the callee of a call. -/
def reads (i : Instruction) : List Operand := i.operands ++ i.callee?.toList

/-- The block an instruction goes to, given which conditions hold. -/
def goesTo (holds : Operand → Bool) : Instruction → Option BlockId
  | jump target => some target
  | branch cond onTrue onFalse => some (if holds cond then onTrue else onFalse)
  | _ => none

/-- Whether an instruction goes to a block without a condition. -/
def isJump : Instruction → Bool
  | jump _ => true
  | _ => false

end Instruction

section Run

variable {V M : Type} (I : Interpretation V M) (args : Nat → V) (f : Function)

/-- The value of an operand. -/
def Interpretation.eval (env : InstId → V) : Operand → V
  | .param k => args k
  | .result id => env id
  | .const c => I.const c
  | .global name => I.global name
  | .function name => I.function name

/-- The record of running an instruction. -/
def Interpretation.action (env : InstId → V) (id : InstId) (i : Instruction) : Action V :=
  ⟨id, i.shape, i.reads.map (I.eval args env)⟩

/-- Gives one result a new value. -/
def assign {V : Type} (env : InstId → V) (id : InstId) (value : V) : InstId → V := fun x =>
  if x = id then value else env x

/-- Runs the instructions `ids` up to the first that leaves the block. -/
def Interpretation.runBlock : List InstId → (InstId → V) → M → Outcome V M
  | [], env, memory => ⟨[], env, memory, none⟩
  | id :: rest, env, memory =>
    match f.instruction? id with
    | none => runBlock rest env memory
    | some i =>
      if i.isPhi then runBlock rest env memory
      else if i.isTerminator then
        { actions := if i.isJump then [] else [I.action args env id i]
          env, memory
          next := i.goesTo fun v => I.truth (I.eval args env v) }
      else
        let (value, memory) := I.step id i.shape (i.reads.map (I.eval args env)) memory
        (runBlock rest (assign env id value) memory).prepend [I.action args env id i]

/-- The values when control comes to `target` from `source`: each phi there takes the value of its
arm for `source`, all of them as they were before. -/
def Interpretation.arrive (env : InstId → V) (source target : BlockId) : InstId → V := fun x =>
  match f.instruction? x with
  | some (.phi _ arms) =>
    if x ∈ f.body target then
      (arms.find? (·.source = source)).elim (env x) fun arm => I.eval args env arm.value
    else env x
  | _ => env x

/-- What is run in at most `bound` blocks from block `b` on. -/
def Interpretation.run : Nat → BlockId → (InstId → V) → M → List (Action V)
  | 0, _, _, _ => []
  | bound + 1, b, env, memory =>
    let o := I.runBlock args f (f.body b) env memory
    o.actions ++ o.next.elim [] fun c => run bound c (I.arrive args f o.env b c) o.memory

/-- What is run in at most `bound` blocks after block `b`. -/
def Interpretation.after (bound : Nat) (b : BlockId) (o : Outcome V M) : List (Action V) :=
  o.next.elim [] fun c => I.run args f bound c (I.arrive args f o.env b c) o.memory

/-- The run from the first block starts with the given actions. -/
def Interpretation.Emits (env : InstId → V) (memory : M) (actions : List (Action V)) : Prop :=
  ∃ bound, actions <+: I.run args f bound 0 env memory

end Run

/-! ## What renaming keeps -/

namespace Instruction

variable {g : Operand → Operand} {k : BlockId → BlockId} {i : Instruction} {holds : Operand → Bool}
  {c : BlockId}

/-- Renaming keeps the shape of an instruction. -/
theorem shape_rename : ((i.mapOperands g).mapBlocks k).shape = i.shape := by
  rw [shape, shape, mapOperands_mapBlocks, mapBlocks_mapBlocks, mapOperands_mapOperands]

/-- A jump is renamed to a jump, and nothing else is. -/
theorem isJump_rename : ((i.mapOperands g).mapBlocks k).isJump = i.isJump := by
  cases i <;> rfl

/-- A renamed terminator goes on where the renamed operands say. -/
theorem goesTo_rename : ((i.mapOperands g).mapBlocks k).goesTo holds =
    (i.goesTo fun v => holds (g v)).map k := by
  cases i with
  | branch cond onTrue onFalse =>
      simp only [mapOperands, mapBlocks, goesTo, Option.map_some]
      split <;> rfl
  | _ => rfl

/-- Control goes to a successor. -/
theorem mem_successors_of_goesTo (h : i.goesTo holds = some c) : c ∈ i.successors := by
  cases i with
  | branch cond onTrue onFalse =>
      simp only [goesTo, Option.some.injEq] at h
      subst h
      split <;> simp [successors]
  | jump target =>
      cases h
      simp [successors]
  | _ => cases h

/-- Where a terminator goes depends on its operands only. -/
theorem goesTo_congr {holds' : Operand → Bool} (h : ∀ v ∈ i.operands, holds v = holds' v) :
    i.goesTo holds = i.goesTo holds' := by
  cases i with
  | branch cond onTrue onFalse => simp [goesTo, h cond (by simp [operands])]
  | _ => rfl

end Instruction

/-! ## Running a block -/

namespace Interpretation

variable {V M : Type} {I : Interpretation V M} {args : Nat → V} {f g : Function}
  {env env' : InstId → V} {memory : M} {ids front rest : List InstId} {id x : InstId}
  {i : Instruction} {b c : BlockId} {value : V}

/-- A value is assigned to one instruction only. -/
theorem assign_of_ne (h : x ≠ id) : assign env id value x = env x := if_neg h

section Step

variable (hi : f.instruction? id = some i)

include hi

/-- A phi does nothing where control has arrived. -/
theorem runBlock_phi (hphi : i.isPhi = true) :
    I.runBlock args f (id :: rest) env memory = I.runBlock args f rest env memory := by
  simp only [runBlock, hi, hphi, if_true]

/-- A terminator leaves the block. -/
theorem runBlock_leave (hterm : i.isTerminator = true) :
    I.runBlock args f (id :: rest) env memory =
      { actions := if i.isJump then [] else [I.action args env id i]
        env, memory
        next := i.goesTo fun v => I.truth (I.eval args env v) } := by
  simp only [runBlock, hi, Instruction.not_isPhi_of_isTerminator hterm, Bool.false_eq_true,
    if_false, hterm, if_true]

/-- Any other instruction acts, and the rest of the block follows. -/
theorem runBlock_step (hphi : i.isPhi = false) (hterm : i.isTerminator = false) :
    I.runBlock args f (id :: rest) env memory =
      let result := I.step id i.shape (i.reads.map (I.eval args env)) memory
      (I.runBlock args f rest (assign env id result.1) result.2).prepend
        [I.action args env id i] := by
  simp only [runBlock, hi, hphi, hterm, Bool.false_eq_true, if_false]

end Step

/-- Where control goes from a block is a successor of one of its instructions. -/
theorem next_runBlock (h : (I.runBlock args f ids env memory).next = some c) :
    ∃ id ∈ ids, ∃ i, f.instruction? id = some i ∧ c ∈ i.successors := by
  induction ids generalizing env memory with
  | nil => cases h
  | cons id rest ih =>
      cases hi : f.instruction? id with
      | none =>
          simp only [runBlock, hi] at h
          obtain ⟨x, hx, j, hj⟩ := ih h
          exact ⟨x, List.mem_cons_of_mem _ hx, j, hj⟩
      | some i =>
          cases hphi : i.isPhi with
          | true =>
              rw [runBlock_phi hi hphi] at h
              obtain ⟨x, hx, j, hj⟩ := ih h
              exact ⟨x, List.mem_cons_of_mem _ hx, j, hj⟩
          | false =>
              cases hterm : i.isTerminator with
              | true =>
                  rw [runBlock_leave hi hterm] at h
                  exact ⟨id, List.mem_cons_self, i, hi, Instruction.mem_successors_of_goesTo h⟩
              | false =>
                  rw [runBlock_step hi hphi hterm] at h
                  obtain ⟨x, hx, j, hj⟩ := ih h
                  exact ⟨x, List.mem_cons_of_mem _ hx, j, hj⟩

/-- Phis are not run. -/
theorem runBlock_filter (ids : List InstId) :
    I.runBlock args f (ids.filter fun id => ¬ (f.instruction? id).any (·.isPhi)) env memory =
      I.runBlock args f ids env memory := by
  induction ids generalizing env memory with
  | nil => rfl
  | cons id rest ih =>
      cases hi : f.instruction? id with
      | none =>
          rw [List.filter_cons_of_pos (by simp [hi])]
          simp only [runBlock, hi]
          exact ih
      | some i =>
          cases hphi : i.isPhi with
          | true =>
              rw [List.filter_cons_of_neg (by simp [hi, hphi]), runBlock_phi hi hphi]
              exact ih
          | false =>
              rw [List.filter_cons_of_pos (by simp [hi, hphi])]
              cases hterm : i.isTerminator with
              | true => rw [runBlock_leave hi hterm, runBlock_leave hi hterm]
              | false =>
                  rw [runBlock_step hi hphi hterm, runBlock_step hi hphi hterm]
                  simp only [ih]

/-- Instructions that stay in the block are run before the rest. -/
theorem runBlock_append
    (hfront : ∀ id ∈ front, (f.instruction? id).any (·.isTerminator) = false) :
    I.runBlock args f (front ++ rest) env memory =
      let o := I.runBlock args f front env memory
      (I.runBlock args f rest o.env o.memory).prepend o.actions := by
  induction front generalizing env memory with
  | nil => rfl
  | cons id front ih =>
      have hrest : ∀ x ∈ front, (f.instruction? x).any (·.isTerminator) = false :=
        fun x hx => hfront x (List.mem_cons_of_mem _ hx)
      rw [List.cons_append]
      cases hi : f.instruction? id with
      | none => simpa only [runBlock, hi] using ih hrest
      | some i =>
          have hterm : i.isTerminator = false := by
            simpa [hi] using hfront id List.mem_cons_self
          cases hphi : i.isPhi with
          | true =>
              rw [runBlock_phi hi hphi, runBlock_phi hi hphi]
              exact ih hrest
          | false =>
              rw [runBlock_step hi hphi hterm, runBlock_step hi hphi hterm]
              exact congrArg (Outcome.prepend _) (ih hrest)

/-- Operands that are no results have one value. -/
theorem eval_congr {v : Operand} (h : ∀ x, v = .result x → env x = env' x) :
    I.eval args env v = I.eval args env' v := by
  cases v with
  | result x => exact h x rfl
  | _ => rfl

/-- Instructions of `g` are those of `f` renamed, and a relation between values makes each renamed
operand read the same. -/
structure Renames (I : Interpretation V M) (args : Nat → V) (f g : Function)
    (σ : Operand → Operand) (k : BlockId → BlockId) (R : (InstId → V) → (InstId → V) → Prop)
    (ids : List InstId) : Prop where
  inst : ∀ id ∈ ids, g.instruction? id =
    (f.instruction? id).map fun i => (i.mapOperands σ).mapBlocks k
  operand : ∀ {id i v env env'}, id ∈ ids → f.instruction? id = some i → i.isPhi = false →
    R env env' → v ∈ i.operands → I.eval args env' (σ v) = I.eval args env v
  callee : ∀ {id i v env env'}, id ∈ ids → f.instruction? id = some i → R env env' →
    i.callee? = some v → I.eval args env' v = I.eval args env v
  assign : ∀ {id i env env' value}, id ∈ ids → f.instruction? id = some i → i.isPhi = false →
    R env env' → R (assign env id value) (assign env' id value)

section Renames

variable {σ : Operand → Operand} {k : BlockId → BlockId} {R : (InstId → V) → (InstId → V) → Prop}

/-- What renames a block renames its rest. -/
theorem Renames.tail (h : Renames I args f g σ k R (id :: rest)) :
    Renames I args f g σ k R rest where
  inst x hx := h.inst x (List.mem_cons_of_mem _ hx)
  operand hx := h.operand (List.mem_cons_of_mem _ hx)
  callee hx := h.callee (List.mem_cons_of_mem _ hx)
  assign hx := h.assign (List.mem_cons_of_mem _ hx)

/-- An instruction reads the same values after renaming. -/
theorem Renames.reads (h : Renames I args f g σ k R ids) (hid : id ∈ ids)
    (hi : f.instruction? id = some i) (hphi : i.isPhi = false) (hR : R env env') :
    (((i.mapOperands σ).mapBlocks k).reads).map (I.eval args env') =
      i.reads.map (I.eval args env) := by
  simp only [Instruction.reads, Instruction.operands_mapBlocks, Instruction.operands_mapOperands,
    Instruction.callee?_mapBlocks, Instruction.callee?_mapOperands, List.map_append, List.map_map]
  congr 1
  · exact List.map_congr_left fun v hv => h.operand hid hi hphi hR hv
  · exact List.map_congr_left fun v hv => h.callee hid hi hR (by simpa using hv)

/-- Renamed instructions run alike. -/
theorem Renames.runBlock (h : Renames I args f g σ k R ids) (hR : R env env') (memory : M) :
    (I.runBlock args f ids env memory).Matches k R (I.runBlock args g ids env' memory) := by
  induction ids generalizing env env' memory with
  | nil => exact ⟨rfl, hR, rfl, rfl⟩
  | cons id rest ih =>
      -- what is run first has been renamed; it is skipped, leaves the block, or goes on
      have hid := h.inst id List.mem_cons_self
      cases hi : f.instruction? id with
      | none =>
          rw [hi, Option.map_none] at hid
          simpa only [Interpretation.runBlock, hi, hid] using ih h.tail hR memory
      | some i =>
          rw [hi, Option.map_some] at hid
          cases hphi : i.isPhi with
          | true =>
              rw [runBlock_phi hi hphi, runBlock_phi hid (by simpa using hphi)]
              exact ih h.tail hR memory
          | false =>
              have hreads := h.reads List.mem_cons_self hi hphi hR
              have haction : I.action args env' id ((i.mapOperands σ).mapBlocks k) =
                  I.action args env id i := by
                rw [action, action, Instruction.shape_rename, hreads]
              cases hterm : i.isTerminator with
              | true =>
                  rw [runBlock_leave hi hterm, runBlock_leave hid (by simpa using hterm), haction,
                    Instruction.isJump_rename, Instruction.goesTo_rename]
                  refine ⟨rfl, hR, rfl, congrArg (Option.map k) ?_⟩
                  refine Instruction.goesTo_congr fun v hv => ?_
                  rw [h.operand List.mem_cons_self hi hphi hR hv]
              | false =>
                  rw [runBlock_step hi hphi hterm,
                    runBlock_step hid (by simpa using hphi) (by simpa using hterm), haction, hreads,
                    Instruction.shape_rename]
                  exact (ih h.tail (h.assign List.mem_cons_self hi hphi hR) _).prepend _

end Renames

/-! ## Coming to a block -/

/-- Only the phis of the block take new values. -/
theorem arrive_of_not_phi (hx : x ∈ f.body c → (f.instruction? x).any (·.isPhi) = false) :
    I.arrive args f env b c x = env x := by
  unfold arrive
  split
  · rename_i ty arms hi
    rw [if_neg]
    intro hmem
    simpa [hi, Instruction.isPhi] using hx hmem
  · rfl

/-- A phi takes the value of the arm that control came from. -/
theorem arrive_phi {ty : Ty} {arms : List Arm} {arm : Arm} (hx : x ∈ f.body c)
    (hi : f.instruction? x = some (.phi ty arms)) (harm : arms.find? (·.source = b) = some arm) :
    I.arrive args f env b c x = I.eval args env arm.value := by
  simp [arrive, hi, hx, harm]

/-! ## Running on -/

variable {o o' : Outcome V M} {bound bound' : Nat}

/-- A longer run is a block and what comes after it. -/
theorem run_succ : I.run args f (bound + 1) b env memory =
    (I.runBlock args f (f.body b) env memory).actions ++
      I.after args f bound b (I.runBlock args f (f.body b) env memory) := rfl

/-- Nothing comes after a block that goes on nowhere. -/
theorem after_none (h : o.next = none) : I.after args f bound b o = [] := by
  rw [after, h, Option.elim_none]

/-- After a block its successor is run, with the values that arrive there. -/
theorem after_some (h : o.next = some c) : I.after args f bound b o =
    I.run args f bound c (I.arrive args f o.env b c) o.memory := by
  rw [after, h, Option.elim_some]

/-- What was done before a block is done before what comes after it. -/
theorem prepend_after (earlier : List (Action V)) :
    (o.prepend earlier).actions ++ I.after args f bound b (o.prepend earlier) =
      earlier ++ (o.actions ++ I.after args f bound b o) := List.append_assoc _ _ _

/-- A longer run goes on where a shorter one stopped. -/
theorem run_prefix_succ :
    I.run args f bound b env memory <+: I.run args f (bound + 1) b env memory := by
  induction bound generalizing b env memory with
  | zero => exact List.nil_prefix
  | succ bound ih =>
      rw [run_succ, run_succ]
      refine (List.prefix_append_right_inj _).mpr ?_
      cases hnext : (I.runBlock args f (f.body b) env memory).next with
      | none =>
          rw [after_none hnext]
          exact List.nil_prefix
      | some c =>
          rw [after_some hnext, after_some hnext]
          exact ih

/-- A shorter run is the start of a longer one. -/
theorem after_prefix_succ : I.after args f bound b o <+: I.after args f (bound + 1) b o := by
  cases hnext : o.next with
  | none =>
      rw [after_none hnext]
      exact List.nil_prefix
  | some c =>
      rw [after_some hnext, after_some hnext]
      exact run_prefix_succ

end Interpretation

end Dataflow
