import Dataflow.Proofs.Lowering.NodeReasons
import Mathlib.Data.List.Dedup
import Mathlib.Data.List.Nodup

/-!
# The inventory of a graph

What the nodes of a finished graph are to be there for is told by the function, its loops and the
options alone (`Function.inventory`): parameters, constants that are read, instructions that get an
operator, the sides of branches and selects, and the stream. Nothing is listed twice
(`Function.nodup_inventory`).
-/

namespace Dataflow

/-! ## The inventory -/

/-- Whether the operand is a literal or a global. -/
def Operand.isConstant : Operand → Bool
  | .const _ | .global _ => true
  | _ => false

/-- Whether an instruction goes to one of two blocks by a condition. -/
def Instruction.isBranch : Instruction → Bool
  | .branch _ _ _ => true
  | _ => false

/-- What a node of a finished graph can be there for. -/
inductive Item where
  /-- To stand for a value, with the given operator. -/
  | value (v : Operand) (kind : Operator)
  /-- To be the steer of one side of a branch or select. -/
  | steer (id : InstId) (taken : Bool)
  /-- To be the stream. -/
  | stream
deriving DecidableEq, Repr

namespace Item

/-- The operator of the node of an item. -/
def kind : Item → Operator
  | value _ kind => kind
  | steer _ taken => Draft.steerKind taken
  | stream => .stream

/-- The value that the node of an item stands for. -/
def origin : Item → Option Operand
  | value v _ => some v
  | steer _ _ | stream => none

/-- The node of an item. -/
def node? (d : Draft) : Item → Option NodeId
  | value v _ => d.graph.find? v
  | steer id taken => (d.steers.lookup id).map (·.side taken)
  | stream => d.stream

end Item

namespace Function

variable (f : Function)

/-- Whether some branch or select takes the result of an instruction as its condition. -/
def decides (id : InstId) : Bool := f.steps.any fun step => step.2.condition? = some (.result id)

/-- Whether the instruction is a phi that a loop carries values round to. -/
def carried (forest : LoopForest) (id : InstId) : Bool :=
  match f.slots[id]? with
  | some { instruction := .phi _ arms, block, .. } => (forest.carrying? block arms).isSome
  | _ => false

/-- The operator that an instruction has in the end; `none` for one that has no node then. One
without an operator by its role gets one if it decides, and a phi may be a carry. -/
def finalKind? (forest : LoopForest) (step : InstId × Instruction) : Option Operator :=
  step.2.role?.bind fun r =>
    if r.kind = .unknown then if f.decides step.1 then some .binaryOp else none
    else if f.carried forest step.1 then some .carry else some r.kind

/-- What the nodes of the finished graph are there for. -/
def inventory (forest : LoopForest) (options : LowerOptions) : List Item :=
  let params := (List.range f.params.length).map fun k => Item.value (.param k) .functionInput
  let constants := ((f.steps.flatMap (·.2.operands)).filter (·.isConstant)).dedup.map
    (Item.value · .constant)
  let results := f.steps.filterMap fun step =>
    (f.finalKind? forest step).map (Item.value (.result step.1))
  let steers := (f.steps.filter (·.2.condition?.isSome)).flatMap fun step =>
    [Item.steer step.1 true, Item.steer step.1 false]
  let streams := if options.entryStream ∧ f.steps.any (·.2.isBranch) then [Item.stream] else []
  params ++ constants ++ results ++ steers ++ streams

end Function

/-- The items of the inventory, told by what they are there for. -/
inductive Function.Lists (f : Function) (forest : LoopForest) (options : LowerOptions) :
    Item → Prop where
  | param {k} : k < f.params.length → Lists f forest options (.value (.param k) .functionInput)
  | constant {v id i} : v.isConstant = true → (id, i) ∈ f.steps → v ∈ i.operands →
      Lists f forest options (.value v .constant)
  | result {id i kind} : (id, i) ∈ f.steps → f.finalKind? forest (id, i) = some kind →
      Lists f forest options (.value (.result id) kind)
  | steer {id i taken} : (id, i) ∈ f.steps → i.condition?.isSome = true →
      Lists f forest options (.steer id taken)
  | stream : options.entryStream = true → f.steps.any (·.2.isBranch) = true →
      Lists f forest options .stream

variable {f : Function} {forest : LoopForest} {options : LowerOptions} {id : InstId} {item : Item}

/-! ### Members -/

namespace Function

theorem decides_iff : f.decides id = true ↔ f.IsCondition id := by
  simp only [decides, List.any_eq_true, Prod.exists, mem_steps, decide_eq_true_eq, IsCondition,
    and_assoc]

theorem carried_iff : f.carried forest id = true ↔ f.Carries forest id := by
  unfold carried
  constructor
  · intro h
    split at h
    · rename_i name ty arms block hslot
      obtain ⟨l, hl⟩ := Option.isSome_iff_exists.mp h
      exact ⟨block, arms, l, ⟨_, ty, hslot, rfl, rfl⟩, hl⟩
    · cases h
  · intro h
    obtain ⟨block, arms, l, ⟨⟨name, instruction, b⟩, ty, hslot, hi, hblock⟩, hl⟩ := h
    simp only at hi hblock
    subst hi hblock
    simp [hslot, hl]

theorem streams_iff (hf : f.Whole) : f.Streams options ↔
    options.entryStream = true ∧ f.steps.any (·.2.isBranch) = true := by
  refine and_congr_right fun _ => ?_
  rw [List.any_eq_true]
  constructor
  · intro h
    obtain ⟨id, cond, onTrue, onFalse, hi⟩ := h
    exact ⟨(id, _), mem_steps.mpr ⟨hf.mem_live hi, hi⟩, rfl⟩
  · intro h
    obtain ⟨⟨id, i⟩, hstep, hbranch⟩ := h
    cases i with
    | branch cond onTrue onFalse => exact ⟨id, cond, onTrue, onFalse, (mem_steps.mp hstep).2⟩
    | _ => cases hbranch

/-- The members of the inventory. -/
theorem mem_inventory : item ∈ f.inventory forest options ↔ f.Lists forest options item := by
  simp only [inventory, List.mem_append, List.mem_map, List.mem_range, List.mem_dedup,
    List.mem_filter, List.mem_flatMap, List.mem_filterMap, Option.map_eq_some_iff, Prod.exists]
  constructor
  · intro h
    rcases h with (((⟨k, hk, rfl⟩ | ⟨v, ⟨⟨id, i, hi, hv⟩, hconst⟩, rfl⟩) |
      ⟨id, i, hi, kind, hkind, rfl⟩) | ⟨id, i, ⟨hi, hcond⟩, hside⟩) | hstream
    · exact .param hk
    · exact .constant hconst hi hv
    · exact .result hi hkind
    · simp only [List.mem_cons, List.not_mem_nil, or_false] at hside
      rcases hside with rfl | rfl <;> exact .steer hi hcond
    · split at hstream
      · rename_i hasked
        cases List.mem_singleton.mp hstream
        exact .stream hasked.1 hasked.2
      · cases hstream
  · intro h
    cases h with
    | param hk => exact Or.inl (Or.inl (Or.inl (Or.inl ⟨_, hk, rfl⟩)))
    | constant hconst hi hv =>
        exact Or.inl (Or.inl (Or.inl (Or.inr ⟨_, ⟨⟨_, _, hi, hv⟩, hconst⟩, rfl⟩)))
    | result hi hkind => exact Or.inl (Or.inl (Or.inr ⟨_, _, hi, _, hkind, rfl⟩))
    | @steer id i taken hi hcond =>
        refine Or.inl (Or.inr ⟨id, i, ⟨hi, hcond⟩, ?_⟩)
        cases taken <;> simp
    | stream hon hbranch =>
        refine Or.inr ?_
        rw [if_pos ⟨hon, hbranch⟩]
        exact List.mem_singleton_self _

/-- An instruction has one step. -/
theorem pairwise_steps (hlive : f.live.Nodup) : f.steps.Pairwise fun x y => x.1 ≠ y.1 := by
  refine List.Pairwise.filterMap _ (fun id id' hne x hx y hy => ?_) hlive
  obtain ⟨_, _, rfl⟩ := Option.map_eq_some_iff.mp hx
  obtain ⟨_, _, rfl⟩ := Option.map_eq_some_iff.mp hy
  exact hne

/-- Nothing is listed twice. -/
theorem nodup_inventory (hlive : f.live.Nodup) : (f.inventory forest options).Nodup := by
  have hsteps := pairwise_steps hlive
  simp only [inventory]
  refine ((((List.Nodup.append ?params ?constants ?_).append ?results ?_).append ?steers ?_).append
    ?streams ?_)
  case params => exact List.nodup_range.map fun k l hkl => by cases hkl; rfl
  case constants => exact (List.nodup_dedup _).map fun v w hvw => by cases hvw; rfl
  case results =>
    refine hsteps.filterMap _ fun x y hne item hx item' hy heq => hne ?_
    obtain ⟨_, _, rfl⟩ := Option.map_eq_some_iff.mp hx
    obtain ⟨_, _, rfl⟩ := Option.map_eq_some_iff.mp hy
    exact Operand.result.inj (Item.value.inj heq).1
  case steers =>
    refine List.nodup_flatMap.mpr ⟨fun _ _ => by simp, (hsteps.filter _).imp fun hne => ?_⟩
    intro item hx hy
    simp only [List.mem_cons, List.not_mem_nil, or_false] at hx hy
    rcases hx with rfl | rfl <;> simp_all
  case streams => split <;> simp
  -- the parts of the inventory differ in what they are there for
  all_goals
    intro item hfront hback
    simp only [List.mem_append, List.mem_map, List.mem_filter, List.mem_filterMap,
      List.mem_flatMap, List.mem_dedup, Option.map_eq_some_iff, List.mem_cons, List.not_mem_nil,
      or_false, List.mem_ite_nil_right] at hfront hback
    grind [Operand.isConstant]

end Function

end Dataflow
