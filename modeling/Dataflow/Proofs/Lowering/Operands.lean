import Dataflow.Proofs.Lowering.Joins
import Dataflow.Proofs.Lowering.Kinds

/-!
# Operands are wired exactly

The last stage of lowering removes the nodes without an operator. No edge goes with them, because
every edge joins operators, leaves, steers and the stream (`Draft.Wired.edge_ends`). So the finished
graph has the edges of the draft before, and its map from values to nodes is `Draft.operator?`.

The main result, `inputs_exact`, is about an instruction other than a phi: its inputs that are no
steers of branches are what produces its operands (`Producers`), and nothing else.
-/

namespace Dataflow

variable {f : Function} {forest : LoopForest} {options : LowerOptions} {d : Draft}
  {id : InstId} {i : Instruction} {v : Operand} {a b : NodeId}

/-! ## The finished draft -/

namespace Draft

/-- Both ends of an edge are no placeholders. -/
theorem Lawful.edge_ends (h : Lawful f forest options d) (hab : d.graph.hasEdge a b) :
    (∃ n, d.graph.node? a = some n ∧ n.kind ≠ .unknown) ∧
      ∃ n, d.graph.node? b = some n ∧ n.kind ≠ .unknown := by
  have hoperator : ∀ {x n}, d.operator? x = some n →
      ∃ m, d.graph.node? n = some m ∧ m.kind ≠ .unknown :=
    fun hop => (operator?_eq_some.mp hop).2
  have hside : ∀ {x p} (taken : Bool), d.steers.lookup x = some p →
      ∃ m, d.graph.node? (p.side taken) = some m ∧ m.kind ≠ .unknown := by
    intro x p taken hp
    obtain ⟨m, hm, _, hkind⟩ := h.sound.side hp taken
    exact ⟨m, hm, by cases taken <;> simp [hkind]⟩
  cases h.justified hab with
  | operand _ _ _ hb ha => exact ⟨h.sound.supplies ha, hoperator hb⟩
  | condition hp _ _ ha => exact ⟨h.sound.supplies ha, hside _ hp⟩
  | choice hp _ _ ha => exact ⟨h.sound.supplies ha, hside _ hp⟩
  | stream _ ha hp => exact ⟨⟨_, h.sound.stream ha, by simp⟩, hside _ hp⟩
  | entry hp _ _ _ _ hb => exact ⟨hside _ hp, hoperator hb⟩
  | carried _ hb _ _ ha => exact ⟨h.sound.supplies ha, hoperator hb⟩
  | decider _ hb _ _ ha => exact ⟨h.sound.supplies ha, hoperator hb⟩
  | merged _ hb _ _ _ ha => exact ⟨h.sound.supplies ha, hoperator hb⟩
  | steered _ hb _ _ _ hp => exact ⟨hside _ hp, hoperator hb⟩
  | controlled _ _ _ _ hp ha => exact ⟨h.sound.supplies ha, hside _ hp⟩
  | memory _ ha hb => exact ⟨hoperator ha, hoperator hb⟩

/-- What is left when nodes without an operator go. -/
theorem Lawful.enter_cleanup (h : Lawful f forest options d) :
    (∀ v j, (d.enter f forest options .cleanup).graph.find? v = some j ↔
      d.graph.find? v = some j ∧ ∃ n, d.graph.node? j = some n ∧ n.kind ≠ .unknown) ∧
    (∀ a b, (d.enter f forest options .cleanup).graph.hasEdge a b = d.graph.hasEdge a b) ∧
    (d.enter f forest options .cleanup).graph.nodes.length = d.graph.nodes.length ∧
    (d.enter f forest options .cleanup).steers = d.steers := by
  have hgraph : (d.enter f forest options .cleanup).graph =
      (d.graph.ofKind .unknown).foldl Graph.removeNode d.graph ∧
      (d.enter f forest options .cleanup).steers = d.steers :=
    graph_cleanUp (d.report (.stage f.name Stage.cleanup.name))
  -- every edge has a reason, and no reason has an end without an operator
  have hidle : ∀ i ∈ d.graph.ofKind .unknown, ∀ a,
      ¬ d.graph.hasEdge a i ∧ ¬ d.graph.hasEdge i a := by
    intro i hi a
    obtain ⟨n, hn, hkind⟩ := Graph.mem_ofKind.mp hi
    have hplaceholder : ¬ ∃ m, d.graph.node? i = some m ∧ m.kind ≠ .unknown := by
      intro hex
      obtain ⟨m, hm, hne⟩ := hex
      rw [hn] at hm
      cases hm
      exact hne hkind
    exact ⟨fun hab => hplaceholder (h.edge_ends hab).2, fun hab => hplaceholder (h.edge_ends hab).1⟩
  obtain ⟨hfind, hedge, hlength⟩ := Graph.foldl_removeNode h.sound.full.toOwned hidle
  rw [hgraph.1]
  refine ⟨fun v j => ?_, hedge, hlength, hgraph.2⟩
  rw [hfind, Graph.mem_ofKind]
  refine and_congr_right fun hv => ?_
  obtain ⟨n, hn, _⟩ := h.sound.full.owner hv
  simp [hn]

/-- What lowering ends with, told by the draft before the last stage. -/
structure Finishes (f : Function) (forest : LoopForest) (options : LowerOptions) (d e : Draft) :
    Prop where
  wired : Wired f forest options d
  operator : ∀ {id}, e.graph.find? (.result id) = d.operator? id
  leaf : ∀ {v}, v.isLeaf = true → e.graph.find? v = d.graph.find? v
  edge : ∀ {a b}, e.graph.hasEdge a b = d.graph.hasEdge a b
  input : ∀ {a b}, a ∈ e.graph.inputs b ↔ d.graph.hasEdge a b
  steers : e.steers = d.steers

/-- The last stage finishes a draft in which everything is wired. -/
theorem Wired.finishes (h : Wired f forest options d) :
    Finishes f forest options d (d.enter f forest options .cleanup) := by
  obtain ⟨hfind, hedge, hlength, hsteers⟩ := h.lawful.enter_cleanup
  refine ⟨h, fun {id} => ?_, fun {v} hv => ?_, fun {a b} => hedge a b, fun {a b} => ?_, hsteers⟩
  · ext j
    rw [operator?_eq_some]
    exact hfind _ j
  · ext j
    refine (hfind v j).trans (and_iff_left_of_imp fun hj => ?_)
    obtain ⟨n, hn, _⟩ := h.lawful.sound.full.owner hj
    exact ⟨n, hn, h.lawful.sound.leaf hj hv hn⟩
  · refine Graph.mem_inputs.trans ?_
    rw [← hedge a b]
    refine and_iff_right_of_imp fun hab => ?_
    have hlt := (h.lawful.sound.full.edge (by rwa [← hedge a b])).1
    exact hlength.symm ▸ hlt

/-- Lowering finishes for every whole function. -/
theorem finishes_of_whole (hf : f.Whole) (forest : LoopForest) (options : LowerOptions) :
    ∃ d, Finishes f forest options d (f.lowering forest options) :=
  ⟨_, (wired_of_whole hf forest options).finishes⟩

/-- Lowering finishes for every bound function. -/
theorem finishes_lowering (hf : f.Bound) (forest : LoopForest) (options : LowerOptions) :
    ∃ d, Finishes f forest options d (f.lowering forest options) :=
  finishes_of_whole hf.whole forest options

/-- Leaves have their nodes until others go. -/
theorem find?_before_cleanup (f : Function) (forest : LoopForest) (options : LowerOptions)
    (hv : v ∈ f.leaves) : ∃ n, ([Stage.nodes, .steers, .leaves, .results, .joins, .memory].foldl
      (Draft.enter f forest options) {}).graph.find? v = some n := by
  obtain ⟨hd, n, hn⟩ := leaves_before_joins f forest options hv
  obtain ⟨_, hjoins⟩ := foldl_enter_induct f forest options [Stage.joins]
    (I := fun e => e.graph.find? v = some n) (fun hd hb h => (hb.keeps hd).owner h)
    (fun _ _ _ h => h) (by simp) hd hn
  exact ⟨n, (memory_feedsInto f forest options _).find?.trans hjoins⟩

end Draft

/-- Every leaf that an instruction reads has its node, and every select has its pair of steers. -/
structure Function.Stocked (f : Function) (forest : LoopForest) (options : LowerOptions) :
    Prop where
  leaf : ∀ {id i v}, (id, i) ∈ f.steps → v ∈ i.operands → v.isLeaf = true →
    ∃ n, (f.lowerWith forest options).graph.find? v = some n
  select : ∀ {id i}, (id, i) ∈ f.steps → i.isSelect = true →
    ∃ p, (f.lowering forest options).steers.lookup id = some p

/-- The graph of a whole function is stocked: leaf operands have nodes and selects have steers. -/
theorem Function.Whole.stocked (hf : f.Whole) (forest : LoopForest) (options : LowerOptions) :
    f.Stocked forest options := by
  have h := (Draft.wired_of_whole hf forest options).finishes
  refine ⟨fun {id i v} hi hv hleaf => ?_, fun {id i} hi hsel => ?_⟩
  · have hread : v ∈ f.leaves := List.mem_append_right _
      (List.mem_filter.mpr ⟨List.mem_flatMap.mpr ⟨(id, i), hi, hv⟩, hleaf⟩)
    obtain ⟨n, hn⟩ := Draft.find?_before_cleanup f forest options hread
    exact ⟨n, (h.leaf hleaf).trans hn⟩
  · obtain ⟨cond, hcond⟩ := Instruction.condition?_of_isSelect hsel
    obtain ⟨p, hp⟩ := h.wired.paired (mem_steps.mp hi).2 hcond
    exact ⟨p, h.steers ▸ hp⟩

/-! ## Producers in a finished graph -/

/-- Node `n` produces value `v` in a finished graph with the given pairs of steers. -/
inductive Producers (f : Function) (g : Graph) (steers : List (InstId × SteerPair)) :
    Operand → NodeId → Prop where
  /-- A parameter, a literal or a global is produced by its node. -/
  | leaf {v n} : v.isLeaf = true → g.find? v = some n → Producers f g steers v n
  /-- What produces an operand produces an address computed from it and a conversion of it. -/
  | transparent {id i v n} : f.instruction? id = some i → i.isTransparent = true →
      v ∈ i.operands → Producers f g steers v n → Producers f g steers (.result id) n
  /-- A select is produced by both its steers. -/
  | steer {id i p taken} : f.instruction? id = some i → i.isSelect = true →
      steers.lookup id = some p → Producers f g steers (.result id) (SteerPair.side p taken)
  /-- Any other instruction that has a node is produced by it. -/
  | node {id i n} : f.instruction? id = some i → i.isTransparent = false → i.isSelect = false →
      g.find? (.result id) = some n → Producers f g steers (.result id) n
  /-- One that has none is produced by what produces its operands. -/
  | operand {id i v n} : f.instruction? id = some i → i.isTransparent = false →
      i.isSelect = false → g.find? (.result id) = none → v ∈ i.operands →
      Producers f g steers v n → Producers f g steers (.result id) n

/-- A node is a steer of a conditional branch. -/
def Function.IsBranchSteer (f : Function) (steers : List (InstId × SteerPair)) (n : NodeId) :
    Prop :=
  ∃ id cond onTrue onFalse p taken, f.instruction? id = some (.branch cond onTrue onFalse) ∧
    steers.lookup id = some p ∧ n = SteerPair.side p taken

/-- A transparent instruction has no node and is no select. -/
theorem Instruction.hasNode_of_isTransparent {i : Instruction} (h : i.isTransparent = true) :
    i.hasNode = false ∧ i.isSelect = false := by
  cases i <;> simp_all [isTransparent, hasNode, isSelect]

/-- What has an operator is neither transparent nor a select. -/
theorem Function.HasOperator.not_chooses (h : f.HasOperator id) (hi : f.instruction? id = some i) :
    i.isTransparent = false ∧ i.isSelect = false := by
  obtain ⟨j, hj, hnode⟩ := h.hasNode
  rw [hi] at hj
  cases hj
  constructor
  · cases htransparent : i.isTransparent with
    | false => rfl
    | true => simp [(Instruction.hasNode_of_isTransparent htransparent).1] at hnode
  · cases hsel : i.isSelect with
    | false => rfl
    | true => simp [(Instruction.not_isSolid_of_isSelect hsel).2] at hnode

/-- Nothing that produces a value is a steer of a branch. -/
theorem Draft.Sound.not_isBranchSteer {opens : InstId → Prop} (h : Sound f d)
    (hv : Supplies f d opens v a) : ¬ f.IsBranchSteer d.steers a := by
  intro hex
  obtain ⟨id, cond, onTrue, onFalse, p, taken, hi, hp, rfl⟩ := hex
  generalize hn : p.side taken = n at hv
  induction hv with
  | leaf _ hfind => exact h.find?_ne_side hp hfind hn.symm
  | steer hj hsel hq =>
      obtain ⟨rfl, _⟩ := h.steer_unique hp hq hn
      rw [hi] at hj
      cases hj
      cases hsel
  | node hop => exact h.find?_ne_side hp (operator?_eq_some.mp hop).1 hn.symm
  | operand _ _ _ _ _ ih => exact ih hn

namespace Draft.Finishes

variable {e : Draft} (h : Finishes f forest options d e)

include h

/-- An instruction has no operator node when it has no operator. -/
theorem operator?_eq_none : d.operator? id = none ↔ ¬ f.HasOperator id := by
  constructor
  · intro hnone hhas
    obtain ⟨n, hn⟩ := h.wired.operator hhas
    rw [hnone] at hn
    cases hn
  · intro hhas
    cases hop : d.operator? id with
    | none => rfl
    | some n => exact absurd (h.wired.lawful.sound.operator hop) hhas

/-- The producers in the finished graph are those that a search follows. -/
theorem producers_iff : Producers f e.graph e.steers v a ↔ Produced f d v a := by
  constructor
  · intro hv
    induction hv with
    | leaf hleaf hn => exact .leaf hleaf (by rwa [← h.leaf hleaf])
    | transparent hi htransparent hv _ ih =>
        refine .operand hi (Instruction.hasNode_of_isTransparent htransparent).2 (fun hhas => ?_)
          hv ih
        simp [(hhas.not_chooses hi).1] at htransparent
    | steer hi hsel hp => exact .steer hi hsel (by rwa [← h.steers])
    | node _ _ _ hn => exact .node (by rwa [← h.operator])
    | operand hi _ hsel hn hv _ ih =>
        exact .operand hi hsel (h.operator?_eq_none.mp (by rwa [← h.operator])) hv ih
  · intro hv
    induction hv with
    | leaf hleaf hn => exact .leaf hleaf (by rwa [h.leaf hleaf])
    | steer hi hsel hp => exact .steer hi hsel (by rwa [h.steers])
    | node hn =>
        have hhas := h.wired.lawful.sound.operator hn
        obtain ⟨i, hi, _⟩ := hhas.hasNode
        obtain ⟨htransparent, hsel⟩ := hhas.not_chooses hi
        exact .node hi htransparent hsel (by rwa [h.operator])
    | @operand id i v n hi hsel hopen hv _ ih =>
        cases htransparent : i.isTransparent with
        | true => exact .transparent hi htransparent hv ih
        | false =>
            refine .operand hi htransparent hsel ?_ hv ih
            rw [h.operator]
            exact h.operator?_eq_none.mpr hopen

/-- No producer is a steer of a branch. -/
theorem not_isBranchSteer (hv : Produced f d v a) : ¬ f.IsBranchSteer e.steers a := by
  rw [h.steers]
  exact h.wired.lawful.sound.not_isBranchSteer hv

/-- The inputs of an operator other than a join are what produces its operands, and the steers of
branches. -/
theorem mem_inputs_iff (hoff : options.memoryDependencies = false) (hi : f.instruction? id = some i)
    (hphi : i.isPhi = false) (hb : d.operator? id = some b) :
    a ∈ e.graph.inputs b ∧ ¬ f.IsBranchSteer e.steers a ↔ ∃ v ∈ i.operands, Produced f d v a := by
  have hsound := h.wired.lawful.sound
  have hfind := (operator?_eq_some.mp hb).1
  constructor
  · intro hex
    obtain ⟨hab, hsteer⟩ := hex
    have hjoin : ∀ {x block arms}, f.IsJoin x block arms → d.operator? x ≠ some b := by
      intro x block arms hjoin hx
      obtain ⟨ty, hj⟩ := hjoin.instruction
      rw [hsound.operator_unique hx hb, hi] at hj
      cases hj
      cases hphi
    generalize hb' : b = b' at hab
    have hreason := h.wired.lawful.justified (h.input.mp hab)
    -- the target of any other reason is a steer or the node of a phi
    cases hreason with
    | operand hj _ hv hop ha =>
        subst hb'
        rw [hsound.operator_unique hop hb, hi] at hj
        cases hj
        exact ⟨_, hv, ha⟩
    | condition hp | choice hp | stream _ _ hp | controlled _ _ _ _ hp =>
        exact absurd hb' (hsound.find?_ne_side hp hfind)
    | @entry x cond onTrue onFalse p taken _ _ _ hp hx =>
        exact absurd ⟨x, cond, onTrue, onFalse, p, taken, hx, by rwa [h.steers], rfl⟩ hsteer
    | carried hj hop | decider hj hop | merged hj hop | steered hj hop =>
        subst hb'
        exact absurd hop (hjoin hj)
    | memory hon =>
        rw [hoff] at hon
        cases hon
  · intro hex
    obtain ⟨v, hv, ha⟩ := hex
    refine ⟨h.input.mpr ?_, h.not_isBranchSteer ha⟩
    refine (h.wired.operand hi hphi hb hv).hasEdge hsound (fun x n hop hopen => ?_) ha
    exact hopen (hsound.operator hop)

end Draft.Finishes

/-! ## The result -/

/-- Leaves and selects have their nodes, and the inputs of an instruction other than a phi, leaving
aside the steers of conditional branches, are exactly what produces its operands. -/
theorem inputs_exact {text : String} {m : Module} (hread : Module.readChecked text = .ok m)
    (hf : f ∈ m.functions) (hoff : options.memoryDependencies = false) (hi : (id, i) ∈ f.steps)
    (hphi : i.isPhi = false)
    (hb : (f.lowerWith forest options).graph.find? (.result id) = some b) :
    f.Stocked forest options ∧
      ∀ a, a ∈ (f.lowerWith forest options).graph.inputs b ∧
          ¬ f.IsBranchSteer (f.lowering forest options).steers a ↔
        ∃ v ∈ i.operands, Producers f (f.lowerWith forest options).graph
          (f.lowering forest options).steers v a := by
  have hbound := (Module.readChecked_checked hread hf).toBound
  refine ⟨hbound.whole.stocked forest options, fun a => ?_⟩
  obtain ⟨d, h⟩ := Draft.finishes_lowering hbound forest options
  rw [f.graph_lowerWith] at hb ⊢
  rw [h.operator] at hb
  simp only [h.producers_iff]
  exact h.mem_inputs_iff hoff (Function.mem_steps.mp hi).2 hphi hb

/-- A function whose sum reads a choice between a converted parameter and a literal. -/
def chosenSum : Function where
  name := "f"
  ret := .int 64
  params := [⟨"a", .int 32⟩, ⟨"c", .int 1⟩]
  blocks := [⟨"entry", [0, 1, 2, 3]⟩]
  slots := [
    ⟨some "w", .cast .sext ⟨.int 32, .param 0⟩ (.int 64), 0⟩,
    ⟨some "b", .select (.param 1) (.int 64) (.result 0) (.const ⟨.int 64, "7"⟩), 0⟩,
    ⟨some "r", .binary .add (.int 64) (.result 1) (.const ⟨.int 64, "1"⟩), 0⟩,
    ⟨none, .ret (some ⟨.int 64, .result 2⟩), 0⟩]

/-- The text of `chosenSum`. -/
def chosenSumText : String :=
  "define i64 @f(i32 %a, i1 %c) \x7b\nentry:\n  %w = sext i32 %a to i64\n" ++
    "  %b = select i1 %c, i64 %w, i64 7\n  %r = add i64 %b, 1\n  ret i64 %r\n\x7d\n"

/-- The text of a chosen sum is read as the function. -/
theorem read_chosenSum : Module.readChecked chosenSumText = .ok ⟨[chosenSum]⟩ := by
  decide +kernel

/-- The inputs of the sum are exactly the steers of the select and the node of the constant. -/
theorem inputs_exact_chosenSum :
    (chosenSum.lowerWith {} {}).graph.find? (.result 2) = some 0 ∧ chosenSum.Stocked {} {} ∧
      ∀ a, a ∈ (chosenSum.lowerWith {} {}).graph.inputs 0 ∧
          ¬ chosenSum.IsBranchSteer (chosenSum.lowering {} {}).steers a ↔
        ∃ v ∈ [.result 1, .const ⟨.int 64, "1"⟩], Producers chosenSum
          (chosenSum.lowerWith {} {}).graph (chosenSum.lowering {} {}).steers v a :=
  have hsum : (2, .binary .add (.int 64) (.result 1) (.const ⟨.int 64, "1"⟩)) ∈
      chosenSum.steps := by
    decide
  ⟨by decide +kernel, inputs_exact read_chosenSum List.mem_cons_self rfl hsum rfl
    (by decide +kernel)⟩

end Dataflow
