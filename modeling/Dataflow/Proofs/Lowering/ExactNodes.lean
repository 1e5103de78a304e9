import Dataflow.Proofs.Lowering.Inventory
import Dataflow.Proofs.Lowering.Operands
import Mathlib.Data.List.Sigma

/-!
# Which nodes there are

The nodes of a finished graph are the items of the inventory, one for one (`exact_nodes`). Every
item has a node of its operator (`Draft.Stocks.node_of_lists`), since leaves that are read are asked
for, what is to have an operator has one, and branches and selects have their steers. Every node is
that of an item (`Draft.Stocks.lists_of_node`), since it has a reason, and what has no operator in
the end goes. No two items share a node (`Draft.Stocks.lists_unique`).
-/

namespace Dataflow

/-- The nodes of the finished graph are the items of the inventory, one for one. -/
structure Function.ExactNodes (f : Function) (forest : LoopForest) (options : LowerOptions) :
    Prop where
  /-- Every item has a node of its own with its operator and its value, and there is no other
  node. -/
  nodes : ((f.lowerWith forest options).graph.entries.map fun entry =>
      (some entry.1, entry.2.kind, entry.2.origin)).Perm
    ((f.inventory forest options).map fun item =>
      (item.node? (f.lowering forest options), item.kind, item.origin))
  /-- No node is left without an operator. -/
  known : ∀ n, (f.lowerWith forest options).graph.kind? n ≠ some .unknown
  /-- No two nodes stand for one value. -/
  origin_unique : ∀ {n m a b v}, (f.lowerWith forest options).graph.node? n = some a →
    (f.lowerWith forest options).graph.node? m = some b →
    a.origin = some v → b.origin = some v → n = m

variable {f : Function} {forest : LoopForest} {options : LowerOptions} {d e : Draft}
  {id : InstId} {i : Instruction} {v : Operand} {n : NodeId} {kind : Operator} {node : Node}
  {item item' : Item} {taken : Bool}

/-! ## Items and nodes -/

namespace Draft

/-- What is known of the draft `e` that lowering ends with by the draft `d` before nodes go. -/
structure Stocks (f : Function) (forest : LoopForest) (options : LowerOptions) (d e : Draft) :
    Prop extends Finishes f forest options d e where
  /-- Every node has a reason. -/
  reasoned : d.Reasoned f options
  /-- Leaves have their nodes. -/
  found : ∀ v ∈ f.leaves, ∃ n, d.graph.find? v = some n
  /-- The nodes without an operator go. -/
  node : ∀ {n node}, e.graph.node? n = some node ↔
    d.graph.node? n = some node ∧ node.kind ≠ .unknown
  stream : e.stream = d.stream

theorem stocks_lowering (hf : f.Whole) (forest : LoopForest) (options : LowerOptions) :
    ∃ d, Stocks f forest options d (f.lowering forest options) := by
  have hrun : f.lowering forest options = Draft.enter f forest options
      ([Stage.nodes, .steers, .leaves, .results, .joins, .memory].foldl
        (Draft.enter f forest options) {}) .cleanup := rfl
  have hwired := wired_of_whole hf forest options
  have hreasoned := reasoned_before_cleanup f forest options
  have hfound := fun v hv => find?_before_cleanup (v := v) f forest options hv
  rw [hrun]
  generalize [Stage.nodes, .steers, .leaves, .results, .joins, .memory].foldl
    (Draft.enter f forest options) {} = d at hwired hreasoned hfound ⊢
  refine ⟨d, hwired.finishes, hreasoned, hfound, fun {n node} => ?_, stream_enter_cleanup⟩
  rw [node?_cleanup, Option.filter_eq_some_iff, decide_eq_true_eq]

namespace Stocks

variable (hf : f.Whole) (h : Stocks f forest options d (f.lowering forest options))

include h

/-- The node of a value stands for it and has an operator that suits it. -/
theorem suits (hv : d.graph.find? v = some n) :
    ∃ node, d.graph.node? n = some node ∧ node.origin = some v ∧ f.Suits v node.kind := by
  obtain ⟨node, hnode, horigin⟩ := h.wired.lawful.sound.full.owner hv
  refine ⟨node, hnode, horigin, ?_⟩
  cases h.reasoned n node hnode with
  | value hw _ hsuits =>
      rw [horigin] at hw
      cases hw
      exact hsuits
  | steer hnone | stream hnone =>
      rw [horigin] at hnone
      cases hnone

/-- A condition that has no operator by its role computes. -/
theorem kind_of_idle {r : Role} (hop : d.operator? id = some n)
    (hnode : d.graph.node? n = some node) (hi : f.instruction? id = some i)
    (hrole : i.role? = some r) (hr : r.kind = .unknown) : node.kind = .binaryOp := by
  obtain ⟨hfind, m, hm, hne⟩ := operator?_eq_some.mp hop
  rw [hnode] at hm
  cases hm
  obtain ⟨m, hm, _, hsuits⟩ := h.suits hfind
  rw [hnode] at hm
  cases hm
  generalize node.kind = kind at hne hsuits ⊢
  cases hsuits with
  | idle => exact absurd rfl hne
  | role hj hrole' =>
      rw [hi] at hj
      cases hj
      rw [hrole] at hrole'
      cases hrole'
      exact absurd hr hne
  | decider => rfl
  | carry hjoin =>
      -- a phi has an operator by its role
      obtain ⟨ty, hj⟩ := hjoin.instruction
      rw [hi] at hj
      cases hj
      cases hrole
      cases hr

/-- What is to have an operator has one. -/
theorem operator_of_finalKind? (hstep : (id, i) ∈ f.steps)
    (hkind : f.finalKind? forest (id, i) = some kind) : ∃ n, d.operator? id = some n := by
  obtain ⟨_, hi⟩ := Function.mem_steps.mp hstep
  obtain ⟨r, hrole, hr⟩ := Option.bind_eq_some_iff.mp hkind
  refine h.wired.operator ?_
  split at hr
  · split at hr
    · rename_i hdecides
      exact Or.inr ⟨⟨i, hi, Instruction.hasNode_iff_role.mpr ⟨r, hrole⟩⟩,
        Function.decides_iff.mp hdecides⟩
    · cases hr
  · rename_i hne
    exact Or.inl ⟨i, hi, by simp [Instruction.isSolid, hrole, hne]⟩

/-- A leaf that is listed has a node that suits it. -/
theorem node_of_leaf (hv : v ∈ f.leaves) : ∃ n node,
    (f.lowering forest options).graph.find? v = some n ∧
    (f.lowering forest options).graph.node? n = some node ∧
    node.origin = some v ∧ f.Suits v node.kind := by
  have hleaf := isLeaf_of_mem_leaves hv
  obtain ⟨n, hn⟩ := h.found v hv
  obtain ⟨node, hnode, horigin, hsuits⟩ := h.suits hn
  have hne := h.wired.lawful.sound.leaf hn hleaf hnode
  exact ⟨n, node, (h.leaf hleaf).trans hn, h.node.mpr ⟨hnode, hne⟩, horigin, hsuits⟩

include hf

/-- An instruction with an operator has the one that the inventory says. -/
theorem finalKind?_eq (hop : d.operator? id = some n) (hnode : d.graph.node? n = some node) :
    ∃ i, (id, i) ∈ f.steps ∧ f.finalKind? forest (id, i) = some node.kind := by
  have hhas := h.wired.lawful.sound.operator hop
  obtain ⟨i, hi, hi_node⟩ := hhas.hasNode
  obtain ⟨r, hrole⟩ := Instruction.hasNode_iff_role.mp hi_node
  have hstep : (id, i) ∈ f.steps := Function.mem_steps.mpr ⟨hf.mem_live hi, hi⟩
  refine ⟨i, hstep, ?_⟩
  simp only [Function.finalKind?, hrole, Option.bind_some]
  by_cases hr : r.kind = .unknown
  · have hdecides : f.decides id = true := by
      refine Function.decides_iff.mpr (hhas.resolve_left ?_).2
      intro hsolid
      obtain ⟨j, hj, hsolid⟩ := hsolid
      rw [hi] at hj
      cases hj
      simp [Instruction.isSolid, hrole, hr] at hsolid
    rw [if_pos hr, if_pos hdecides, h.kind_of_idle hop hnode hi hrole hr]
  · obtain ⟨m, kind, hm, hkind, hcarry, hmerge⟩ := f.kind_lowerWith forest options hstep hrole hr
    obtain ⟨_, _, hm', hne⟩ := operator?_eq_some.mp hop
    rw [hnode] at hm'
    cases hm'
    rw [f.graph_lowerWith, h.operator, hop] at hm
    cases hm
    rw [f.graph_lowerWith, Graph.kind?, h.node.mpr ⟨hnode, hne⟩, Option.map_some,
      Option.some.injEq] at hkind
    rw [if_neg hr]
    split
    · rename_i hcarried
      rw [hkind, hcarry (Function.carried_iff.mp hcarried)]
    · rename_i hcarried
      rw [hkind, hmerge fun hcarries => hcarried (Function.carried_iff.mpr hcarries)]

/-- Every item has a node with its operator and its value. -/
theorem node_of_lists (hitem : f.Lists forest options item) : ∃ n node,
    item.node? (f.lowering forest options) = some n ∧
    (f.lowering forest options).graph.node? n = some node ∧
    node.kind = item.kind ∧ node.origin = item.origin := by
  have hsound := h.wired.lawful.sound
  cases hitem with
  | @param k hk =>
      have hmem : Operand.param k ∈ f.leaves :=
        List.mem_append_left _ (List.mem_map_of_mem (List.mem_range.mpr hk))
      obtain ⟨n, node, hn, hnode, horigin, hsuits⟩ := h.node_of_leaf hmem
      refine ⟨n, node, hn, hnode, ?_, horigin⟩
      generalize node.kind = kind at hsuits ⊢
      cases hsuits
      rfl
  | @constant v id i hconst hi hv =>
      have hleaf : v.isLeaf = true := by cases v <;> simp_all [Operand.isConstant, Operand.isLeaf]
      have hmem : v ∈ f.leaves := List.mem_append_right _
        (List.mem_filter.mpr ⟨List.mem_flatMap.mpr ⟨(id, i), hi, hv⟩, hleaf⟩)
      obtain ⟨n, node, hn, hnode, horigin, hsuits⟩ := h.node_of_leaf hmem
      refine ⟨n, node, hn, hnode, ?_, horigin⟩
      generalize node.kind = kind at hsuits ⊢
      cases hsuits with
      | const | global => rfl
      | _ => cases hconst
  | @result id i kind hi hkind =>
      obtain ⟨n, hop⟩ := h.operator_of_finalKind? hi hkind
      obtain ⟨hfind, node, hnode, hne⟩ := operator?_eq_some.mp hop
      obtain ⟨j, hj, hkind'⟩ := h.finalKind?_eq hf hop hnode
      obtain ⟨m, hm, horigin, _⟩ := h.suits hfind
      rw [hnode] at hm
      cases hm
      have hsame := (Function.mem_steps.mp hi).2
      rw [(Function.mem_steps.mp hj).2] at hsame
      cases hsame
      rw [hkind] at hkind'
      exact ⟨n, node, h.operator.trans hop, h.node.mpr ⟨hnode, hne⟩,
        (Option.some.inj hkind').symm, horigin⟩
  | @steer id i taken hi hcond =>
      obtain ⟨cond, hcond⟩ := Option.isSome_iff_exists.mp hcond
      obtain ⟨p, hp⟩ := h.wired.paired (Function.mem_steps.mp hi).2 hcond
      obtain ⟨node, hnode, horigin, hkind⟩ := hsound.side hp taken
      refine ⟨p.side taken, node, ?_, h.node.mpr ⟨hnode, ?_⟩, hkind, horigin⟩
      · simp [Item.node?, h.steers, hp]
      · rw [hkind]
        cases taken <;> simp
  | stream hon hbranch =>
      have hstreams : f.Streams options := (Function.streams_iff hf).mpr ⟨hon, hbranch⟩
      obtain ⟨_, id, cond, onTrue, onFalse, hi⟩ := hstreams
      obtain ⟨p, hp⟩ := h.wired.paired hi rfl
      obtain ⟨n, hn, _⟩ := h.wired.streamed hon id cond onTrue onFalse p hi hp
      exact ⟨n, _, h.stream.trans hn, h.node.mpr ⟨hsound.stream hn, by simp⟩, rfl, rfl⟩

/-- Every node is that of an item. -/
theorem lists_of_node (hresolved : f.Resolved)
    (hnode : (f.lowering forest options).graph.node? n = some node) :
    ∃ item, f.Lists forest options item ∧ item.node? (f.lowering forest options) = some n := by
  obtain ⟨hnode, hne⟩ := h.node.mp hnode
  have hsound := h.wired.lawful.sound
  cases h.reasoned n node hnode with
  | @value v horigin hasks hsuits =>
      have hfind := hsound.full.origin hnode horigin
      cases v with
      | function name => cases hsuits
      | param k =>
          refine ⟨_, .param ?_, (h.leaf rfl).trans hfind⟩
          rcases hasks rfl with ⟨k', hk, hv⟩ | ⟨id, i, hi, hv⟩
          · cases hv
            exact hk
          · exact hresolved.param hi hv
      | const | global =>
          rcases hasks rfl with ⟨k', _, hv⟩ | ⟨id, i, hi, hv⟩
          · cases hv
          · exact ⟨_, .constant rfl (Function.mem_steps.mpr ⟨hf.mem_live hi, hi⟩) hv,
              (h.leaf rfl).trans hfind⟩
      | result id =>
          have hop := operator?_eq_some.mpr ⟨hfind, node, hnode, hne⟩
          obtain ⟨i, hi, hkind⟩ := h.finalKind?_eq hf hop hnode
          exact ⟨_, .result hi hkind, h.operator.trans hop⟩
  | @steer id p taken _ _ hp hside =>
      obtain ⟨i, cond, hi, hcond⟩ := hsound.condition hp
      refine ⟨.steer id taken, .steer (Function.mem_steps.mpr ⟨hf.mem_live hi, hi⟩)
        (by simp [hcond]), ?_⟩
      simp [Item.node?, h.steers, hp, hside]
  | stream _ _ hn hstreams =>
      obtain ⟨hon, hbranch⟩ := (Function.streams_iff hf).mp hstreams
      exact ⟨.stream, .stream hon hbranch, h.stream.trans hn⟩

/-- No two items have the same node. -/
theorem lists_unique (hitem : f.Lists forest options item) (hitem' : f.Lists forest options item')
    (hsame : item.node? (f.lowering forest options) = item'.node? (f.lowering forest options)) :
    item = item' := by
  obtain ⟨n, node, hn, hnode, hkind, horigin⟩ := h.node_of_lists hf hitem
  obtain ⟨m, node', hm, hnode', hkind', horigin'⟩ := h.node_of_lists hf hitem'
  have hnm : n = m := Option.some.inj (hn.symm.trans (hsame.trans hm))
  subst hnm
  rw [hnode] at hnode'
  cases hnode'
  rw [hkind] at hkind'
  rw [horigin] at horigin'
  cases item with
  | value v kind =>
      cases item' with
      | value w kind' =>
          cases horigin'
          cases hkind'
          rfl
      | steer | stream => cases horigin'
  | steer id taken =>
      cases item' with
      | value => cases horigin'
      | steer id' taken' =>
          obtain ⟨p, hp, hside⟩ := Option.map_eq_some_iff.mp hn
          obtain ⟨p', hp', hside'⟩ := Option.map_eq_some_iff.mp hm
          rw [h.steers] at hp hp'
          obtain ⟨rfl, rfl⟩ :=
            h.wired.lawful.sound.steer_unique hp hp' (hside.trans hside'.symm)
          rfl
      | stream => cases taken <;> cases hkind'
  | stream =>
      cases item' with
      | value => cases horigin'
      | steer id' taken' => cases taken' <;> cases hkind'
      | stream => rfl

end Stocks

end Draft

/-! ## The result -/

/-- The nodes of the finished graph are exactly those of the inventory. -/
theorem exact_nodes {text : String} {m : Module} (hread : Module.read text = .ok m)
    (hf : f ∈ m.functions) (forest : LoopForest) (options : LowerOptions) :
    f.ExactNodes forest options := by
  have hbound := Module.read_bound hread hf
  have hwhole := hbound.whole
  obtain ⟨d, h⟩ := Draft.stocks_lowering hwhole forest options
  refine ⟨?_, fun n hn => ?_, fun {n m a b v} hn hm ha hb => ?_⟩
  · -- both lists tell nodes apart, so it is enough that they have the same members
    have hentries : ((f.lowerWith forest options).graph.entries.map fun entry =>
        (some entry.1, entry.2.kind, entry.2.origin)).Nodup := by
      refine List.Nodup.of_map Prod.fst ?_
      have hnumbers := (f.lowerWith forest options).graph.nodup_entries.map
        fun _ _ => Option.some.inj
      simpa only [List.map_map, Function.comp_def] using hnumbers
    have hitems : ((f.inventory forest options).map fun item =>
        (item.node? (f.lowering forest options), item.kind, item.origin)).Nodup :=
      (f.nodup_inventory hbound.placed.live_nodup).map_on fun x hx y hy hxy =>
        h.lists_unique hwhole (Function.mem_inventory.mp hx) (Function.mem_inventory.mp hy)
          (congrArg Prod.fst hxy)
    refine (List.perm_ext_iff_of_nodup hentries hitems).mpr fun x => ?_
    simp only [List.mem_map, Prod.exists, Graph.mem_entries, Function.mem_inventory]
    constructor
    · intro hx
      obtain ⟨n, node, hnode, rfl⟩ := hx
      obtain ⟨item, hitem, hn⟩ := h.lists_of_node hwhole hbound.resolved hnode
      obtain ⟨n', node', hn', hnode', hkind, horigin⟩ := h.node_of_lists hwhole hitem
      rw [hn] at hn'
      cases hn'
      rw [f.graph_lowerWith, hnode'] at hnode
      cases hnode
      exact ⟨item, hitem, by rw [hn, hkind, horigin]⟩
    · intro hx
      obtain ⟨item, hitem, rfl⟩ := hx
      obtain ⟨n, node, hn, hnode, hkind, horigin⟩ := h.node_of_lists hwhole hitem
      exact ⟨n, node, hnode, by rw [hn, hkind, horigin]⟩
  · obtain ⟨node, hnode, hkind⟩ := Graph.kind?_eq_some.mp hn
    exact (h.node.mp hnode).2 hkind
  · have hfull := h.wired.lawful.sound.full
    have hsame := hfull.origin (h.node.mp hn).1 ha
    rw [hfull.origin (h.node.mp hm).1 hb] at hsame
    exact (Option.some.inj hsame).symm

/-- A function that branches and selects by the result of a call and reserves memory for nothing. -/
def testedChoice : Function where
  name := "f"
  ret := .int 32
  params := [⟨"a", .int 32⟩]
  blocks := [⟨"entry", [0, 1, 2, 3]⟩, ⟨"left", [4]⟩, ⟨"join", [5, 6]⟩]
  slots := [
    ⟨some "p", .alloca (.int 32) none, 0⟩,
    ⟨some "t", .call (.int 1) (.function "test") [⟨.int 32, .param 0⟩], 0⟩,
    ⟨some "b", .select (.result 1) (.int 32) (.const ⟨.int 32, "7"⟩) (.param 0), 0⟩,
    ⟨none, .branch (.result 1) 1 2, 0⟩,
    ⟨none, .jump 2, 1⟩,
    ⟨some "r", .phi (.int 32) [⟨.result 2, 1⟩, ⟨.const ⟨.int 32, "7"⟩, 0⟩], 2⟩,
    ⟨none, .ret (some ⟨.int 32, .result 5⟩), 2⟩]

/-- The text of `testedChoice`. -/
def testedChoiceText : String :=
  "define i32 @f(i32 %a) \x7b\nentry:\n  %p = alloca i32\n  %t = call i1 @test(i32 %a)\n" ++
    "  %b = select i1 %t, i32 7, i32 %a\n  br i1 %t, label %left, label %join\n" ++
    "left:\n  br label %join\n" ++
    "join:\n  %r = phi i32 [ %b, %left ], [ 7, %entry ]\n  ret i32 %r\n\x7d\n"

theorem read_testedChoice : Module.read testedChoiceText = .ok ⟨[testedChoice]⟩ := by
  decide +kernel

theorem exact_nodes_testedChoice :
    Module.read testedChoiceText = .ok ⟨[testedChoice]⟩ ∧
      testedChoice.ExactNodes testedChoice.loopForest {} :=
  ⟨read_testedChoice, exact_nodes read_testedChoice List.mem_cons_self testedChoice.loopForest {}⟩

-- the call decides, so it computes; the reserved memory has no node
example : testedChoice.inventory testedChoice.loopForest {} =
    [.value (.param 0) .functionInput, .value (.const ⟨.int 32, "7"⟩) .constant,
      .value (.result 1) .binaryOp, .value (.result 5) .merge,
      .value (.result 6) .functionOutput, .steer 2 true, .steer 2 false, .steer 3 true,
      .steer 3 false, .stream] := by
  decide +kernel

end Dataflow
