import Dataflow.Proofs.Lowering.MirrorStages
import Dataflow.Proofs.Lowering.NodeReasons

/-!
# Phis wired in two ways

Which loops there are and whether plain branches are traced decide how a phi is wired. Before the
stage that wires phis, every leaf has its node and every branch and select its steers
(`Draft.Settled`). So a search finds what is there, and adds edges into its target alone
(`feed_settled`): wiring a phi in either way changes its own node and adds edges into that node and
into steers of branches (`Draft.Settled.wireJoin`). The two ways show each other but for these
(`Draft.Settled.enter_joins`).
-/

namespace Dataflow

/-- A node stands for a phi. -/
def Function.IsPhiNode (f : Function) (g : Graph) (n : NodeId) : Prop :=
  ∃ id block arms, f.IsJoin id block arms ∧ g.find? (.result id) = some n

variable {joins into : NodeId → Prop} {f : Function} {forest forest' : LoopForest}
  {options options' : LowerOptions} {d e g : Draft} {id : InstId} {i : Instruction} {v : Operand}
  {p : SteerPair} {target join n : NodeId} {T : NodeId → Prop} {P : InstId → Prop}
  {arms : List Arm} {arm : Arm} {block : BlockId}

namespace Draft

/-- Turning the node of a phi into a carry does not show either. -/
theorem Mirrors.of_toCarry (h : Mirrors none joins into d d) (hjoin : joins join) :
    Mirrors none joins into d (d.toCarry join) := by
  have hnode : ∀ {m}, (d.toCarry join).graph.node? m = if m = join
      then (d.graph.node? m).map fun node =>
        { node with kind := .carry, label := "C", symbol := "" }
      else d.graph.node? m := Graph.node?_modifyNode _
  refine { h with
    node := fun {n} hn => ?_
    join := fun {n} hn => ?_
    full' := Graph.full_modifyNode h.full fun _ => rfl
    next := Graph.length_modifyNode _ }
  · rw [renumber_none, hnode, if_neg]
    exact fun heq => hn (heq ▸ hjoin)
  · obtain ⟨m, _, hm, _, hjoins, _⟩ := h.join hn
    rw [renumber_none, hnode, hm]
    split
    · exact ⟨m, _, rfl, rfl, hjoins, ⟨rfl, Or.inr ⟨rfl, rfl⟩⟩, rfl⟩
    · exact ⟨m, m, rfl, rfl, hjoins, hjoins, rfl⟩

/-! ## Searches that find everything there -/

/-- Every leaf has its node, and every branch and select its steers. Nodes of phis are in `joins`,
and edges into them and into steers of branches need not show. -/
structure Settled (f : Function) (joins into : NodeId → Prop) (d : Draft) : Prop where
  leaf : ∀ {v}, f.Asks v → v.isLeaf = true → ∃ n, d.graph.find? v = some n
  paired : ∀ {id i cond}, f.instruction? id = some i → i.condition? = some cond →
    ∃ p, d.steers.lookup id = some p
  join : ∀ {n}, f.IsPhiNode d.graph n → joins n ∧ into n
  branch : ∀ {n}, f.IsBranchSteer d.steers n → into n

/-- Equal values and pairs of steers. -/
theorem Settled.congr (h : Settled f joins into d) (hvalue : ∀ v, e.graph.find? v = d.graph.find? v)
    (hsteers : ∀ id, e.steers.lookup id = d.steers.lookup id) : Settled f joins into e := by
  refine ⟨fun hv hleaf => ?_, fun hi hcond => ?_, fun hn => h.join ?_, fun hn => h.branch ?_⟩
  · rw [hvalue]
    exact h.leaf hv hleaf
  · rw [hsteers]
    exact h.paired hi hcond
  · simpa only [Function.IsPhiNode, hvalue] using hn
  · simpa only [Function.IsBranchSteer, hsteers] using hn

/-- A settled draft stays settled when only edges are added. -/
theorem Settled.feedsInto (h : Settled f joins into d) (he : FeedsInto T d e) :
    Settled f joins into e :=
  h.congr (fun _ => he.find?) fun id => by rw [he.steers]

/-- A draft that mirrors a settled one is settled. -/
theorem Settled.mirrors (h : Settled f joins into d) (he : Mirrors none joins into d e) :
    Settled f joins into e :=
  h.congr (fun v => (he.value v).trans (map_renumber_none _))
    fun id => (he.steers id).trans (SteerPair.map_renumber_none _)

/-- The node of a value that has one is that node. -/
theorem nodeFor_of_find? (hv : d.graph.find? v = some n) : d.nodeFor f v = (d, some n) := by
  simp only [nodeFor, Graph.nodeFor, hv]

end Draft

/-- In a settled draft the edge from a leaf is all that is added. -/
theorem Feed.fromLeaf_settled {s : Feed} (hs : s.draft.Settled f joins into) (hv : f.Asks v)
    (hleaf : v.isLeaf = true) (htarget : T target) :
    Draft.FeedsInto T s.draft (s.fromLeaf f v target).draft := by
  obtain ⟨n, hn⟩ := hs.leaf hv hleaf
  rw [fromLeaf_draft, Draft.nodeFor_of_find? hn]
  exact Draft.link_feedsInto htarget

/-- A search adds edges into its target and nothing else. -/
theorem feed_settled (depth : Nat) {s : Feed} (hs : s.draft.Settled f joins into) (hv : f.Asks v)
    (htarget : T target) : Draft.FeedsInto T s.draft (feed f depth v target s).draft := by
  induction depth generalizing v s with
  | zero =>
      cases v with
      | function | result => exact .refl _
      | param | const | global => exact Feed.fromLeaf_settled hs hv rfl htarget
  | succ depth ih =>
      cases v with
      | function => exact .refl _
      | param | const | global => exact Feed.fromLeaf_settled hs hv rfl htarget
      | result id =>
          by_cases hid : id ∈ s.visited
          · rw [feed_of_mem hid]
            exact .refl _
          cases hi : f.instruction? id with
          | none =>
              simp only [feed, if_neg hid, hi]
              exact .refl _
          | some i =>
              cases hsel : i.isSelect with
              | true =>
                  obtain ⟨cond, hcond⟩ := Instruction.condition?_of_isSelect hsel
                  obtain ⟨p, hp⟩ := hs.paired hi hcond
                  have hpair : s.draft.selectSteers f (Draft.wireBy f (feed f depth)) id =
                      (s.draft, some p) := by
                    unfold Draft.selectSteers
                    rw [hp]
                  rw [feed_of_isSelect hid hi hsel hpair]
                  have htrue : Draft.FeedsInto T s.draft (s.draft.link p.onTrue target) :=
                    Draft.link_feedsInto htarget
                  exact htrue.trans (Draft.link_feedsInto htarget)
              | false =>
                  cases hop : s.draft.operator? id with
                  | some n =>
                      rw [feed_of_operator hid hi hsel hop]
                      exact Draft.link_feedsInto htarget
                  | none =>
                      rw [feed_of_open hid hi hsel hop]
                      exact List.foldlRecOn i.operands _
                        (motive := fun t : Feed => Draft.FeedsInto T s.draft t.draft)
                        (.refl _) fun t ht w hw =>
                          ht.trans (ih (hs.feedsInto ht) (Function.asks_of_mem hi hw))

namespace Draft

section Wiring

variable (hd : Settled f joins into d)

include hd

/-- In a settled draft wiring only adds edges into its target. -/
theorem Settled.wire (hv : f.Asks v) (htarget : into target) :
    FeedsInto into d (d.wire f v target) := by
  have hfeed := feed_settled f.feedDepth (s := { draft := d }) hd hv htarget
  unfold Draft.wire wireBy
  simp only
  split
  · exact hfeed
  · exact hfeed.trans (.report _ _)

/-! ## Phis -/

/-- Once a phi is a carry, only edges are added. -/
theorem Settled.lowerCarry (hjoin : into join) (harms : ∀ arm ∈ arms, f.Asks arm.value)
    (l : NaturalLoop) :
    FeedsInto into (d.toCarry join) (d.lowerCarry f id join l arms) := by
  have h₀ : Settled f joins into (d.toCarry join) := hd.congr (fun _ => rfl) fun _ => rfl
  have hdecider : FeedsInto into (d.toCarry join) (wireDecider f id join l (d.toCarry join)) := by
    unfold wireDecider
    split
    · rename_i cond hcond
      obtain ⟨x, i, hi, hmem⟩ := Function.loopDecider_eq_some hcond
      exact h₀.wire (Function.asks_of_mem hi hmem) hjoin
    · exact .report _ _
  rw [lowerCarry_eq]
  exact List.foldlRecOn arms _ (motive := FeedsInto into (d.toCarry join)) hdecider
    fun e he arm harm => he.trans ((h₀.feedsInto he).wire (harms arm harm) hjoin)

/-- An arm of a merge adds edges into its node or a steer of a branch. -/
theorem Settled.lowerArm (hjoin : into join) (harm : f.Asks arm.value) :
    FeedsInto into d (d.lowerArm f options block join arm) := by
  unfold Draft.lowerArm
  cases hway : f.controlling options.traceBranches arm.source block with
  | none => exact hd.wire harm hjoin
  | some way =>
      obtain ⟨branch, taken⟩ := way
      obtain ⟨cond, onTrue, onFalse, hi⟩ := Function.controlling?_eq_some hway
      obtain ⟨p, hp⟩ := hd.paired hi rfl
      simp only [branchSteers, hp]
      exact (hd.wire harm (hd.branch ⟨branch, cond, onTrue, onFalse, p, taken, hi, hp, rfl⟩)).trans
        (link_feedsInto hjoin)

variable (forest options) in
/-- What a phi takes does not show, whether it is a carry or a merge. -/
theorem Settled.wireJoin (h : Mirrors none joins into d d) (hjoin : f.IsJoin id block arms)
    (hop : d.operator? id = some join) :
    Mirrors none joins into d (match forest.carrying? block arms with
      | some l => d.lowerCarry f id join l arms
      | none => arms.foldl (Draft.lowerArm f options block join) d) := by
  obtain ⟨hjoins, hinto⟩ := hd.join ⟨id, block, arms, hjoin, (operator?_eq_some.mp hop).1⟩
  obtain ⟨ty, hi⟩ := hjoin.instruction
  have harms : ∀ arm ∈ arms, f.Asks arm.value := fun arm harm =>
    Function.asks_of_mem hi (List.mem_map_of_mem harm)
  split
  · rename_i l _
    have hcarry := h.of_toCarry hjoins
    exact hcarry.trans ((hcarry.symm.trans hcarry).of_feedsInto (hd.lowerCarry hinto harms l))
  · exact h.of_feedsInto (List.foldlRecOn arms _ (motive := FeedsInto into d) (.refl d)
      fun e he arm harm => he.trans ((hd.feedsInto he).lowerArm hinto (harms arm harm)))

end Wiring

/-- Feeding a user of a phi adds edges only. -/
theorem feedJoinUser_feedsInto {user : InstId} :
    FeedsInto (fun _ => True) d (d.feedJoinUser f join user) := by
  unfold feedJoinUser
  split
  · exact .refl d
  · cases d.operator? user with
    | none => exact .refl d
    | some n => exact link_feedsInto trivial

/-- Wiring a phi in one way shows wiring it in another. -/
theorem Settled.lowerJoin (hd : Settled f joins into d) (h : Mirrors none joins into d e)
    (id : InstId) :
    Mirrors none joins into (d.lowerJoin f forest options id) (e.lowerJoin f forest' options' id) ∧
      Settled f joins into (d.lowerJoin f forest options id) := by
  by_cases hjoin : ∃ block arms, f.IsJoin id block arms
  · obtain ⟨block, arms, hjoin⟩ := hjoin
    have hop := h.operator? id
    rw [map_renumber_none] at hop
    rw [lowerJoin_of_isJoin hjoin, lowerJoin_of_isJoin hjoin, hop]
    cases hnode : d.operator? id with
    | none => exact ⟨h, hd⟩
    | some join =>
        rw [hnode] at hop
        have hleft := hd.wireJoin forest options (h.trans h.symm) hjoin
          hnode
        have hright := (hd.mirrors h).wireJoin forest' options'
          (h.symm.trans h) hjoin hop
        refine ⟨?_, ?_⟩
        · exact List.foldl_rel ((hleft.symm.trans h).trans hright)
            fun user _ _ _ h => h.feedJoinUser f join user
        · exact List.foldlRecOn _ _ (motive := Settled f joins into) (hd.mirrors hleft)
            fun e he user _ => he.feedsInto feedJoinUser_feedsInto
  · have hnot : ∀ block arms, ¬ f.IsJoin id block arms := fun block arms hex =>
      hjoin ⟨block, arms, hex⟩
    rw [lowerJoin_of_not_isJoin hnot, lowerJoin_of_not_isJoin hnot]
    exact ⟨h, hd⟩

/-- The stage that wires phis in one way shows it in another. -/
theorem Settled.enter_joins (hd : Settled f joins into d) (h : Mirrors none joins into d e)
    (forest forest' : LoopForest) (options options' : LowerOptions) :
    Mirrors none joins into (d.enter f forest options .joins)
      (e.enter f forest' options' .joins) := by
  refine (List.foldl_rel (r := fun d e => Mirrors none joins into d e ∧ Settled f joins into d)
    ⟨h.report _ _, hd.feedsInto (T := fun _ => True) (.report d _)⟩ fun id _ d e hex => ?_).1
  obtain ⟨h, hd⟩ := hex
  exact hd.lowerJoin h id

/-! ## Before phis are wired -/

/-- The node of a phi has no operator yet, or is a merge that is labelled as one. -/
def MergesLabelled (f : Function) (d : Draft) : Prop :=
  ∀ id block arms n m, f.IsJoin id block arms → d.graph.find? (.result id) = some n →
    d.graph.node? n = some m → m.kind = .unknown ∨ m.Joins

/-- The node of an instruction is labelled as a merge when it is one. -/
theorem MergesLabelled.addRole (h : MergesLabelled f d) (hd : Plays f d)
    (hi : f.instruction? id = some i) : MergesLabelled f (d.addRole f (id, i)) := by
  have hnodeFor : MergesLabelled f (d.nodeFor f (.result id)).1 := by
    intro x block arms n m hjoin hfind hm
    have hgraph : (d.nodeFor f (.result id)).1.graph = (d.graph.nodeFor f (.result id)).1 := rfl
    rw [hgraph] at hfind hm
    rcases d.graph.nodeFor_cases f (.result id) with ⟨hsame, _⟩ | ⟨_, new, hnew, heq⟩
    · rw [hsame] at hfind hm
      exact h x block arms n m hjoin hfind hm
    · obtain ⟨horigin, _, _, hresult⟩ := newNode?_eq_some hnew
      rw [heq] at hfind hm
      rw [Graph.node?_addNode hd.full] at hm
      rw [Graph.find?_addNode_of_some hd.full horigin] at hfind
      split at hfind
      · rw [if_pos (Option.some.inj hfind).symm] at hm
        cases hm
        exact Or.inl (hresult id rfl).1
      · rw [if_neg (Nat.ne_of_lt (hd.full.lt_of_find? hfind))] at hm
        exact h x block arms n m hjoin hfind hm
  have hfull := (hd.nodeFor (.result id)).full
  have hfind : (d.nodeFor f (.result id)).1.graph.find? (.result id) =
      (d.nodeFor f (.result id)).2 := Graph.find?_nodeFor hd.full
  unfold Draft.addRole
  split
  · exact h
  · rename_i role hrole
    split
    · rename_i heq
      rwa [heq] at hnodeFor
    · rename_i g n heq
      rw [heq] at hnodeFor hfull hfind
      intro x block arms k m hjoin hk hm
      rw [Graph.find?_modifyNode] at hk
      simp only [Graph.node?_modifyNode] at hm
      split at hm
      · -- the node that is changed is that of the phi
        rename_i hkn
        subst hkn
        cases hfull.owner_unique hfind hk
        obtain ⟨ty, hx⟩ := hjoin.instruction
        rw [hi] at hx
        cases hx
        cases hrole
        obtain ⟨old, _, rfl⟩ := Option.map_eq_some_iff.mp hm
        exact Or.inr ⟨rfl, Or.inl ⟨by simp, rfl⟩⟩
      · exact hnodeFor x block arms k m hjoin hk hm

/-- Before phis are wired, their nodes are merges that are labelled as such. -/
theorem joins_before (f : Function) (forest : LoopForest) (options : LowerOptions)
    (hjoin : f.IsJoin id block arms) (hlive : id ∈ f.live)
    (hn : ([Stage.nodes, .steers, .leaves, .results].foldl (Draft.enter f forest options)
      {}).graph.find? (.result id) = some n) :
    ∃ m, ([Stage.nodes, .steers, .leaves, .results].foldl (Draft.enter f forest options)
      {}).graph.node? n = some m ∧ m.Joins := by
  obtain ⟨ty, hi⟩ := hjoin.instruction
  have hlabelled : MergesLabelled f (Draft.enter f forest options {} .nodes) := by
    have hstart : Plays f (({} : Draft).report (.stage f.name Stage.nodes.name)) :=
      ⟨Graph.full_empty, fun hn => by cases hn⟩
    refine (List.foldlRecOn f.steps (Draft.addRole f)
      (motive := fun e : Draft => Plays f e ∧ MergesLabelled f e) ⟨hstart, fun _ _ _ _ _ _ hn => ?_⟩
      fun e he step hstep => ?_).2
    · cases hn
    · have hstep := (Function.mem_steps.mp hstep).2
      exact ⟨(he.1.addRole hstep).1, he.2.addRole he.1 hstep⟩
  -- the node has its operator after the first stage, and the next stages leave it alone
  obtain ⟨⟨hd, _⟩, hall⟩ := nodes_plays f forest options
  obtain ⟨k, hk, hkind⟩ := hall _ (Function.mem_steps.mpr ⟨hlive, hi⟩) _ rfl (by simp)
  obtain ⟨m, hm, hmerge⟩ := Graph.kind?_eq_some.mp hkind
  have hbuilds : Builds f options (fun _ => True) (fun _ => True)
      (Draft.enter f forest options {} .nodes)
      ([Stage.nodes, .steers, .leaves, .results].foldl (Draft.enter f forest options) {}) :=
    foldl_builds (l := [Stage.steers, .leaves, .results]) fun e stage hstage he =>
      enter_builds (he.keeps hd).full hstage
  have hne : m.kind ≠ .unknown := by
    rw [hmerge]
    simp
  have hsame := (hbuilds.keeps hd).owner hk
  rw [hn] at hsame
  cases hsame
  exact ⟨m, hbuilds.node? hd hm hne, (hlabelled _ _ _ _ _ hjoin hk hm).resolve_left hne⟩

/-- Before phis are wired, everything else is there. -/
theorem settled_before (hf : f.Whole) (forest : LoopForest) (options : LowerOptions)
    (hjoin : ∀ n, f.IsPhiNode ([Stage.nodes, .steers, .leaves, .results].foldl
      (Draft.enter f forest options) {}).graph n → joins n ∧ into n)
    (hbranch : ∀ n, f.IsBranchSteer ([Stage.nodes, .steers, .leaves, .results].foldl
      (Draft.enter f forest options) {}).steers n → into n) :
    Settled f joins into ([Stage.nodes, .steers, .leaves, .results].foldl
      (Draft.enter f forest options) {}) := by
  have hsupplied := supplied_of_whole hf forest options
  refine ⟨fun {v} hv hleaf => ?_, hsupplied.paired, fun {n} => hjoin n, fun {n} => hbranch n⟩
  have hmem : v ∈ f.leaves := by
    rcases hv hleaf with ⟨k, hk, rfl⟩ | ⟨id, i, hi, hmem⟩
    · exact List.mem_append_left _ (List.mem_map_of_mem (List.mem_range.mpr hk))
    · refine List.mem_append_right _ (List.mem_filter.mpr ⟨?_, hleaf⟩)
      exact List.mem_flatMap.mpr ⟨(id, i), Function.mem_steps.mpr ⟨hf.mem_live hi, hi⟩, hmem⟩
  exact (leaves_before_joins f forest options hmem).2

end Draft

end Dataflow
