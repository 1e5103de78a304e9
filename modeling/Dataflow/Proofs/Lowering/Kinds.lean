import Dataflow.Proofs.Lowering.Steps

/-!
# Which operator an instruction has in the end

After the first stage every instruction whose role says so has the operator of its role
(`Draft.Plays`). All later changes keep it (`Draft.Builds.keeps`), except that a phi becomes a carry
if a loop carries values round to it. So the function and its loops alone decide on the operators of
the finished graph (`Function.kind_lowerWith`), whatever the options are. Nothing is asked of the
function.
-/

namespace Dataflow

variable {f : Function} {forest : LoopForest} {options : LowerOptions} {d e : Draft}
  {id x : InstId} {i : Instruction} {v : Operand} {n join : NodeId} {k : Operator} {r : Role}

namespace Graph

variable {g : Graph}

/-- A changed node has the kind that the change gives it. -/
theorem kind?_modifyNode {change : Node → Node} {m : NodeId} : (g.modifyNode n change).kind? m =
    if m = n then (g.node? m).map fun node => (change node).kind else g.kind? m := by
  rw [kind?, node?_modifyNode]
  split
  · rw [Option.map_map]
    rfl
  · rfl

end Graph

namespace Draft

/-! ## Roles -/

/-- Every operator is the one of a role. -/
structure Plays (f : Function) (d : Draft) : Prop where
  full : d.graph.Full
  role : ∀ {id n k}, d.graph.find? (.result id) = some n → d.graph.kind? n = some k →
    k ≠ .unknown → ∃ i r, f.instruction? id = some i ∧ i.role? = some r ∧ r.kind = k

/-- The new node of a value has the operator of its role. -/
theorem Plays.nodeFor (h : Plays f d) (v : Operand) : Plays f (d.nodeFor f v).1 := by
  have hgraph : (d.nodeFor f v).1.graph = (d.graph.nodeFor f v).1 := rfl
  refine ⟨by rw [hgraph]; exact (Graph.keeps_nodeFor h.full f v).full, fun {x m k} hm hk hne => ?_⟩
  rw [hgraph] at hm hk
  rcases d.graph.nodeFor_cases f v with ⟨hsame, _⟩ | ⟨_, n, hn, hnew⟩
  · rw [hsame] at hm hk
    exact h.role hm hk hne
  · obtain ⟨horigin, _, _, hresult⟩ := newNode?_eq_some hn
    rw [hnew] at hm hk
    rw [Graph.kind?, Graph.node?_addNode h.full] at hk
    rw [Graph.find?_addNode_of_some h.full horigin] at hm
    split at hm
    · -- the new node has no operator yet
      rename_i hx
      rw [← Option.some.inj hm, if_pos rfl, Option.map_some, (hresult x hx.symm).1] at hk
      exact absurd (Option.some.inj hk).symm hne
    · rw [if_neg (Nat.ne_of_lt (h.full.lt_of_find? hm))] at hk
      exact h.role hm hk hne

/-- Giving an instruction its role. -/
theorem Plays.addRole (h : Plays f d) (hi : f.instruction? id = some i) :
    Plays f (d.addRole f (id, i)) ∧ d.graph.Keeps (d.addRole f (id, i)).graph ∧
      ∀ r, i.role? = some r → r.kind ≠ .unknown → ∃ n,
        (d.addRole f (id, i)).graph.find? (.result id) = some n ∧
        (d.addRole f (id, i)).graph.kind? n = some r.kind := by
  simp only [Draft.addRole]
  cases hrole : i.role? with
  | none => exact ⟨h, .refl h.full, by simp⟩
  | some role =>
      obtain ⟨n, hn⟩ := nodeFor_result (d := d) hi (Instruction.hasNode_iff_role.mpr ⟨role, hrole⟩)
      have hplays := h.nodeFor (.result id)
      have hkeep : d.graph.Keeps (d.nodeFor f (.result id)).1.graph :=
        Graph.keeps_nodeFor h.full f (.result id)
      have hfind : (d.nodeFor f (.result id)).1.graph.find? (.result id) =
          (d.nodeFor f (.result id)).2 := Graph.find?_nodeFor h.full
      cases hnode : d.nodeFor f (.result id) with
      | mk g found =>
          rw [hnode] at hn hplays hkeep hfind
          simp only at hn hfind
          subst hn
          -- an operator that the node has already is the one of this role
          have hsame : ∀ m, g.graph.node? n = some m → m.kind ≠ .unknown → role.kind = m.kind := by
            intro m hm hne
            obtain ⟨j, r, hj, hr, hkind⟩ :=
              hplays.role hfind (Graph.kind?_eq_some.mpr ⟨m, hm, rfl⟩) hne
            rw [hi] at hj
            cases hj
            rw [hrole] at hr
            cases hr
            exact hkind
          obtain ⟨m, hm, _⟩ := hplays.full.owner hfind
          refine ⟨⟨Graph.full_modifyNode hplays.full fun _ => rfl, fun {x j k} hj hk hne => ?_⟩,
            hkeep.trans (Graph.keeps_modifyNode hplays.full (fun _ => rfl) fun m hm hne => ?_),
            fun r hr hne => ⟨n, hfind, ?_⟩⟩
          · rw [Graph.find?_modifyNode] at hj
            rw [Graph.kind?_modifyNode] at hk
            split at hk
            · rename_i hjn
              subst hjn
              cases hplays.full.owner_unique hfind hj
              rw [hm, Option.map_some, Option.some.injEq] at hk
              split at hk
              · exact hplays.role hfind (Graph.kind?_eq_some.mpr ⟨m, hm, hk⟩) hne
              · exact ⟨i, role, hi, hrole, hk⟩
            · exact hplays.role hj hk hne
          · simp only
            split
            · rfl
            · exact hsame m hm hne
          · cases hr
            rw [Graph.kind?_modifyNode, if_pos rfl, hm, Option.map_some, if_neg hne]

/-- After the first stage instructions have the operators of their roles. -/
theorem nodes_plays (f : Function) (forest : LoopForest) (options : LowerOptions) :
    Plays f (Draft.enter f forest options {} .nodes) ∧ ∀ step ∈ f.steps, ∀ r,
      step.2.role? = some r → r.kind ≠ .unknown → ∃ n,
        (Draft.enter f forest options {} .nodes).graph.find? (.result step.1) = some n ∧
        (Draft.enter f forest options {} .nodes).graph.kind? n = some r.kind := by
  have hstart : Plays f ((({} : Draft)).report (.stage f.name Stage.nodes.name)) :=
    ⟨Graph.full_empty, fun hn => by cases hn⟩
  obtain ⟨hplays, _, hall⟩ := foldl_grows (P := Plays f) (g := Draft.addRole f) (l := f.steps)
    (R := fun d e : Draft => d.graph.Full → d.graph.Keeps e.graph)
    (Q := fun step e => e.graph.Full ∧ ∀ r, step.2.role? = some r → r.kind ≠ .unknown →
      ∃ n, e.graph.find? (.result step.1) = some n ∧ e.graph.kind? n = some r.kind)
    (fun _ hd => .refl hd) (fun hst htu hd => (hst hd).trans (htu (hst hd).full))
    (fun e step hstep _ he => by
      obtain ⟨hplays, hkeep, hrole⟩ := he.addRole (Function.mem_steps.mp hstep).2
      exact ⟨hplays, fun _ => hkeep, hkeep.full, hrole⟩)
    (fun step e g hq hkeep hg => by
      obtain ⟨hfull, hrole⟩ := hq
      refine ⟨hg.full, fun r hr hne => ?_⟩
      obtain ⟨n, hn, hk⟩ := hrole r hr hne
      exact ⟨n, (hkeep hfull).owner hn, (hkeep hfull).kind hk hne⟩) hstart
  exact ⟨hplays, fun step hstep => (hall step hstep).2⟩

/-! ## Carries -/

/-- The node of an operator has one. -/
theorem kind_ne_unknown (hop : d.operator? id = some n) (hk : d.graph.kind? n = some k) :
    k ≠ .unknown := by
  obtain ⟨_, k', hk', hne⟩ := operator?_eq_some_kind.mp hop
  rw [hk] at hk'
  cases hk'
  exact hne

/-- Only the node of the phi becomes a carry. -/
theorem kind?_toCarry {m : NodeId} : (d.toCarry join).graph.kind? m =
    if m = join then (d.graph.kind? m).map fun _ => .carry else d.graph.kind? m := by
  rw [toCarry, Graph.kind?_modifyNode, Graph.kind?, Option.map_map]
  rfl

/-- Turning a node into a carry leaves every operator one. -/
theorem operator?_toCarry (hop : d.operator? id = some n) :
    (d.toCarry join).operator? id = some n := by
  obtain ⟨hfind, k, hk, hne⟩ := operator?_eq_some_kind.mp hop
  refine operator?_eq_some_kind.mpr ⟨hfind, ?_⟩
  rw [kind?_toCarry, hk]
  split
  · exact ⟨.carry, rfl, by simp⟩
  · exact ⟨k, rfl, hne⟩

/-- From `d` to `e` the node of an instruction kept its operator, or became the carry that the
instruction is to be. -/
def KindFrom (f : Function) (forest : LoopForest) (id : InstId) (n : NodeId) (d e : Draft) : Prop :=
  ∀ k, d.graph.kind? n = some k → k ≠ .unknown →
    e.graph.kind? n = some k ∨ f.Carries forest id ∧ e.graph.kind? n = some .carry

/-- What happens to an operator from one draft to the next adds up. -/
theorem KindFrom.trans {g : Draft} (hde : KindFrom f forest id n d e)
    (heg : KindFrom f forest id n e g) : KindFrom f forest id n d g := by
  intro k hk hne
  rcases hde k hk hne with hold | ⟨hcarries, hcarry⟩
  · exact heg k hold hne
  · exact Or.inr ⟨hcarries, (heg .carry hcarry (by simp)).elim (fun h => h) And.right⟩

/-- What wiring a phi does to the nodes of instructions. -/
theorem lowerJoin_kind (hd : d.graph.Full) (hop : d.operator? id = some n) (x : InstId) :
    (d.lowerJoin f forest options x).graph.Full ∧
      (d.lowerJoin f forest options x).operator? id = some n ∧
      KindFrom f forest id n d (d.lowerJoin f forest options x) ∧
      (x = id → f.Carries forest id →
        (d.lowerJoin f forest options x).graph.kind? n = some .carry) := by
  obtain ⟨hfind, k, hk, hne⟩ := operator?_eq_some_kind.mp hop
  rcases lowerJoin_cases (f := f) forest options x hd with
    ⟨join, hjoin, hcarries, hbuilds⟩ | ⟨hnot, hbuilds⟩
  · have hfull : (d.toCarry join).graph.Full := Graph.full_modifyNode hd fun _ => rfl
    have hkeep := hbuilds.keeps hfull
    by_cases hn : n = join
    · -- the phi itself
      subst hn
      have hx : x = id := by
        cases hd.owner_unique (operator?_eq_some_kind.mp hjoin).1 hfind
        rfl
      subst hx
      have hcarry : (d.toCarry n).graph.kind? n = some .carry := by
        rw [kind?_toCarry, if_pos rfl, hk]
        rfl
      have hlater := hkeep.kind hcarry (by simp)
      exact ⟨hkeep.full, operator?_eq_some_kind.mpr ⟨hkeep.owner hfind, _, hlater, by simp⟩,
        fun _ _ _ => Or.inr ⟨hcarries, hlater⟩, fun _ _ => hlater⟩
    · have hkind : ∀ k, d.graph.kind? n = some k → k ≠ .unknown →
          (d.lowerJoin f forest options x).graph.kind? n = some k := by
        intro k hk hne
        refine hkeep.kind ?_ hne
        rw [kind?_toCarry, if_neg hn, hk]
      refine ⟨hkeep.full, operator?_eq_some_kind.mpr ⟨hkeep.owner hfind, k, hkind k hk hne, hne⟩,
        fun k hk hne => Or.inl (hkind k hk hne), fun hx _ => ?_⟩
      subst hx
      rw [hop] at hjoin
      exact absurd (Option.some.inj hjoin) hn
  · have hkeep := hbuilds.keeps hd
    refine ⟨hkeep.full, operator?_of_keeps hkeep hop, fun k hk hne => Or.inl (hkeep.kind hk hne),
      fun hx hcarries => ?_⟩
    subst hx
    rcases hnot with hnone | hnot
    · rw [hnone] at hop
      cases hop
    · exact absurd hcarries hnot

/-- After the fifth stage the phis that are to be carries are. -/
theorem joins_kind (hd : d.graph.Full) (hop : d.operator? id = some n)
    (hk : d.graph.kind? n = some k) (hlive : id ∈ f.live) :
    (d.enter f forest options .joins).graph.Full ∧
      (d.enter f forest options .joins).operator? id = some n ∧
      ∃ k', (d.enter f forest options .joins).graph.kind? n = some k' ∧
        (f.Carries forest id → k' = .carry) ∧ (¬ f.Carries forest id → k' = k) := by
  have hne := kind_ne_unknown hop hk
  obtain ⟨⟨hfull, hop'⟩, hfrom, hall⟩ := foldl_grows (R := KindFrom f forest id n)
    (fun d k hk _ => Or.inl hk) .trans (P := fun e => e.graph.Full ∧ e.operator? id = some n)
    (g := Draft.lowerJoin f forest options) (l := f.live)
    (s := d.report (.stage f.name Stage.joins.name))
    (Q := fun x e => x = id → f.Carries forest id → e.graph.kind? n = some .carry)
    (fun e x _ _ he => by
      obtain ⟨hfull, hop, hfrom, hcarry⟩ :
          (e.lowerJoin f forest options x).graph.Full ∧ _ := lowerJoin_kind he.1 he.2 x
      exact ⟨⟨hfull, hop⟩, hfrom, hcarry⟩)
    (fun x e g hq hfrom _ hx hcarries =>
      (hfrom .carry (hq hx hcarries) (by simp)).elim (fun h => h) And.right) ⟨hd, hop⟩
  refine ⟨hfull, hop', ?_⟩
  by_cases hcarries : f.Carries forest id
  · exact ⟨.carry, hall id hlive rfl hcarries, fun _ => rfl, fun hnot => absurd hcarries hnot⟩
  · exact ⟨k, (hfrom k hk hne).resolve_right fun hex => hcarries hex.1,
      fun hcarries' => absurd hcarries' hcarries, fun _ => rfl⟩

/-- What changes and new carries keep, the stages from the second to the fifth keep. -/
theorem foldl_enter_induct (f : Function) (forest : LoopForest) (options : LowerOptions)
    (stages : List Stage) {I : Draft → Prop}
    (hbuilds : ∀ {d e}, d.graph.Full →
      Builds f options (fun _ => True) (fun _ => True) d e → I d → I e)
    (hcarry : ∀ {d x join}, d.graph.Full → d.operator? x = some join → f.Carries forest x →
      I d → I (d.toCarry join))
    (hstages : ∀ s ∈ stages, s ∈ [Stage.steers, .leaves, .results, .joins])
    (hd : d.graph.Full) (h : I d) :
    (stages.foldl (Draft.enter f forest options) d).graph.Full ∧
      I (stages.foldl (Draft.enter f forest options) d) := by
  refine List.foldlRecOn stages _ (motive := fun e : Draft => e.graph.Full ∧ I e) ⟨hd, h⟩
    fun e he stage hstage => ?_
  have hchange : ∀ {g}, Builds f options (fun _ => True) (fun _ => True) e g →
      g.graph.Full ∧ I g := fun hb => ⟨(hb.keeps he.1).full, hbuilds he.1 hb he.2⟩
  by_cases hjoins : stage = .joins
  · subst hjoins
    refine List.foldlRecOn f.live _ (motive := fun g : Draft => g.graph.Full ∧ I g)
      (hchange (.report .refl)) fun g hg x _ => ?_
    rcases lowerJoin_cases (f := f) forest options x hg.1 with
      ⟨join, hop, hcarries, hb⟩ | ⟨_, hb⟩
    · have hfull : (g.toCarry join).graph.Full := Graph.full_modifyNode hg.1 fun _ => rfl
      exact ⟨(hb.keeps hfull).full, hbuilds hfull hb (hcarry hg.1 hop hcarries hg.2)⟩
    · exact ⟨(hb.keeps hg.1).full, hbuilds hg.1 hb hg.2⟩
  · exact hchange (enter_builds he.1 (by simpa [hjoins] using hstages stage hstage))

/-- Every leaf has its node before phis are wired. -/
theorem leaves_before_joins (f : Function) (forest : LoopForest) (options : LowerOptions)
    (hv : v ∈ f.leaves) :
    ([Stage.nodes, .steers, .leaves, .results].foldl (Draft.enter f forest options)
        {}).graph.Full ∧
      ∃ n, ([Stage.nodes, .steers, .leaves, .results].foldl (Draft.enter f forest options)
        {}).graph.find? v = some n := by
  obtain ⟨⟨hd, _⟩, _⟩ := nodes_plays f forest options
  have hsteers : Builds f options (fun _ => True) (fun _ => True)
      (Draft.enter f forest options {} .nodes)
      ((Draft.enter f forest options {} .nodes).enter f forest options .steers) := steers_builds hd
  have hd₂ := (hsteers.keeps hd).full
  have hleaves : Builds f options (fun _ => True) (fun _ => True)
      ((Draft.enter f forest options {} .nodes).enter f forest options .steers)
      (((Draft.enter f forest options {} .nodes).enter f forest options .steers).enter f forest
        options .leaves) := leaves_builds hd₂
  obtain ⟨n, hn⟩ := leaves_find? forest options hd₂ hv
  obtain ⟨hfull, hfind⟩ := foldl_enter_induct f forest options [Stage.results]
    (I := fun e => e.graph.find? v = some n) (fun hd hb h => (hb.keeps hd).owner h)
    (fun _ _ _ h => h) (by simp) (hleaves.keeps hd₂).full hn
  exact ⟨hfull, n, hfind⟩

/-! ## Memory -/

/-- From `d` to `e` only edges into the nodes in `T` were added. -/
structure FeedsInto (T : NodeId → Prop) (d e : Draft) : Prop where
  nodes : e.graph.nodes = d.graph.nodes
  owners : e.graph.owners = d.graph.owners
  steers : e.steers = d.steers
  stream : e.stream = d.stream
  full : d.graph.Full → e.graph.Full
  kept : ∀ {a b}, d.graph.hasEdge a b → e.graph.hasEdge a b
  edge : ∀ {a b}, e.graph.hasEdge a b → d.graph.hasEdge a b ∨ T b

variable {a b : NodeId} {T : NodeId → Prop}

theorem FeedsInto.refl (d : Draft) : FeedsInto T d d :=
  ⟨rfl, rfl, rfl, rfl, fun hd => hd, fun hab => hab, Or.inl⟩

theorem FeedsInto.report (d : Draft) (event : Event) : FeedsInto T d (d.report event) :=
  ⟨rfl, rfl, rfl, rfl, fun hd => hd, fun hab => hab, Or.inl⟩

theorem FeedsInto.node? (h : FeedsInto T d e) : e.graph.node? a = d.graph.node? a := by
  rw [Graph.node?, Graph.node?, h.nodes]

theorem FeedsInto.kind? (h : FeedsInto T d e) : e.graph.kind? a = d.graph.kind? a := by
  rw [Graph.kind?, Graph.kind?, h.node?]

theorem FeedsInto.find? (h : FeedsInto T d e) : e.graph.find? v = d.graph.find? v := by
  rw [Graph.find?, Graph.find?, h.owners]

theorem FeedsInto.operator? (h : FeedsInto T d e) : e.operator? id = d.operator? id := by
  simp only [Draft.operator?, h.find?, h.kind?]

/-- Edges into the same nodes may be added in several steps. -/
theorem FeedsInto.trans {g : Draft} (hde : FeedsInto T d e) (heg : FeedsInto T e g) :
    FeedsInto T d g := by
  refine ⟨heg.nodes.trans hde.nodes, heg.owners.trans hde.owners, heg.steers.trans hde.steers,
    heg.stream.trans hde.stream, fun hd => heg.full (hde.full hd),
    fun hab => heg.kept (hde.kept hab), fun hab => ?_⟩
  rcases heg.edge hab with hold | hinto
  · exact hde.edge hold
  · exact Or.inr hinto

/-- An edge goes into the node it leads to. -/
theorem connect_feedsInto {x y : Option NodeId} (hy : ∀ n ∈ y, T n) :
    FeedsInto T d (d.connect x y).1 := by
  obtain ⟨hnodes, howners, _⟩ := Graph.connect_nodes (g := d.graph) x y
  have hfull : d.graph.Full → (d.connect x y).1.graph.Full :=
    fun hd => (Graph.keeps_connect hd).full
  rcases d.graph.connect_cases x y with hsame | ⟨s, t, rfl, rfl, hs, ht⟩
  · have hgraph : (d.connect x y).1.graph = d.graph := hsame
    exact ⟨hnodes, howners, rfl, rfl, hfull, fun hxy => by rwa [hgraph],
      fun hxy => Or.inl (by rwa [hgraph] at hxy)⟩
  · refine ⟨hnodes, howners, rfl, rfl, hfull,
      fun hxy => (hasEdge_link hs ht).mpr (Or.inl hxy), fun hxy => ?_⟩
    rcases (hasEdge_link hs ht).mp hxy with hold | ⟨_, rfl⟩
    · exact Or.inl hold
    · exact Or.inr (hy _ rfl)

/-- So does an edge between two nodes. -/
theorem link_feedsInto (hb : T b) : FeedsInto T d (d.link a b) :=
  connect_feedsInto fun _ hn => Option.some.inj hn ▸ hb

/-- The memory stage adds edges into loads only. -/
theorem wireMemory_feedsInto (state : Draft × Option NodeId)
    (hload : ∀ n, state.1.graph.kind? n = some .load → T n) (id : InstId) :
    FeedsInto T state.1 (wireMemory state id).1 := by
  obtain ⟨d, last⟩ := state
  simp only [wireMemory]
  split
  · exact .refl d
  · split
    · exact .refl d
    · rename_i hk
      cases last with
      | none => exact .refl d
      | some store => exact link_feedsInto (hload _ hk)
    · exact .refl d

/-- The sixth stage adds edges into loads and changes nothing else. -/
theorem memory_feedsInto (f : Function) (forest : LoopForest) (options : LowerOptions)
    (d : Draft) : FeedsInto (fun b => d.graph.kind? b = some .load) d
      (d.enter f forest options .memory) := by
  simp only [Draft.enter, Draft.run]
  split
  · refine List.foldlRecOn f.live wireMemory
      (motive := fun state => FeedsInto (fun b => d.graph.kind? b = some .load) d state.1) ?_
      fun state hstate id _ =>
        hstate.trans (wireMemory_feedsInto state (fun n hn => by rwa [hstate.kind?] at hn) id)
    exact .report d _
  · exact .report d _

/-! ## Clean-up -/

/-- The last stage removes the nodes without an operator, and leaves the steers alone. -/
theorem graph_cleanUp (d : Draft) :
    (d.cleanUp f).graph = (d.graph.ofKind .unknown).foldl Graph.removeNode d.graph ∧
      (d.cleanUp f).steers = d.steers := by
  simp only [cleanUp]
  split <;> exact ⟨rfl, rfl⟩

/-- The last two stages make no pair of steers. -/
theorem steers_last (f : Function) (forest : LoopForest) (options : LowerOptions) (d : Draft) :
    ([Stage.memory, .cleanup].foldl (Draft.enter f forest options) d).steers = d.steers :=
  (graph_cleanUp ((d.enter f forest options .memory).report (.stage f.name _))).2.trans
    (memory_feedsInto f forest options d).steers

/-- The last stage leaves the stream alone. -/
theorem stream_enter_cleanup : (d.enter f forest options .cleanup).stream = d.stream := by
  simp only [enter, run, cleanUp]
  split <;> rfl

/-- The graph after the last stage is the one before without its idle nodes. -/
theorem graph_enter_cleanup : (d.enter f forest options .cleanup).graph =
    (d.graph.ofKind .unknown).foldl Graph.removeNode d.graph :=
  (graph_cleanUp (d.report (.stage f.name Stage.cleanup.name))).1

/-- The nodes without an operator go, and the others stay as they are. -/
theorem node?_cleanup : (d.enter f forest options .cleanup).graph.node? n =
    (d.graph.node? n).filter (·.kind ≠ .unknown) := by
  rw [graph_enter_cleanup, Graph.node?_foldl_removeNode]
  cases hn : d.graph.node? n with
  | none => simp
  | some node => simp [Graph.mem_ofKind, hn, Option.filter_some]

/-- A node with an operator outlives the last stage. -/
theorem kind?_cleanup (f : Function) (forest : LoopForest) (options : LowerOptions)
    (hk : d.graph.kind? n = some k) (hne : k ≠ .unknown) :
    (d.enter f forest options .cleanup).graph.kind? n = some k := by
  obtain ⟨node, hn, rfl⟩ := Graph.kind?_eq_some.mp hk
  refine Graph.kind?_eq_some.mpr ⟨node, ?_, rfl⟩
  rw [node?_cleanup, hn, Option.filter_some, if_pos (decide_eq_true hne)]

/-- An instruction that has an operator keeps it. -/
theorem find?_cleanup (f : Function) (forest : LoopForest) (options : LowerOptions)
    (hd : d.graph.Owned) (hop : d.operator? id = some n) :
    (d.enter f forest options .cleanup).graph.find? (.result id) = some n := by
  obtain ⟨hfind, node, hn, hne⟩ := operator?_eq_some.mp hop
  rw [graph_enter_cleanup]
  refine (Graph.find?_foldl_removeNode hd).mpr ⟨hfind, fun hidle => ?_⟩
  obtain ⟨m, hm, hunknown⟩ := Graph.mem_ofKind.mp hidle
  rw [hn] at hm
  cases hm
  exact hne hunknown

/-- What has an operator before memory is wired has it in the end. -/
theorem operator_lowered (f : Function) (forest : LoopForest) (options : LowerOptions)
    (hd : d.graph.Full) (hop : d.operator? id = some n) (hk : d.graph.kind? n = some k) :
    ([Stage.memory, .cleanup].foldl (Draft.enter f forest options) d).graph.find? (.result id) =
        some n ∧
      ([Stage.memory, .cleanup].foldl (Draft.enter f forest options) d).graph.kind? n = some k := by
  have hloads := memory_feedsInto f forest options d
  have hne := kind_ne_unknown hop hk
  exact ⟨find?_cleanup f forest options (hloads.full hd).toOwned (hloads.operator?.trans hop),
    kind?_cleanup f forest options (hloads.kind?.trans hk) hne⟩

end Draft

/-! ## The result -/

/-- The draft that lowering ends with. -/
def Function.lowering (f : Function) (forest : LoopForest) (options : LowerOptions) : Draft :=
  Stage.all.foldl (Draft.enter f forest options) {}

/-- The graph of a lowered function is that of its draft. -/
theorem Function.graph_lowerWith :
    (f.lowerWith forest options).graph = (f.lowering forest options).graph := rfl

/-- An instruction that has an operator by its role has it in the finished graph, except that a phi
is a carry if a loop carries values round to it. -/
theorem Function.kind_lowerWith (f : Function) (forest : LoopForest) (options : LowerOptions)
    (hi : (id, i) ∈ f.steps) (hrole : i.role? = some r) (hr : r.kind ≠ .unknown) :
    ∃ n k, (f.lowerWith forest options).graph.find? (.result id) = some n ∧
      (f.lowerWith forest options).graph.kind? n = some k ∧
      (f.Carries forest id → k = .carry) ∧ (¬ f.Carries forest id → k = r.kind) := by
  obtain ⟨⟨hd₁, _⟩, hall⟩ := Draft.nodes_plays f forest options
  obtain ⟨n, hfind, hk₁⟩ := hall (id, i) hi r hrole hr
  have hrun : (f.lowerWith forest options).graph =
      ([Stage.memory, .cleanup].foldl (Draft.enter f forest options)
        (([Stage.steers, .leaves, .results].foldl (Draft.enter f forest options)
          (Draft.enter f forest options {} .nodes)).enter f forest options .joins)).graph := rfl
  rw [hrun]
  generalize Draft.enter f forest options {} .nodes = d₁ at hd₁ hfind hk₁ ⊢
  have hop₁ := Draft.operator?_eq_some_kind.mpr ⟨hfind, r.kind, hk₁, hr⟩
  -- operands are wired
  have hkeep : d₁.graph.Keeps ([Stage.steers, .leaves, .results].foldl
      (Draft.enter f forest options) d₁).graph :=
    (Draft.foldl_builds (T := fun _ => True) (P := fun _ => True) fun e stage hstage he =>
      Draft.enter_builds (f := f) (he.keeps hd₁).full hstage).keeps hd₁
  have hop₂ := Draft.operator?_of_keeps hkeep hop₁
  have hk₂ := hkeep.kind hk₁ hr
  have hd₂ := hkeep.full
  generalize [Stage.steers, .leaves, .results].foldl (Draft.enter f forest options) d₁ = d₂
    at hop₂ hk₂ hd₂ ⊢
  -- then phis and memory, and in the end placeholders go
  obtain ⟨hd₃, hop₃, k, hk₃, hkind⟩ :
      (d₂.enter f forest options .joins).graph.Full ∧ _ :=
    Draft.joins_kind hd₂ hop₂ hk₂ (Function.mem_steps.mp hi).1
  obtain ⟨hn, hk⟩ := Draft.operator_lowered f forest options hd₃ hop₃ hk₃
  exact ⟨n, k, hn, hk, hkind⟩

/-- An instruction other than a phi has the operator of its role. -/
theorem Function.kind_of_role (f : Function) (forest : LoopForest) (options : LowerOptions)
    (hi : (id, i) ∈ f.steps) (hphi : i.isPhi = false) (hrole : i.role? = some r)
    (hr : r.kind ≠ .unknown) :
    ∃ n, (f.lowerWith forest options).graph.find? (.result id) = some n ∧
      (f.lowerWith forest options).graph.kind? n = some r.kind := by
  obtain ⟨n, k, hn, hk, _, hkind⟩ := f.kind_lowerWith forest options hi hrole hr
  have hnot : ¬ f.Carries forest id := by
    intro hex
    obtain ⟨block, arms, l, hjoin, _⟩ := hex
    obtain ⟨ty, hj⟩ := hjoin.instruction
    rw [(mem_steps.mp hi).2] at hj
    cases hj
    cases hphi
  exact ⟨n, hn, by rw [hk, hkind hnot]⟩

/-- An instruction that has an operator by its role has it in the same node at all times. -/
theorem Function.operator_before (hi : (id, i) ∈ f.steps) (hrole : i.role? = some r)
    (hr : r.kind ≠ .unknown) (hn : (f.lowerWith forest options).graph.find? (.result id) = some n)
    (stages : List Stage) (hstages : ∀ s ∈ stages, s ∈ [Stage.steers, .leaves, .results, .joins]) :
    (stages.foldl (Draft.enter f forest options)
        (Draft.enter f forest options {} .nodes)).graph.Full ∧
      (stages.foldl (Draft.enter f forest options)
        (Draft.enter f forest options {} .nodes)).operator? id = some n := by
  obtain ⟨⟨hd, _⟩, hall⟩ := Draft.nodes_plays f forest options
  obtain ⟨m, hm, hk⟩ := hall (id, i) hi r hrole hr
  have hop := Draft.operator?_eq_some_kind.mpr ⟨hm, r.kind, hk, hr⟩
  have hfold : ∀ l : List Stage, (∀ s ∈ l, s ∈ [Stage.steers, .leaves, .results, .joins]) →
      (l.foldl (Draft.enter f forest options)
          (Draft.enter f forest options {} .nodes)).graph.Full ∧
        (l.foldl (Draft.enter f forest options)
          (Draft.enter f forest options {} .nodes)).operator? id = some m := fun l hl =>
    Draft.foldl_enter_induct f forest options _ (I := fun e => e.operator? id = some m)
      (fun hd hb h => Draft.operator?_of_keeps (hb.keeps hd) h)
      (fun _ _ _ h => Draft.operator?_toCarry h) hl hd hop
  -- the last stages keep it too
  obtain ⟨hd', hop'⟩ := hfold [.steers, .leaves, .results, .joins] fun _ hs => hs
  obtain ⟨_, k, hk', _⟩ := Draft.operator?_eq_some_kind.mp hop'
  obtain ⟨hend, _⟩ := Draft.operator_lowered f forest options hd' hop' hk'
  have hsame : some m = some n := hend.symm.trans hn
  rw [← hsame]
  exact hfold stages hstages

end Dataflow
