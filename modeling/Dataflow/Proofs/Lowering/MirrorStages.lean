import Dataflow.Proofs.Lowering.Mirror

/-!
# Stages side by side

One run asks for the stream and the other does not; nothing else is different. The two go on alike
from stage to stage (`Draft.Mirrors`). Only the first branch makes a difference, when its run makes
the stream: from then on all numbers are one up from there (`Draft.Mirrors.streamNode`). The stages
after the second are told for any two runs, since they never ask for steers that are not there.
-/

namespace Dataflow

variable {gap : Option NodeId} {joins into : NodeId → Prop} {f : Function} {forest : LoopForest}
  {options off on : LowerOptions} {d e : Draft} {id : InstId} {p : SteerPair} {join : NodeId}
  {T : NodeId → Prop} {P : InstId → Prop}

namespace Draft

/-! ## Phis -/

/-- Wiring a phi wires what it takes and then its users. -/
theorem lowerJoin_of_isJoin {block : BlockId} {arms : List Arm} (hjoin : f.IsJoin id block arms) :
    d.lowerJoin f forest options id = (d.operator? id).elim d fun join =>
      (f.users (.result id)).foldl (feedJoinUser f join)
        (match forest.carrying? block arms with
          | some l => d.lowerCarry f id join l arms
          | none => arms.foldl (lowerArm f options block join) d) := by
  obtain ⟨⟨name, i, block'⟩, ty, hs, hi, hblock⟩ := hjoin
  cases hi
  cases hblock
  unfold lowerJoin
  rw [hs]
  cases d.operator? id <;> rfl

/-- Any other instruction changes nothing. -/
theorem lowerJoin_of_not_isJoin (hnot : ∀ block arms, ¬ f.IsJoin id block arms) :
    d.lowerJoin f forest options id = d := by
  unfold lowerJoin
  split
  · rename_i name ty arms block join hs hop
    exact absurd ⟨_, ty, hs, rfl, rfl⟩ (hnot block arms)
  · rfl

/-! ## The stream -/

/-- The stream is made only if it may be asked for. -/
theorem Builds.stream (h : Builds f options T P d e) (hs : ¬ f.Streams options) :
    e.stream = d.stream := by
  induction h with
  | refl => rfl
  | connect _ _ ih | nodeFor _ _ ih | newPair _ _ _ ih | report _ ih => exact ih
  | @promote e v _ _ ih =>
      refine Eq.trans ?_ ih
      unfold Draft.promote
      cases hnode : e.nodeFor f v with
      | mk e₁ i =>
          have hstream : e₁.stream = e.stream := congrArg (fun r => r.1.stream) hnode.symm
          cases i <;> exact hstream
  | streamNode _ hstreams => exact absurd hstreams hs

/-- Wiring a value does the same in both runs. -/
theorem wire_mirrors (f : Function) : WireMirrors gap joins into (Draft.wire f) :=
  wireBy_mirrors (feed_mirrors f f.feedDepth)

namespace Mirrors

variable (h : Mirrors gap joins into d e)

include h

/-- Wiring the same value in lowering keeps the drafts alike. -/
theorem wire (f : Function) (v : Operand) (target : NodeId) :
    Mirrors gap joins into (d.wire f v target) (e.wire f v (renumber gap target)) :=
  wire_mirrors f v target d e h

/-- The node in between may feed anything. -/
theorem link_gap {k : NodeId} (hgap : gap = some k) (b : NodeId) :
    Mirrors gap joins into d (e.link k b) := by
  have he : (e.link k b).graph = (e.graph.connect (some k) (some b)).1 := rfl
  refine h.feedsInto (T := fun _ => True) (U := fun _ => True) (.refl d) (link_feedsInto trivial)
    fun {x y} hy => ?_
  rw [Bool.eq_iff_iff, he, Graph.hasEdge_connect_iff, h.edge hy]
  refine or_iff_left fun hex => ?_
  subst hgap
  exact renumber_ne (Option.some.inj hex.1).symm

end Mirrors

/-- A run that makes the stream has one node more from then on. -/
theorem Mirrors.streamNode (h : Mirrors none joins into d e) (hstream : d.stream = none) :
    Mirrors (some d.graph.nodes.length) joins into d e.streamNode.1 ∧
      e.streamNode.2 = d.graph.nodes.length := by
  have hnone : e.stream = none := h.stream.trans hstream
  have hlength : e.graph.nodes.length = d.graph.nodes.length := h.next
  have hid : (e.addNode { kind := .stream, label := "STR" }).2 = d.graph.nodes.length :=
    (Graph.addNode_id h.full').trans hlength
  have hgraph : e.streamNode.1.graph =
      (e.graph.addNode { kind := .stream, label := "STR" }).1 := by
    unfold Draft.streamNode
    rw [hnone]
    rfl
  generalize hk : d.graph.nodes.length = k at hlength hid ⊢
  have hnode : ∀ n, e.streamNode.1.graph.node? (renumber (some k) n) = e.graph.node? n := by
    intro n
    rw [hgraph, ← hlength, h.full'.node?_addNode_renumber]
  have hedge : ∀ a b, e.streamNode.1.graph.hasEdge (renumber (some k) a) (renumber (some k) b) =
      e.graph.hasEdge a b := by
    intro a b
    rw [hgraph, Graph.hasEdge_addNode, ← hlength, h.full'.hasEdge_renumber]
  refine ⟨⟨⟨fun {n} hn => ?_, fun {n} hn => ?_, fun v => ?_, fun {a b} hb => ?_⟩, h.full,
    hgraph ▸ Graph.full_addNode h.full' (by simp), ?_, fun k' hk' => ?_, fun x => ?_, h.sides,
    ?_⟩, ?_⟩
  · rw [hnode]
    exact h.node hn
  · rw [hnode]
    exact h.join hn
  · rw [hgraph, Graph.find?_addNode_of_none rfl, h.value]
    refine Option.map_congr fun n hn => ?_
    rw [renumber_none, renumber_of_lt (hk ▸ h.full.lt_of_find? hn)]
  · rw [hedge]
    exact h.edge hb
  · rw [hgraph, Graph.length_addNode h.full', hlength, hk, renumber_some, if_pos (Nat.le_refl _)]
  · rw [hk]
    exact Nat.le_of_eq (Option.some.inj hk').symm
  · rw [streamNode_steers, h.steers]
    refine Option.map_congr fun q hq => ?_
    have hside := h.sides hq
    rw [hk] at hside
    rw [SteerPair.renumber_none, SteerPair.renumber_of_lt hside]
  · unfold Draft.streamNode
    rw [hnone]
    exact congrArg some hid
  · unfold Draft.streamNode
    rw [hnone]
    exact hid

/-! ## Branches and selects -/

section Branches

variable (hoff : off.entryStream = false) (hon : on.entryStream = true)

/-- The steers of a branch are fed by the stream in one run and not in the other. -/
theorem Mirrors.linkStream (h : Mirrors gap joins into d e) (hstream : d.stream = none)
    (hp : d.steers.lookup id = some p) :
    ∃ gap', Mirrors gap' joins into d (e.linkStream (p.renumber gap)) ∧
      p.renumber gap' = p.renumber gap := by
  cases gap with
  | some k =>
      have hk : e.stream = some k := h.stream
      refine ⟨some k, ?_, rfl⟩
      unfold Draft.linkStream Draft.streamNode
      rw [hk]
      exact (h.link_gap rfl _).link_gap rfl _
  | none =>
      obtain ⟨hnode, hid⟩ := h.streamNode hstream
      refine ⟨some d.graph.nodes.length, ?_, SteerPair.renumber_of_lt (h.sides hp)⟩
      unfold Draft.linkStream
      simp only [hid]
      exact (hnode.link_gap rfl _).link_gap rfl _

include hoff hon

/-- Making the steers of the same branch keeps them alike, where only one of them has the stream. -/
theorem Mirrors.branchSteers (h : Mirrors gap joins into d e) (hstream : d.stream = none)
    (id : InstId) :
    ∃ gap', Mirrors gap' joins into (d.branchSteers f off id).1 (e.branchSteers f on id).1 ∧
      (e.branchSteers f on id).2 = (d.branchSteers f off id).2.map (·.renumber gap') := by
  have hsteers := h.steers id
  unfold Draft.branchSteers
  cases hlookup : d.steers.lookup id with
  | some p =>
      rw [hlookup, Option.map_some] at hsteers
      simp only [hsteers]
      exact ⟨gap, h, rfl⟩
  | none =>
      rw [hlookup, Option.map_none] at hsteers
      simp only [hsteers]
      split
      · rename_i cond onTrue onFalse hi
        obtain ⟨hopen, hpair⟩ := h.openSteers (wire_mirrors f) f id cond none none
        have hasks : f.Asks cond := Function.asks_of_mem hi (by simp [Instruction.operands])
        obtain ⟨hbuilds, hp⟩ :
            Builds f off (fun _ => False) (fun _ => True) d
              (d.openSteers f (Draft.wire f) id cond none none).1 ∧ _ :=
          openSteers_builds (wire_builds fun _ _ => trivial) h.full trivial hlookup hasks (by simp)
            (by simp)
        have hnone := (hbuilds.stream fun hs => by simp [hs.1] at hoff).trans hstream
        obtain ⟨gap', hmirrors, hsame⟩ := hopen.linkStream hnone hp
        rw [← hpair] at hmirrors hsame
        simp only [hoff, hon, if_true, Bool.false_eq_true, if_false]
        exact ⟨gap', hmirrors, congrArg some hsame.symm⟩
      · exact ⟨gap, h, rfl⟩

end Branches

namespace Mirrors

variable (h : Mirrors gap joins into d e)

include h

/-- A block has the same first operator, by its later number. -/
theorem firstOperator (f : Function) (block : BlockId) :
    e.firstOperator f block = (d.firstOperator f block).map (renumber gap) := by
  unfold Draft.firstOperator
  rw [List.map_findSome?]
  exact congrArg (List.findSome? · _) (funext h.operator?)

/-- The same edge into a node that may be missing keeps the drafts alike. -/
theorem elim_link (a : NodeId) (b : Option NodeId) :
    Mirrors gap joins into (b.elim d (d.link a))
      ((b.map (renumber gap)).elim e (e.link (renumber gap a))) := by
  cases b with
  | none => exact h
  | some n => exact h.link a n

/-- Lowering the same select keeps the drafts alike. -/
theorem lowerSelect (f : Function) (step : InstId × Instruction) :
    Mirrors gap joins into (d.lowerSelect f step) (e.lowerSelect f step) := by
  unfold Draft.lowerSelect
  split
  · exact (h.selectSteers (wire_mirrors f) f step.1).1
  · exact h

/-- Lowering the same branch keeps the drafts alike, where only one of them has the stream. -/
theorem lowerBranch (hoff : off.entryStream = false) (hon : on.entryStream = true)
    (hstream : d.stream = none) (step : InstId × Instruction) :
    ∃ gap', Mirrors gap' joins into (d.lowerBranch f off step) (e.lowerBranch f on step) := by
  unfold Draft.lowerBranch
  split
  · obtain ⟨gap', hmirrors, hpair⟩ := h.branchSteers (f := f) hoff hon hstream step.1
    cases hd : d.branchSteers f off step.1 with
    | mk d₁ p =>
        cases he : e.branchSteers f on step.1 with
        | mk e₁ q =>
            rw [hd, he] at hmirrors hpair
            simp only at hpair
            subst hpair
            cases p with
            | none => exact ⟨gap', hmirrors⟩
            | some p =>
                refine ⟨gap', ?_⟩
                simp only [Option.map_some, hmirrors.firstOperator]
                exact (hmirrors.elim_link p.onTrue _).elim_link p.onFalse _
  · exact ⟨gap, h⟩

/-! ## Operands -/

/-- The sinks are the same, by their later numbers. -/
theorem sinks (f : Function) :
    e.sinks f = (d.sinks f).map fun sink => (sink.1, renumber gap sink.2) := by
  unfold Draft.sinks
  rw [List.map_filterMap]
  refine List.filterMap_congr fun step _ => ?_
  simp only [h.operator?]
  split
  · rfl
  · rw [Option.map_map, Option.map_map]
    rfl

/-- Steps over all operators other than phis. -/
theorem foldl_sinks {step : Draft → List Operand × NodeId → Draft}
    (hstep : ∀ d e sink, Mirrors gap joins into d e →
      Mirrors gap joins into (step d sink) (step e (sink.1, renumber gap sink.2))) :
    Mirrors gap joins into ((d.sinks f).foldl step d) ((e.sinks f).foldl step e) := by
  rw [h.sinks, List.foldl_map]
  exact List.foldl_rel h fun sink _ d e => hstep d e sink

/-- Wiring the leaves of the same sink keeps the drafts alike. -/
theorem wireLeaves (sink : List Operand × NodeId) :
    Mirrors gap joins into (d.wireLeaves sink) (e.wireLeaves (sink.1, renumber gap sink.2)) := by
  refine List.foldl_rel h fun v _ d e h => ?_
  rw [h.value]
  exact (h.connect _ (some sink.2)).1

/-- Wiring the results of the same sink keeps the drafts alike. -/
theorem wireResults (f : Function) (sink : List Operand × NodeId) :
    Mirrors gap joins into (d.wireResults f sink)
      (e.wireResults f (sink.1, renumber gap sink.2)) :=
  List.foldl_rel h fun v _ _ _ h => h.wire f v sink.2

/-- The stage of leaves keeps the drafts alike. -/
theorem enter_leaves (f : Function) (forest : LoopForest) (off on : LowerOptions) :
    Mirrors gap joins into (d.enter f forest off .leaves) (e.enter f forest on .leaves) := by
  have hensure : Mirrors gap joins into
      (f.leaves.foldl (ensure f) (d.report (.stage f.name Stage.leaves.name)))
      (f.leaves.foldl (ensure f) (e.report (.stage f.name Stage.leaves.name))) :=
    List.foldl_rel (h.report _ _) fun v _ _ _ h => (h.nodeFor f v).1
  exact hensure.foldl_sinks fun _ _ sink h => h.wireLeaves sink

/-- The stage of results keeps the drafts alike. -/
theorem enter_results (f : Function) (forest : LoopForest) (off on : LowerOptions) :
    Mirrors gap joins into (d.enter f forest off .results) (e.enter f forest on .results) :=
  (h.report _ _).foldl_sinks fun _ _ sink h => h.wireResults f sink

/-! ## Phis -/

/-- Making the same carry keeps the drafts alike. -/
theorem toCarry (join : NodeId) :
    Mirrors gap joins into (d.toCarry join) (e.toCarry (renumber gap join)) :=
  h.modifyNode join (fun _ => rfl) fun _ _ => ⟨rfl, Or.inr ⟨rfl, rfl⟩⟩

/-- Lowering the same carry keeps the drafts alike. -/
theorem lowerCarry (f : Function) (id : InstId) (join : NodeId) (l : NaturalLoop)
    (arms : List Arm) : Mirrors gap joins into (d.lowerCarry f id join l arms)
      (e.lowerCarry f id (renumber gap join) l arms) := by
  rw [lowerCarry_eq, lowerCarry_eq]
  refine List.foldl_rel ?_ fun arm _ _ _ h => h.wire f arm.value join
  unfold Draft.wireDecider
  split
  · exact (h.toCarry join).wire f _ join
  · exact (h.toCarry join).report _ _

/-- Feeding the same user of a phi keeps the drafts alike. -/
theorem feedJoinUser (f : Function) (join : NodeId) (user : InstId) :
    Mirrors gap joins into (d.feedJoinUser f join user)
      (e.feedJoinUser f (renumber gap join) user) := by
  unfold Draft.feedJoinUser
  rw [h.operator?]
  split
  · exact h
  · exact h.elim_link join _

/-- An arm is wired alike where the branch that controls its way has its steers. -/
theorem lowerArm (htrace : on.traceBranches = off.traceBranches) {block : BlockId} {arm : Arm}
    (hpaired : ∀ branch taken, f.controlling off.traceBranches arm.source block =
      some (branch, taken) → ∃ p, d.steers.lookup branch = some p) (join : NodeId) :
    Mirrors gap joins into (d.lowerArm f off block join arm)
      (e.lowerArm f on block (renumber gap join) arm) := by
  unfold Draft.lowerArm
  rw [htrace]
  cases hway : f.controlling off.traceBranches arm.source block with
  | none => exact h.wire f arm.value join
  | some way =>
      obtain ⟨branch, taken⟩ := way
      obtain ⟨p, hp⟩ := hpaired branch taken hway
      have hp' := h.steers branch
      rw [hp, Option.map_some] at hp'
      simp only [Draft.branchSteers, hp, hp', SteerPair.side_renumber]
      exact (h.wire f arm.value _).link _ join

end Mirrors

/-- A phi is wired alike in two runs that have the steers of every branch. -/
theorem Mirrors.lowerJoin (hf : f.Whole) (htrace : on.traceBranches = off.traceBranches)
    (h : Mirrors gap joins into d e) (hs : Steered f forest off d) (id : InstId) :
    Mirrors gap joins into (d.lowerJoin f forest off id) (e.lowerJoin f forest on id) := by
  by_cases hjoin : ∃ block arms, f.IsJoin id block arms
  · obtain ⟨block, arms, hjoin⟩ := hjoin
    rw [lowerJoin_of_isJoin hjoin, lowerJoin_of_isJoin hjoin, h.operator?]
    cases hop : d.operator? id with
    | none => exact h
    | some join =>
        refine List.foldl_rel ?_ fun user _ _ _ h => h.feedJoinUser f join user
        cases hcarry : forest.carrying? block arms with
        | some l => exact h.lowerCarry f id join l arms
        | none =>
            -- the steers stay while one arm after the other is wired
            refine (List.foldl_rel (r := fun d e => Mirrors gap joins into d e ∧
              Steered f forest off d ∧ d.operator? id = some join) ⟨h, hs, hop⟩
              fun arm harm d e hex => ?_).1
            obtain ⟨h, hs, hop⟩ := hex
            obtain ⟨hs', hle, _⟩ := hs.lowerArm hf hop hjoin hcarry harm
            refine ⟨h.lowerArm htrace (fun branch taken hway => ?_) join, hs', hle.operator hop⟩
            obtain ⟨cond, onTrue, onFalse, hi⟩ := Function.controlling?_eq_some hway
            exact hs.paired hi rfl
  · have hnot : ∀ block arms, ¬ f.IsJoin id block arms := fun block arms hex =>
      hjoin ⟨block, arms, hex⟩
    rw [lowerJoin_of_not_isJoin hnot, lowerJoin_of_not_isJoin hnot]
    exact h

/-- The stage of phis keeps the drafts alike, when both options trace branches alike. -/
theorem Mirrors.enter_joins (hf : f.Whole) (htrace : on.traceBranches = off.traceBranches)
    (h : Mirrors gap joins into d e) (hs : Steered f forest off d) :
    Mirrors gap joins into (d.enter f forest off .joins) (e.enter f forest on .joins) := by
  refine (List.foldl_rel (r := fun d e => Mirrors gap joins into d e ∧ Steered f forest off d)
    ⟨h.report _ _, (hs.report _).1⟩ fun id _ d e hex => ?_).1
  obtain ⟨h, hs⟩ := hex
  exact ⟨h.lowerJoin hf htrace hs id, (hs.lowerJoin hf id).1⟩

/-! ## Memory -/

/-- A store is remembered, and a load takes the last one. -/
theorem wireMemory_eq (last : Option NodeId) (id : InstId) :
    wireMemory (d, last) id = (d.operator? id).elim (d, last) fun n =>
      if d.graph.kind? n = some .store then (d, some n)
      else if d.graph.kind? n = some .load then (last.elim d (d.link · n), last)
      else (d, last) := by
  simp only [wireMemory]
  cases d.operator? id with
  | none => rfl
  | some n =>
      simp only [Option.elim_some]
      split
      · rename_i hk
        rw [if_pos hk]
      · rename_i hk
        rw [if_neg (by simp [hk]), if_pos hk]
      · rename_i hstore hload
        rw [if_neg hstore, if_neg hload]

/-- The same step of the memory stage keeps the drafts alike, and the last store is the same. -/
theorem Mirrors.wireMemory (h : Mirrors gap joins into d e) (last : Option NodeId) (id : InstId) :
    Mirrors gap joins into (Draft.wireMemory (d, last) id).1
        (Draft.wireMemory (e, last.map (renumber gap)) id).1 ∧
      (Draft.wireMemory (e, last.map (renumber gap)) id).2 =
        (Draft.wireMemory (d, last) id).2.map (renumber gap) := by
  rw [wireMemory_eq, wireMemory_eq, h.operator?]
  cases d.operator? id with
  | none => exact ⟨h, rfl⟩
  | some n =>
      simp only [Option.map_some, Option.elim_some,
        h.kind?_iff (show Operator.store ≠ .merge by simp) (by simp),
        h.kind?_iff (show Operator.load ≠ .merge by simp) (by simp)]
      split
      · exact ⟨h, rfl⟩
      · split
        · cases last with
          | none => exact ⟨h, rfl⟩
          | some store => exact ⟨h.link store n, rfl⟩
        · exact ⟨h, rfl⟩

/-- The memory stage keeps the drafts alike, when both options ask for it or neither. -/
theorem Mirrors.enter_memory (hmemory : on.memoryDependencies = off.memoryDependencies)
    (forest forest' : LoopForest) (h : Mirrors gap joins into d e) :
    Mirrors gap joins into (d.enter f forest off .memory) (e.enter f forest' on .memory) := by
  simp only [Draft.enter, Draft.run, hmemory]
  split
  · refine (List.foldl_rel (r := fun s t : Draft × Option NodeId =>
      Mirrors gap joins into s.1 t.1 ∧ t.2 = s.2.map (renumber gap))
      ⟨h.report _ _, rfl⟩ fun id _ s t hex => ?_).1
    obtain ⟨h, hlast⟩ := hex
    obtain ⟨e, last⟩ := t
    cases hlast
    exact h.wireMemory s.2 id
  · exact h.report _ _

/-! ## Clean-up -/

/-- Nodes without an operator go on both sides. -/
theorem Mirrors.enter_cleanup {forest' : LoopForest} (h : Mirrors gap joins into d e)
    (hd : Lawful f forest off d) (he : Lawful f forest' on e) :
    (d.enter f forest off .cleanup).graph.Shows gap joins into
      (e.enter f forest' on .cleanup).graph where
  node hn := by rw [node?_cleanup, node?_cleanup, h.node hn]
  join hn := by
    obtain ⟨m, m', hm, hm', hjoin, hjoin', horigin⟩ := h.join hn
    simp only [node?_cleanup, hm, hm', Option.filter_some, ne_eq, hjoin.kind_ne, hjoin'.kind_ne,
      not_false_eq_true, decide_true, if_true]
    exact ⟨m, m', rfl, rfl, hjoin, hjoin', horigin⟩
  value v := by
    have hidle : ∀ n, renumber gap n ∈ e.graph.ofKind .unknown ↔ n ∈ d.graph.ofKind .unknown := by
      intro n
      rw [Graph.mem_ofKind, Graph.mem_ofKind, ← Graph.kind?_eq_some, ← Graph.kind?_eq_some]
      exact h.kind?_iff (by simp) (by simp)
    ext b
    rw [graph_enter_cleanup, graph_enter_cleanup, Graph.find?_foldl_removeNode h.full'.toOwned,
      h.value, Option.map_eq_some_iff, Option.map_eq_some_iff]
    constructor
    · intro hex
      obtain ⟨⟨n, hn, rfl⟩, hb⟩ := hex
      exact ⟨n, (Graph.find?_foldl_removeNode h.full.toOwned).mpr ⟨hn, mt (hidle n).mpr hb⟩, rfl⟩
    · intro hex
      obtain ⟨n, hn, rfl⟩ := hex
      obtain ⟨hn, hidle'⟩ := (Graph.find?_foldl_removeNode h.full.toOwned).mp hn
      exact ⟨⟨n, hn, rfl⟩, mt (hidle n).mp hidle'⟩
  edge hb := by
    obtain ⟨_, hedge, _⟩ := hd.enter_cleanup
    obtain ⟨_, hedge', _⟩ := he.enter_cleanup
    rw [hedge, hedge', h.edge hb]

end Draft

end Dataflow
