import Dataflow.Proofs.Lowering.ExactSearch
import Dataflow.Proofs.Lowering.StageRequests

/-!
# Wiring adds exactly the edges from producers

Wiring a value into a node of the graph adds the edges from what produces the value and no other,
makes nodes for the leaves the search comes to and no other, and reports that there is no producer
if there is none (`Function.wires_exactly`). It does so in every draft that can be searched, and
each draft that lowering comes to can be: no request but a removal takes a node away, and what is
removed has no operator, so it is no steer (`Draft.ready_of_requests`). Nothing is asked of the
order of definitions and uses, which may be circular.
-/

namespace Dataflow

/-- A search for what produces `v` comes to a value. -/
inductive Leads (f : Function) (d : Draft) (v : Operand) : Operand → Prop where
  /-- It starts with `v`. -/
  | here : Leads f d v v
  /-- It goes on from what has no operator and is no select. -/
  | operand {id i w} : Leads f d v (.result id) → f.instruction? id = some i →
      i.isSelect = false → d.operator? id = none → w ∈ i.operands → Leads f d v w

/-- From `d` to `e` a value was wired into a node. -/
structure Draft.WiresExactly (f : Function) (v : Operand) (target : NodeId) (d e : Draft) :
    Prop where
  /-- Another value can be wired next. -/
  ready : e.Ready f
  /-- The new edges are those from what produces the value. -/
  edge : ∀ a b, e.graph.hasEdge a b ↔
    d.graph.hasEdge a b ∨ b = target ∧ Produces f e v a
  /-- Every leaf that the search comes to has a node. -/
  leaf : ∀ w, Leads f d v w → w.isLeaf = true → ∃ n, e.graph.find? w = some n
  /-- The new nodes are those of such leaves that had none. -/
  node : ∀ i n, e.graph.node? i = some n ↔ d.graph.node? i = some n ∨
    d.graph.node? i = none ∧ ∃ w, Leads f d v w ∧ w.isLeaf = true ∧ d.graph.find? w = none ∧
      e.graph.find? w = some i ∧ f.newNode? w = some n
  /-- Every other value has the node that it had. -/
  owner : ∀ w, ¬ (Leads f d v w ∧ w.isLeaf = true ∧ d.graph.find? w = none) →
    e.graph.find? w = d.graph.find? w
  /-- An instruction has an operator if it had one. -/
  operator : ∀ id, e.operator? id = d.operator? id
  steers : e.steers = d.steers
  stream : e.stream = d.stream
  /-- A missing producer is reported. -/
  journal : (∃ a, Produces f e v a) ∧ e.journal = d.journal ∨ (¬ ∃ a, Produces f e v a) ∧
    e.journal = d.journal ++ [.noProducer f.name (f.operandText v) target]

variable {f : Function} {forest : LoopForest} {options : LowerOptions} {d e : Draft}
  {a i target : NodeId} {v w : Operand} {id : InstId} {s : Feed} {rs before after : List Request}
  {r : Request}

/-! ## Wiring -/

/-- A report makes no producer. -/
theorem produces_report {ev : Event} : Produces f (d.report ev) v a ↔ Produces f d v a :=
  ⟨(Draft.Le.of_eq rfl rfl rfl : d.report ev ≤ d).supplies,
    (Draft.Le.of_eq rfl rfl rfl : d ≤ d.report ev).supplies⟩

theorem scope_leads (hpaired : ∀ id i, Leads f d v (.result id) → f.instruction? id = some i →
    i.isSelect = true → ∃ p, d.steers.lookup id = some p) : d.Scope f (Leads f d v) :=
  ⟨.operand, hpaired _ _⟩

namespace Feed

/-- A search that is over comes to all that it leads to. -/
theorem Searches.meets_of_leads
    (h : Searches f (Leads f d v) target [v] { draft := d } s) (hd : d.Ready f)
    (hw : Leads f d v w) : s.Meets target w := by
  induction hw with
  | here => exact h.met v List.mem_cons_self
  | operand _ hi hsel hop hw ih =>
      rcases h.handled _ (ih.2 _ rfl) with hnone | hhandled
      · cases hnone
      · exact hhandled.operand hi hsel ((h.adds.operator? hd _).trans hop) hw

/-- It has found whatever produces a value that it came to. -/
theorem Searches.found_of_produces
    (h : Searches f (Leads f d v) target [v] { draft := d } s) (hw : s.Meets target w)
    (ha : Produces f s.draft w a) : s.Found target a := by
  have hhandled : ∀ id ∈ s.visited, s.Handles f target id := fun id hid =>
    (h.handled id hid).resolve_left fun hnone => by cases hnone
  induction ha with
  | leaf hleaf hn =>
      obtain ⟨m, hm, hfound⟩ := hw.1 hleaf
      rw [hn] at hm
      cases hm
      exact hfound
  | steer hi hsel hp => exact (hhandled _ (hw.2 _ rfl)).steer hi hsel hp _
  | node hn => exact (hhandled _ (hw.2 _ rfl)).node hn
  | operand hi hsel hop hv _ ih =>
      exact ih ((hhandled _ (hw.2 _ rfl)).operand hi hsel hop hv)

/-- A search finds something if there is a producer, and only then. -/
theorem Searches.fed_iff (h : Searches f (Leads f d v) target [v] { draft := d } s) :
    s.fed = true ↔ ∃ a, Produces f s.draft v a := by
  constructor
  · intro hfed
    rcases h.fed hfed with hno | ⟨w, hw, hsome⟩
    · cases hno
    · exact List.mem_singleton.mp hw ▸ hsome
  · rintro ⟨a, ha⟩
    exact (h.found_of_produces (h.met v List.mem_cons_self) ha).2

end Feed

namespace Draft

/-- A node that a value newly leads to is the one made for it. -/
theorem Adds.node_of_owner {scope : Operand → Prop} (h : Adds scope f d e) (he : e.Ready f)
    (hnone : d.graph.node? i = none) (hw : e.graph.find? w = some i) {n : Node}
    (hn : f.newNode? w = some n) : e.graph.node? i = some n := by
  obtain ⟨m, hm, horigin⟩ := he.stored.owner hw
  rcases h.newNode hm with hold | ⟨_, u, _, _, _, _, hu⟩
  · rw [hnone] at hold
    cases hold
  · -- a new node stands for one value only
    have heq := (newNode?_eq_some hu).1.symm.trans horigin
    cases heq
    exact hm.trans (hu.symm.trans hn)

/-- What a search does to the draft is what wiring should do, but for the report. -/
theorem wiresExactly_of_searches
    (h : Feed.Searches f (Leads f d v) target [v] { draft := d } s) (hd : d.Ready f)
    (hg : e.graph = s.draft.graph) (hs : e.steers = d.steers) (ht : e.stream = d.stream)
    (hproduces : ∀ a, Produces f e v a ↔ Produces f s.draft v a)
    (hjournal : s.fed = true ∧ e.journal = d.journal ∨ s.fed = false ∧
      e.journal = d.journal ++ [.noProducer f.name (f.operandText v) target]) :
    d.WiresExactly f v target e where
  ready := h.ready.of_graph (hg ▸ h.ready.stored) (hs.trans h.adds.steers.symm)
    (fun _ _ hi => hg ▸ hi) fun _ n hn hk => ⟨n, hg ▸ hn, hk⟩
  edge a b := by
    rw [hg, hproduces]
    constructor
    · intro hab
      refine (h.edge hab).imp_right fun ⟨hb, w, hw, ha⟩ => ⟨hb, ?_⟩
      exact List.mem_singleton.mp hw ▸ ha
    · rintro (hab | ⟨rfl, ha⟩)
      · exact h.adds.edge hab
      · exact (h.found_of_produces (h.met v List.mem_cons_self) ha).1
  leaf w hw hleaf := by
    obtain ⟨n, hn, _⟩ := (h.meets_of_leads hd hw).1 hleaf
    exact ⟨n, hg ▸ hn⟩
  node i n := by
    rw [hg]
    constructor
    · exact h.adds.newNode
    · rintro (hn | ⟨hnone, w, _, _, _, hw, hn⟩)
      · exact h.adds.node hn
      · exact h.adds.node_of_owner h.ready hnone hw hn
  owner w hw := by
    rw [hg]
    cases hfind : d.graph.find? w with
    | some i => exact h.adds.owner hfind
    | none =>
        refine Option.eq_none_iff_forall_ne_some.mpr fun i hi => ?_
        rcases h.adds.newOwner hi with hold | hnew
        · rw [hfind] at hold
          cases hold
        · exact hw hnew
  operator id := (operator?_congr hg).trans (h.adds.operator? hd id)
  steers := hs
  stream := ht
  journal := by
    have hsome : (∃ a, Produces f e v a) ↔ s.fed = true :=
      (exists_congr hproduces).trans h.fed_iff.symm
    rw [hsome, Bool.not_eq_true]
    exact hjournal

/-- Wiring a value that leads to no select without steers. -/
theorem Ready.wiresExactly (hd : d.Ready f) (hf : f.InRange) (hv : f.Refers v)
    (htarget : d.Live target) (hscope : d.Scope f (Leads f d v)) :
    d.WiresExactly f v target (d.wire f v target) := by
  have hrun : Wires f v target d (d.wire f v target) := (wires_iff hf hv).mpr rfl
  generalize d.wire f v target = e at hrun
  cases hrun with
  | @found _ _ _ s hrun hfed =>
      have h := hrun.searches .here hd hscope htarget
      exact wiresExactly_of_searches h hd rfl h.adds.steers h.adds.stream (fun a => Iff.rfl)
        (Or.inl ⟨hfed, h.adds.journal⟩)
  | @missing _ _ _ s hrun hfed =>
      have h := hrun.searches .here hd hscope htarget
      refine wiresExactly_of_searches h hd rfl h.adds.steers h.adds.stream
        (fun a => produces_report) (Or.inr ⟨hfed, ?_⟩)
      rw [← h.adds.journal]
      rfl

/-! ## The drafts of lowering -/

namespace Ready

variable (h : d.Ready f)

include h

/-- A change of one node that keeps its value and takes no operator away. -/
theorem modifyNode (i : NodeId) {change : Node → Node}
    (horigin : ∀ n, (change n).origin = n.origin)
    (hkind : ∀ n, n.kind ≠ .unknown → (change n).kind ≠ .unknown) :
    Ready f { d with graph := d.graph.modifyNode i change } := by
  refine h.of_graph (h.stored.modifyNode horigin i) rfl (fun _ _ hi => hi) fun j n hn hk => ?_
  by_cases hj : j = i
  · exact ⟨change n, by rw [Graph.node?_modifyNode, if_pos hj, hn]; rfl, hkind n hk⟩
  · exact ⟨n, by rwa [Graph.node?_modifyNode, if_neg hj], hk⟩

/-- A change of the node of a value, which is made if there is none yet. -/
theorem nodeFor_modifyNode (v : Operand) {change : Node → Node}
    (horigin : ∀ n, (change n).origin = n.origin)
    (hkind : ∀ n, n.kind ≠ .unknown → (change n).kind ≠ .unknown) {e : Draft}
    (he : e = match d.nodeFor f v with
      | (d, none) => d
      | (d, some i) => { d with graph := d.graph.modifyNode i change }) : e.Ready f := by
  have hnode := h.nodeFor v
  subst he
  split <;> rename_i heq <;> rw [heq] at hnode
  · exact hnode
  · exact hnode.modifyNode _ horigin hkind

theorem newPair (id : InstId) : (d.newPair id).1.Ready f := by
  have htrue := h.addNode (n := { kind := .trueSteer, label := "T" }) (by simp)
  have hfalse := htrue.addNode (n := { kind := .falseSteer, label := "F" }) (by simp)
  refine ⟨hfalse.stored, hfalse.result, fun {x q} hq taken => ?_⟩
  rw [newPair_steers] at hq
  rcases List.mem_cons.mp hq with heq | hq
  · cases heq
    -- the second steer does not take the number of the first
    have hfirst := (h.stored.node?_addNode { kind := .trueSteer, label := "T" }).2
      (d.graph.addNode { kind := .trueSteer, label := "T" }).2
    obtain ⟨hfresh, hsecond⟩ := htrue.stored.node?_addNode { kind := .falseSteer, label := "F" }
    cases taken with
    | false => exact ⟨_, (hsecond _).trans (if_pos rfl), by simp⟩
    | true =>
        refine ⟨_, (hsecond _).trans ((if_neg fun heq => ?_).trans (hfirst.trans (if_pos rfl))),
          by simp⟩
        rw [← heq] at hfresh
        cases hfresh.symm.trans (hfirst.trans (if_pos rfl))
  · exact hfalse.steer hq taken

theorem streamNode : d.streamNode.1.Ready f := by
  unfold Draft.streamNode
  split
  · exact h
  · have hnew := h.addNode (n := { kind := .stream, label := "STR" }) (by simp)
    exact ⟨hnew.stored, hnew.result, hnew.steer⟩

/-- No request but a removal takes anything from a draft that a search relies on. -/
theorem serve (hno : r.isRemoval = false) : (d.serve f r).Ready f := by
  cases r with
  | node v => exact h.nodeFor v
  | role step =>
      simp only [Draft.serve, Draft.addRole]
      split
      · exact h
      · rename_i role _
        refine h.nodeFor_modifyNode (.result step.1) ?_ ?_ rfl
        · exact fun _ => rfl
        · intro n hk
          dsimp only
          split <;> assumption
  | promotion cond =>
      refine h.nodeFor_modifyNode cond (fun n => by split <;> rfl) (fun n hk => ?_) rfl
      rwa [if_neg hk]
  | pair id => exact h.newPair id
  | stream => exact h.streamNode
  | carry i => exact h.modifyNode i (fun _ => rfl) fun n _ => by simp
  | edge a b => exact h.connect a b
  | removal i => cases hno
  | report ev => exact h.report ev

/-- A removal of what has no operator takes no steer away. -/
theorem removal (hi : ∀ n, d.graph.node? i = some n → n.kind = .unknown) :
    (d.serve f (.removal i)).Ready f := by
  have hgraph : (d.serve f (.removal i)).graph = d.graph.removeNode i := rfl
  refine h.of_graph (hgraph ▸ h.stored.removeNode i) rfl (fun id j hj => ?_) fun j n hn hk => ?_
  · rw [hgraph, Graph.find?_removeNode h.stored.toOwned] at hj
    exact hj.1
  · refine ⟨n, ?_, hk⟩
    rw [hgraph, Graph.node?_removeNode, if_neg]
    · exact hn
    · rintro rfl
      exact hk (hi n hn)

end Ready

/-- Drafts stay fit for searches until a removal is asked for. -/
theorem Ready.replay (h : d.Ready f) (hno : ∀ r ∈ rs, r.isRemoval = false) :
    (d.replay f rs).Ready f := by
  induction rs generalizing d with
  | nil => exact h
  | cons r rs ih =>
      exact ih (h.serve (hno r List.mem_cons_self)) fun r hr => hno r (List.mem_cons_of_mem _ hr)

/-- They also do while nodes without an operator are removed. -/
theorem Ready.replay_removals (h : d.Ready f)
    (hidle : ∀ r ∈ rs, ∀ i, r = .removal i → ∀ n, d.graph.node? i = some n → n.kind = .unknown)
    (hrs : ∀ r ∈ rs, r.isRemoval = true ∨ ∃ ev, r = .report ev) : (d.replay f rs).Ready f := by
  induction rs generalizing d with
  | nil => exact h
  | cons r rs ih =>
      have hnode : ∀ i n, (d.serve f r).graph.node? i = some n → d.graph.node? i = some n := by
        intro i n hn
        rcases hrs r List.mem_cons_self with hr | ⟨ev, rfl⟩
        · cases r with
          | removal j =>
              have hn' : (d.graph.removeNode j).node? i = some n := hn
              rw [Graph.node?_removeNode] at hn'
              split at hn'
              · cases hn'
              · exact hn'
          | _ => cases hr
        · exact hn
      refine ih ?_ (fun r hr i hi n hn => hidle r (List.mem_cons_of_mem _ hr) i hi n (hnode i n hn))
        fun r hr => hrs r (List.mem_cons_of_mem _ hr)
      rcases hrs r List.mem_cons_self with hr | ⟨ev, rfl⟩
      · cases r with
        | removal j => exact h.removal (hidle _ List.mem_cons_self j rfl)
        | _ => cases hr
      · exact h.report ev

theorem replay_append : d.replay f (rs ++ before) = (d.replay f rs).replay f before :=
  List.foldl_append

/-- Requests without removals hold none. -/
theorem Serves.isRemoval (h : Serves f false d rs e) (hr : r ∈ rs) : r.isRemoval = false := by
  induction h with
  | nil => cases hr
  | cons _ hno _ ih =>
      rcases List.mem_cons.mp hr with rfl | hr
      · exact Bool.eq_false_iff.mpr fun h => by cases hno h
      · exact ih hr

/-- Lowering builds a draft, and then cleans it up. -/
theorem requests_split (f : Function) (forest : LoopForest) (options : LowerOptions) :
    ∃ built d, Serves f false {} built d ∧
      f.requests forest options = built ++ Requests.enter f forest options d .cleanup := by
  have hall : Stage.all = [.nodes, .steers, .leaves, .results, .joins, .memory] ++ [.cleanup] := rfl
  have hlast : ∀ d, Requests.steps (enter f forest options) (Requests.enter f forest options) d
      [.cleanup] = Requests.enter f forest options d .cleanup := fun d => List.append_nil _
  have hbuilt : Serves f false {} (Requests.steps (enter f forest options)
        (Requests.enter f forest options) {} [.nodes, .steers, .leaves, .results, .joins, .memory])
      ([.nodes, .steers, .leaves, .results, .joins, .memory].foldl (enter f forest options) {}) :=
    Requests.stages_serves .empty (by simp)
  refine ⟨_, _, hbuilt, ?_⟩
  rw [Function.requests, hall, Requests.steps_append, hlast]

/-- What the last stage asks for: that nodes without an operator go, besides reports. -/
theorem mem_enter_cleanup (hr : r ∈ Requests.enter f forest options d .cleanup) :
    (∃ i, r = .removal i ∧ i ∈ d.graph.ofKind .unknown) ∨ ∃ ev, r = .report ev := by
  simp only [Requests.enter, Requests.run, Requests.cleanUp, List.mem_append,
    List.mem_singleton, List.mem_map] at hr
  rcases hr with rfl | ⟨i, hi, rfl⟩ | hr
  · exact Or.inr ⟨_, rfl⟩
  · exact Or.inl ⟨i, rfl, hi⟩
  · split at hr
    · cases hr
    · exact Or.inr ⟨_, List.mem_singleton.mp hr⟩

/-- Every draft that lowering comes to is fit for searches. -/
theorem ready_of_requests (h : f.requests forest options = before ++ after) :
    (replay f {} before).Ready f := by
  obtain ⟨built, d, hserves, hsplit⟩ := requests_split f forest options
  have hbuilt : ∀ r ∈ built, r.isRemoval = false := fun r hr => hserves.isRemoval hr
  rw [hsplit] at h
  rcases List.append_eq_append_iff.mp h with ⟨rest, rfl, hrest⟩ | ⟨rest, rfl, _⟩
  · have hready : d.Ready f := hserves.replay_eq ▸ Ready.empty.replay hbuilt
    have hcases : ∀ r ∈ rest, (∃ i, r = .removal i ∧ i ∈ d.graph.ofKind .unknown) ∨
        ∃ ev, r = .report ev :=
      fun r hr => mem_enter_cleanup (hrest ▸ List.mem_append_left _ hr)
    rw [replay_append, hserves.replay_eq]
    refine hready.replay_removals (fun r hr i hi n hn => ?_) fun r hr => ?_
    · rcases hcases r hr with ⟨j, rfl, hj⟩ | ⟨ev, rfl⟩
      · cases hi
        obtain ⟨m, hm, hk⟩ := Graph.mem_ofKind.mp hj
        rw [hn] at hm
        cases hm
        exact hk
      · cases hi
    · rcases hcases r hr with ⟨j, rfl, _⟩ | hreport
      · exact Or.inl rfl
      · exact Or.inr hreport
  · exact Ready.empty.replay fun r hr => hbuilt r (List.mem_append_left _ hr)

end Draft

/-- Wiring a value into a node that is there, in any draft that lowering comes to and in any other
that a search can rely on, adds exactly the edges from what produces the value and the nodes of the
leaves among it, changes nothing else, and reports exactly a value that nothing produces. -/
theorem Function.wires_exactly (hf : f.InRange) :
    (∀ forest options before after, f.requests forest options = before ++ after →
      (Draft.replay f {} before).Ready f) ∧
    ∀ (d : Draft) (v : Operand) (target : NodeId), d.Ready f → d.Live target → f.Refers v →
      (∀ id i, Leads f d v (.result id) → f.instruction? id = some i → i.isSelect = true →
        ∃ p, d.steers.lookup id = some p) →
      d.WiresExactly f v target (d.wire f v target) :=
  ⟨fun _ _ _ _ => Draft.ready_of_requests, fun _ _ _ hd htarget hv hpaired =>
    hd.wiresExactly hf hv htarget (scope_leads hpaired)⟩

/-- A call and a conversion that take each other's result, so that two ways lead from either of them
to the parameter, and none to an operator. -/
def circling : Function where
  name := "f"
  ret := .void
  params := [⟨"a", .int 32⟩]
  blocks := [⟨"entry", [0, 1, 2]⟩]
  slots := [
    ⟨some "x", .cast .trunc ⟨.int 64, .result 1⟩ (.int 32), 0⟩,
    ⟨some "y", .call (.int 64) (.function "g")
      [⟨.int 32, .result 0⟩, ⟨.int 32, .param 0⟩, ⟨.int 32, .result 0⟩], 0⟩,
    ⟨none, .ret (some ⟨.int 32, .result 0⟩), 0⟩]

/-- The return takes the parameter, once, and nothing is reported. -/
theorem wires_exactly_circling : circling.InRange ∧
    let d := Draft.replay circling {} [.role (2, .ret (some ⟨.int 32, .result 0⟩))]
    d.Ready circling ∧ d.Live 0 ∧ circling.Refers (.result 0) ∧
      d.WiresExactly circling (.result 0) 0 (d.wire circling (.result 0) 0) ∧
      (d.wire circling (.result 0) 0).graph.edges = [(1, 0)] ∧
      (d.wire circling (.result 0) 0).graph.find? (.param 0) = some 1 ∧
      (d.wire circling (.result 0) 0).journal = [] := by
  have hf : circling.InRange := ⟨by decide, by decide, by decide⟩
  have hready : (Draft.replay circling {} [.role (2, .ret (some ⟨.int 32, .result 0⟩))]).Ready
      circling := Draft.Ready.empty.replay (by decide)
  have hlive : (Draft.replay circling {} [.role (2, .ret (some ⟨.int 32, .result 0⟩))]).Live 0 :=
    ⟨_, rfl⟩
  refine ⟨hf, hready, hlive, by decide, ?_, by decide, by decide, by decide⟩
  refine (Function.wires_exactly hf).2 _ _ 0 hready hlive (by decide) fun id i _ hi hsel => ?_
  -- there is no select
  match id, hi with
  | 0, hi | 1, hi | 2, hi =>
      cases hi
      cases hsel

end Dataflow
