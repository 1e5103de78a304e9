import Dataflow.Proofs.Lowering.Inventory
import Dataflow.Proofs.Lowering.MirrorStages

/-!
# The option about the stream

With the option a function that branches has a stream node, which feeds the steers of every branch;
all else is the same, except that the nodes from there on have numbers that are one up
(`Draft.adds_stream`). The two runs go on side by side from stage to stage, and the node in between
is the stream (`Draft.stream_mirrors`). A function that does not branch has the same graph with the
option as without it.
-/

namespace Dataflow

/-- Graph `h` is graph `g` with one more node, a stream that feeds the given steers. -/
structure Graph.AddsStream (stream : NodeId) (steer : NodeId → Prop) (g h : Graph) : Prop where
  /-- Other nodes and edges are the same but for numbers, and all have their place. -/
  shows : g.Shows (some stream) (fun _ => False) (fun _ => False) h
  node : h.node? stream = some { kind := .stream, label := "STR" }
  /-- There was no stream before. -/
  fresh : ∀ n, g.kind? n ≠ some .stream
  output : ∀ b, h.hasEdge stream b ↔ steer b
  input : ∀ a, ¬ h.hasEdge a stream

variable {f : Function} {forest : LoopForest} {options off on : LowerOptions} {d e : Draft}
  {gap : Option NodeId} {joins into : NodeId → Prop} {id : InstId} {n a b k : NodeId}
  {v : Operand}

namespace Draft

/-! ## The stream in one draft -/

theorem stream_addRole (step : InstId × Instruction) : (d.addRole f step).stream = d.stream := by
  unfold Draft.addRole
  split
  · rfl
  · cases hnode : d.nodeFor f (.result step.1) with
    | mk e i =>
        have hstream : e.stream = d.stream := congrArg (fun r => r.1.stream) hnode.symm
        cases i <;> exact hstream

/-- The first stage makes no stream. -/
theorem nodes_stream : (Draft.enter f forest options {} .nodes).stream = none :=
  List.foldlRecOn f.steps (Draft.addRole f) (motive := fun e : Draft => e.stream = none) rfl
    fun _ he step _ => (stream_addRole step).trans he

/-- There is a stream just if it is asked for and the function branches. -/
theorem Reasoned.streams (hreason : d.Reasoned f options) (hd : Sound f d)
    (hk : d.stream = some k) : f.Streams options := by
  have hnode := hd.stream hk
  cases hreason k _ hnode with
  | value _ _ hsuits => exact absurd rfl hsuits.ne_stream
  | @steer _ _ taken _ hkind => cases taken <;> cases hkind
  | stream _ _ _ hstreams => exact hstreams

/-- The stream stands for no value. -/
theorem Sound.find?_ne_stream (hd : Sound f d) (hk : d.stream = some k)
    (hv : d.graph.find? v = some n) : n ≠ k := by
  rintro rfl
  obtain ⟨m, hm, horigin⟩ := hd.full.owner hv
  rw [hd.stream hk] at hm
  cases hm
  cases horigin

/-- It is no steer. -/
theorem Sound.side_ne_stream (hd : Sound f d) (hk : d.stream = some k) {p : SteerPair}
    (hp : d.steers.lookup id = some p) (taken : Bool) : p.side taken ≠ k := by
  rintro rfl
  obtain ⟨m, hm, _, hkind⟩ := hd.side hp taken
  rw [hd.stream hk] at hm
  cases hm
  cases taken <;> cases hkind

/-- So it produces nothing. -/
theorem Sound.supplies_ne_stream {opens : InstId → Prop} (hd : Sound f d) (hk : d.stream = some k)
    (hv : Supplies f d opens v n) : n ≠ k := by
  induction hv with
  | leaf _ hn => exact hd.find?_ne_stream hk hn
  | steer _ _ hp => exact hd.side_ne_stream hk hp _
  | node hop => exact hd.find?_ne_stream hk (operator?_eq_some.mp hop).1
  | operand _ _ _ _ _ ih => exact ih

/-- The stream takes nothing and feeds steers of branches alone. -/
theorem Lawful.edge_stream (h : Lawful f forest options d) (hk : d.stream = some k)
    (hab : d.graph.hasEdge a b) : b ≠ k ∧ (a = k → f.IsBranchSteer d.steers b) := by
  have hd := h.sound
  have hside : ∀ {id p taken}, d.steers.lookup id = some p → SteerPair.side p taken ≠ k :=
    fun hp => hd.side_ne_stream hk hp _
  have hop : ∀ {id m}, d.operator? id = some m → m ≠ k :=
    fun hop => hd.find?_ne_stream hk (operator?_eq_some.mp hop).1
  cases h.justified hab with
  | operand _ _ _ hb ha | carried _ hb _ _ ha | decider _ hb _ _ ha | merged _ hb _ _ _ ha =>
      exact ⟨hop hb, fun heq => absurd heq (hd.supplies_ne_stream hk ha)⟩
  | condition hp _ _ ha | choice hp _ _ ha | controlled _ _ _ _ hp ha =>
      exact ⟨hside hp, fun heq => absurd heq (hd.supplies_ne_stream hk ha)⟩
  | stream _ _ hp hi => exact ⟨hside hp, fun _ => ⟨_, _, _, _, _, _, hi, hp, rfl⟩⟩
  | entry hp _ _ _ _ hb | steered _ hb _ _ _ hp =>
      exact ⟨hop hb, fun heq => absurd heq (hside hp)⟩
  | memory _ ha hb => exact ⟨hop hb, fun heq => absurd heq (hop ha)⟩

/-! ## The two runs -/

section Runs

variable (hoff : off.entryStream = false) (hon : on.entryStream = true)

include hoff hon

/-- The stage that makes steers makes the stream in one run alone. -/
theorem Mirrors.enter_steers (forest : LoopForest) (h : Mirrors gap joins into d e)
    (hstream : d.stream = none) :
    ∃ gap', Mirrors gap' joins into (d.enter f forest off .steers)
      (e.enter f forest on .steers) := by
  have hbranches := List.foldl_rel (l := f.steps) (f := Draft.lowerBranch f off)
    (g := Draft.lowerBranch f on)
    (r := fun d e : Draft => (∃ gap, Mirrors gap joins into d e) ∧ d.stream = none)
    ⟨⟨gap, h.report (.stage f.name Stage.steers.name) (.stage f.name Stage.steers.name)⟩, hstream⟩
    fun step _ d e hex => by
      obtain ⟨⟨gap, h⟩, hstream⟩ := hex
      have hbuilds : Builds f off (fun _ => True) (fun _ => True) d (d.lowerBranch f off step) :=
        lowerBranch_builds h.full (fun _ _ => trivial) trivial
      exact ⟨h.lowerBranch hoff hon hstream step,
        (hbuilds.stream fun hs => by simp [hs.1] at hoff).trans hstream⟩
  obtain ⟨⟨gap', h'⟩, _⟩ := hbranches
  exact ⟨gap', List.foldl_rel h' fun step _ _ _ h => h.lowerSelect f step⟩

/-- Before nodes go the two runs are side by side. -/
theorem stream_mirrors (hf : f.Whole) (htrace : on.traceBranches = off.traceBranches)
    (hmemory : on.memoryDependencies = off.memoryDependencies) (forest : LoopForest) :
    ∃ gap, Mirrors gap (fun _ => False) (fun _ => False)
      ([Stage.nodes, .steers, .leaves, .results, .joins, .memory].foldl
        (Draft.enter f forest off) {})
      ([Stage.nodes, .steers, .leaves, .results, .joins, .memory].foldl
        (Draft.enter f forest on) {}) := by
  obtain ⟨hnodes, _⟩ : Lawful f forest off (Draft.enter f forest off {} .nodes) ∧ _ :=
    nodes_lawful hf
  have hstart : Mirrors none (fun _ => False) (fun _ => False) (Draft.enter f forest off {} .nodes)
      (Draft.enter f forest on {} .nodes) := .refl hnodes.sound fun hn => hn.elim
  obtain ⟨gap, hsteers⟩ : ∃ gap, Mirrors gap (fun _ => False) (fun _ => False)
      ([Stage.nodes, .steers].foldl (Draft.enter f forest off) {})
      ([Stage.nodes, .steers].foldl (Draft.enter f forest on) {}) :=
    hstart.enter_steers hoff hon forest nodes_stream
  have hresults : Mirrors gap (fun _ => False) (fun _ => False)
      ([Stage.nodes, .steers, .leaves, .results].foldl (Draft.enter f forest off) {})
      ([Stage.nodes, .steers, .leaves, .results].foldl (Draft.enter f forest on) {}) :=
    (hsteers.enter_leaves f forest off on).enter_results f forest off on
  have hjoins := hresults.enter_joins hf htrace (supplied_of_whole hf forest off).toSteered
  exact ⟨gap, hjoins.enter_memory hmemory forest forest⟩

variable (off on) in
/-- Turning the option on adds the stream of a function that branches and changes nothing else. -/
theorem adds_stream (hf : f.Whole) (htrace : on.traceBranches = off.traceBranches)
    (hmemory : on.memoryDependencies = off.memoryDependencies) (forest : LoopForest) :
    (f.steps.any (·.2.isBranch) = true → ∃ k, (f.lowerWith forest off).graph.AddsStream k
      (f.IsBranchSteer (f.lowering forest on).steers) (f.lowerWith forest on).graph) ∧
    (f.steps.any (·.2.isBranch) = false → (f.lowerWith forest off).graph.Shows none
      (fun _ => False) (fun _ => False) (f.lowerWith forest on).graph) := by
  obtain ⟨gap, hmirrors⟩ := stream_mirrors hoff hon hf htrace hmemory forest
  have hwired := wired_of_whole hf forest off
  have hwired' := wired_of_whole hf forest on
  have hreason := reasoned_before_cleanup f forest off
  have hreason' := reasoned_before_cleanup f forest on
  have hend : f.lowering forest off = Draft.enter f forest off
      ([Stage.nodes, .steers, .leaves, .results, .joins, .memory].foldl
        (Draft.enter f forest off) {}) .cleanup := rfl
  have hend' : f.lowering forest on = Draft.enter f forest on
      ([Stage.nodes, .steers, .leaves, .results, .joins, .memory].foldl
        (Draft.enter f forest on) {}) .cleanup := rfl
  have hkind : ∀ n, (f.lowering forest off).graph.kind? n = some .stream →
      (f.lowering forest off).stream = some n := fun _ => stream_of_kind
  rw [f.graph_lowerWith, f.graph_lowerWith]
  rw [hend] at hkind ⊢
  rw [hend']
  generalize [Stage.nodes, .steers, .leaves, .results, .joins, .memory].foldl
    (Draft.enter f forest off) {} = d at hmirrors hwired hreason hkind ⊢
  generalize [Stage.nodes, .steers, .leaves, .results, .joins, .memory].foldl
    (Draft.enter f forest on) {} = e at hmirrors hwired' hreason' ⊢
  have hshows := hmirrors.enter_cleanup hwired.lawful hwired'.lawful
  have hnone : d.stream = none := by
    rw [Option.eq_none_iff_forall_ne_some]
    intro k hk
    have hstreams := (hreason.streams hwired.lawful.sound hk).1
    simp [hoff] at hstreams
  have hgap : e.stream = gap := by rw [hmirrors.stream, hnone, Option.or_none]
  cases gap with
  | none =>
      refine ⟨fun hbranch => ?_, fun _ => hshows⟩
      obtain ⟨_, id, cond, onTrue, onFalse, hi⟩ := (Function.streams_iff hf).mpr ⟨hon, hbranch⟩
      obtain ⟨p, hp⟩ := hwired'.paired hi rfl
      obtain ⟨n, hn, _⟩ := hwired'.streamed hon id cond onTrue onFalse p hi hp
      rw [hgap] at hn
      cases hn
  | some k =>
      have hstreams := hreason'.streams hwired'.lawful.sound hgap
      refine ⟨fun _ => ⟨k, hshows, ?_, fun n hn => ?_, fun b => ?_, fun a hab => ?_⟩,
        fun hbranch => ?_⟩
      · rw [node?_cleanup, hwired'.lawful.sound.stream hgap]
        rfl
      · have hn := hkind n hn
        rw [stream_enter_cleanup, hnone] at hn
        cases hn
      · rw [hwired'.finishes.edge, hwired'.finishes.steers]
        constructor
        · exact fun hab => (hwired'.lawful.edge_stream hgap hab).2 rfl
        · intro hex
          obtain ⟨id, cond, onTrue, onFalse, p, taken, hi, hp, rfl⟩ := hex
          obtain ⟨n, hn, hedge⟩ := hwired'.streamed hon id cond onTrue onFalse p hi hp
          rw [hgap] at hn
          cases hn
          exact hedge taken
      · rw [hwired'.finishes.edge] at hab
        exact (hwired'.lawful.edge_stream hgap hab).1 rfl
      · rw [((Function.streams_iff hf).mp hstreams).2] at hbranch
        cases hbranch

end Runs

end Draft

end Dataflow
