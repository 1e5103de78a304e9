import Dataflow.Proofs.Lowering.MirrorStages
import Dataflow.Proofs.Lowering.NodeReasons
import Mathlib.Data.List.Induction

/-!
# The option about memory

With the option every load takes the last store before it in program order, if there is one
(`Draft.adds_memory`). Nothing else is different: the stages before memory do not ask for the
option, and the stage that wires memory adds edges alone. Its loop remembers the node of the last
store, so by induction it has added the edges for the instructions that it has come to
(`Draft.Accesses.foldl_wireMemory`).
-/

namespace Dataflow

/-- Whether an instruction has the given operator by its role. -/
def Function.plays (f : Function) (kind : Operator) (id : InstId) : Bool :=
  (f.instruction? id).any fun i => i.role?.any (·.kind = kind)

/-- Graph `h` is graph `g` with an edge to each load from the last store before it. -/
structure Graph.AddsMemory (f : Function) (g h : Graph) : Prop where
  node : ∀ n, h.node? n = g.node? n
  value : ∀ v, h.find? v = g.find? v
  edge : ∀ a b, h.hasEdge a b ↔ g.hasEdge a b ∨
    ∃ s x, Function.LastBefore (f.plays .store) f.live s x ∧ f.plays .load x = true ∧
      g.find? (.result s) = some a ∧ g.find? (.result x) = some b

variable {f : Function} {forest : LoopForest} {options : LowerOptions} {d e : Draft} {id : InstId}
  {n a b : NodeId} {k : Operator}

theorem Function.plays_iff : f.plays k id = true ↔
    ∃ i r, f.instruction? id = some i ∧ i.role? = some r ∧ r.kind = k := by
  simp [plays, Option.any_eq_true]

namespace Draft

/-! ## The loop over the program order -/

/-- Loads and stores have their operators by their roles. -/
structure Accesses (f : Function) (d : Draft) : Prop where
  store : ∀ {id}, f.plays .store id = true ↔
    ∃ n, d.operator? id = some n ∧ d.graph.kind? n = some .store
  load : ∀ {id}, f.plays .load id = true ↔
    ∃ n, d.operator? id = some n ∧ d.graph.kind? n = some .load

namespace Accesses

variable (h : Accesses f d)

include h

/-- A store is remembered, and a load takes the one that is. -/
theorem wireMemory (he : FeedsInto (fun b => d.graph.kind? b = some .load) d e)
    {before : Option InstId} (hbefore : ∀ s ∈ before, f.plays .store s = true) (x : InstId) :
    FeedsInto (fun b => d.graph.kind? b = some .load) d
        (Draft.wireMemory (e, before.bind d.operator?) x).1 ∧
      (Draft.wireMemory (e, before.bind d.operator?) x).2 =
        (if f.plays .store x then some x else before).bind d.operator? ∧
      ∀ a b, (Draft.wireMemory (e, before.bind d.operator?) x).1.graph.hasEdge a b ↔
        e.graph.hasEdge a b ∨ f.plays .load x = true ∧ d.operator? x = some b ∧
          ∃ s, before = some s ∧ d.operator? s = some a := by
  refine ⟨he.trans (wireMemory_feedsInto (e, _) (fun n hn => by rwa [he.kind?] at hn) x), ?_⟩
  rw [wireMemory_eq, he.operator?]
  cases hop : d.operator? x with
  | none =>
      have hstore : f.plays .store x = false := by
        rw [← Bool.not_eq_true, h.store]
        simp [hop]
      simp [hstore]
  | some n =>
      rw [Option.elim_some, he.kind?]
      by_cases hstore : d.graph.kind? n = some .store
      · have hplays : f.plays .store x = true := h.store.mpr ⟨n, hop, hstore⟩
        have hload : f.plays .load x = false := by
          rw [← Bool.not_eq_true, h.load]
          simp [hop, hstore]
        rw [if_pos hstore, if_pos hplays]
        simp [hload, hop]
      · have hplays : f.plays .store x = false := by
          rw [← Bool.not_eq_true, h.store]
          simpa [hop] using hstore
        rw [if_neg hstore, hplays, if_neg Bool.false_ne_true]
        by_cases hload : d.graph.kind? n = some .load
        · rw [if_pos hload]
          refine ⟨rfl, fun a b => ?_⟩
          have hplays' : f.plays .load x = true := h.load.mpr ⟨n, hop, hload⟩
          cases before with
          | none => simp
          | some s =>
              -- both ends of the new edge are operators
              obtain ⟨m, hm, _⟩ := h.store.mp (hbefore s rfl)
              have hnode : ∀ {y j}, d.operator? y = some j →
                  ∃ node, e.graph.node? j = some node := by
                intro y j hj
                obtain ⟨_, node, hnode, _⟩ := operator?_eq_some.mp hj
                exact ⟨node, he.node?.trans hnode⟩
              simp only [Option.bind_some, hm, Option.elim_some]
              rw [hasEdge_link (hnode hm) (hnode hop)]
              refine or_congr_right ⟨fun hab => ?_, fun hex => ?_⟩
              · obtain ⟨rfl, rfl⟩ := hab
                exact ⟨hplays', rfl, s, rfl, hm⟩
              · obtain ⟨_, hb, _, hs, ha⟩ := hex
                cases hs
                rw [hm] at ha
                exact ⟨(Option.some.inj ha).symm, (Option.some.inj hb).symm⟩
        · have hplays' : f.plays .load x = false := by
            rw [← Bool.not_eq_true, h.load]
            simpa [hop] using hload
          rw [if_neg hload]
          simp [hplays']

/-- The loop has added the edges for what it has come to, and remembers the last store. -/
theorem foldl_wireMemory (ids : List InstId) :
    FeedsInto (fun b => d.graph.kind? b = some .load) d (ids.foldl Draft.wireMemory (d, none)).1 ∧
      (ids.foldl Draft.wireMemory (d, none)).2 =
        (ids.reverse.find? (f.plays .store)).bind d.operator? ∧
      ∀ a b, (ids.foldl Draft.wireMemory (d, none)).1.graph.hasEdge a b ↔ d.graph.hasEdge a b ∨
        ∃ s x, Function.LastBefore (f.plays .store) ids s x ∧ f.plays .load x = true ∧
          d.operator? s = some a ∧ d.operator? x = some b := by
  induction ids using List.reverseRecOn with
  | nil =>
      refine ⟨.refl d, rfl, fun a b => (or_iff_left fun hex => ?_).symm⟩
      obtain ⟨s, x, ⟨front, mid, after, hids, _⟩, _⟩ := hex
      simp at hids
  | append_singleton ids x ih =>
      obtain ⟨hfeeds, hlast, hedge⟩ := ih
      obtain ⟨hfeeds', hlast', hedge'⟩ :
          FeedsInto _ d (Draft.wireMemory (_, (ids.reverse.find? (f.plays .store)).bind d.operator?)
            x).1 ∧ _ := h.wireMemory hfeeds (fun s hs => List.find?_some hs) x
      have hstate : (ids ++ [x]).foldl Draft.wireMemory (d, none) = Draft.wireMemory
          ((ids.foldl Draft.wireMemory (d, none)).1,
            (ids.reverse.find? (f.plays .store)).bind d.operator?) x := by
        rw [List.foldl_concat, ← hlast]
      rw [hstate]
      refine ⟨hfeeds', ?_, fun a b => ?_⟩
      · rw [hlast', List.reverse_concat, List.find?_cons]
        cases f.plays .store x <;> rfl
      · rw [hedge', hedge, or_assoc]
        refine or_congr_right ?_
        simp only [Function.lastBefore_concat]
        constructor
        · intro hex
          rcases hex with ⟨s, y, hbefore, hy⟩ | ⟨hload, hb, s, hs, ha⟩
          · exact ⟨s, y, Or.inl hbefore, hy⟩
          · exact ⟨s, x, Or.inr ⟨rfl, hs⟩, hload, ha, hb⟩
        · intro hex
          obtain ⟨s, y, hbefore | ⟨rfl, hs⟩, hload, ha, hb⟩ := hex
          · exact Or.inl ⟨s, y, hbefore, hload, ha, hb⟩
          · exact Or.inr ⟨hload, hb, s, hs, ha⟩

end Accesses

/-! ## Loads and stores -/

/-- A node that is a load or a store is one by the role of its instruction. -/
theorem Reasoned.plays (hd : d.Reasoned f options) (howner : d.graph.Owned)
    (hop : d.operator? id = some n) (hk : d.graph.kind? n = some k)
    (hkind : k = .store ∨ k = .load) : f.plays k id = true := by
  obtain ⟨node, hnode, rfl⟩ := Graph.kind?_eq_some.mp hk
  obtain ⟨m, hm, horigin⟩ := howner.owner (operator?_eq_some.mp hop).1
  rw [hnode] at hm
  cases hm
  cases hd n node hnode with
  | @value v hv _ hsuits =>
      rw [horigin] at hv
      cases hv
      generalize node.kind = kind at hsuits hkind
      cases hsuits with
      | role hi hrole => exact Function.plays_iff.mpr ⟨_, _, hi, hrole, rfl⟩
      | idle | decider | carry => simp at hkind
  | steer hnone | stream hnone =>
      rw [horigin] at hnone
      cases hnone

/-- What is a load or a store by its role has a node that is one. -/
theorem exists_of_plays (hf : f.Whole) (forest : LoopForest) (options : LowerOptions)
    (hkind : k = .store ∨ k = .load) (hplays : f.plays k id = true) :
    ∃ n, (f.lowerWith forest options).graph.find? (.result id) = some n ∧
      (f.lowerWith forest options).graph.kind? n = some k := by
  obtain ⟨i, r, hi, hrole, rfl⟩ := Function.plays_iff.mp hplays
  refine f.kind_of_role forest options (Function.mem_steps.mpr ⟨hf.mem_live hi, hi⟩) ?_ hrole ?_
  · cases i with
    | phi =>
        cases hrole
        simp at hkind
    | _ => rfl
  · rcases hkind with hr | hr <;> simp [hr]

/-- Before nodes go, loads and stores have their operators. -/
theorem accesses_of_whole (hf : f.Whole) (forest : LoopForest) (options : LowerOptions) :
    Accesses f ([Stage.nodes, .steers, .leaves, .results, .joins, .memory].foldl
      (Draft.enter f forest options) {}) := by
  have hwired := wired_of_whole hf forest options
  have hfinish := hwired.finishes
  have hreason := reasoned_before_cleanup f forest options
  have hplays : ∀ {x k}, k = .store ∨ k = .load → f.plays k x = true →
      ∃ n, (f.lowering forest options).graph.find? (.result x) = some n ∧
        (f.lowering forest options).graph.kind? n = some k :=
    exists_of_plays hf forest options
  have hend : f.lowering forest options = Draft.enter f forest options
      ([Stage.nodes, .steers, .leaves, .results, .joins, .memory].foldl
        (Draft.enter f forest options) {}) .cleanup := rfl
  rw [hend] at hplays
  generalize [Stage.nodes, .steers, .leaves, .results, .joins, .memory].foldl
    (Draft.enter f forest options) {} = d at hwired hfinish hreason hplays ⊢
  have hiff : ∀ {x k}, k = .store ∨ k = .load → (f.plays k x = true ↔
      ∃ n, d.operator? x = some n ∧ d.graph.kind? n = some k) := by
    intro x k hkind
    constructor
    · intro hx
      obtain ⟨n, hn, hk⟩ := hplays hkind hx
      obtain ⟨node, hnode, rfl⟩ := Graph.kind?_eq_some.mp hk
      rw [node?_cleanup] at hnode
      exact ⟨n, hfinish.operator.symm.trans hn,
        Graph.kind?_eq_some.mpr ⟨node, (Option.filter_eq_some_iff.mp hnode).1, rfl⟩⟩
    · intro hex
      obtain ⟨n, hn, hk⟩ := hex
      exact hreason.plays hwired.lawful.sound.full.toOwned hn hk hkind
  exact ⟨hiff (Or.inl rfl), hiff (Or.inr rfl)⟩

/-- Turning the option on adds the edges from stores to loads and changes nothing else. -/
theorem adds_memory (hf : f.Whole) (forest : LoopForest) (options : LowerOptions) :
    (f.lowerWith forest { options with memoryDependencies := false }).graph.AddsMemory f
      (f.lowerWith forest { options with memoryDependencies := true }).graph := by
  have haccess := accesses_of_whole hf forest { options with memoryDependencies := false }
  have hoff := wired_of_whole hf forest { options with memoryDependencies := false }
  have hon := wired_of_whole hf forest { options with memoryDependencies := true }
  -- the stages before memory are the same, and without the option that stage does nothing
  have hrun : [Stage.nodes, .steers, .leaves, .results, .joins, .memory].foldl
      (Draft.enter f forest { options with memoryDependencies := true }) {} =
        (f.live.foldl wireMemory ([Stage.nodes, .steers, .leaves, .results, .joins, .memory].foldl
          (Draft.enter f forest { options with memoryDependencies := false }) {}, none)).1 := rfl
  have hend : f.lowering forest { options with memoryDependencies := false } =
      Draft.enter f forest { options with memoryDependencies := false }
        ([Stage.nodes, .steers, .leaves, .results, .joins, .memory].foldl
          (Draft.enter f forest { options with memoryDependencies := false }) {}) .cleanup := rfl
  have hend' : f.lowering forest { options with memoryDependencies := true } =
      Draft.enter f forest { options with memoryDependencies := true }
        ([Stage.nodes, .steers, .leaves, .results, .joins, .memory].foldl
          (Draft.enter f forest { options with memoryDependencies := true }) {}) .cleanup := rfl
  rw [f.graph_lowerWith, f.graph_lowerWith, hend, hend']
  rw [hrun] at hon ⊢
  generalize [Stage.nodes, .steers, .leaves, .results, .joins, .memory].foldl
    (Draft.enter f forest { options with memoryDependencies := false }) {} = d
    at haccess hoff hon ⊢
  obtain ⟨hfeeds, _, hedge⟩ := haccess.foldl_wireMemory f.live
  have hmirrors : Mirrors none (fun _ => False) (fun b => d.graph.kind? b = some .load) d
      (f.live.foldl wireMemory (d, none)).1 :=
    (Mirrors.refl hoff.lawful.sound fun hn => hn.elim).of_feedsInto hfeeds
  have hshows := hmirrors.enter_cleanup hoff.lawful hon.lawful
  have hfind : ∀ x, (Draft.enter f forest { options with memoryDependencies := false } d
      .cleanup).graph.find? (.result x) = d.operator? x := fun _ => hoff.finishes.operator
  refine ⟨fun n => hshows.node id, fun v => ?_, fun a b => ?_⟩
  · rw [hshows.value, map_renumber_none]
  · rw [hon.finishes.edge, hoff.finishes.edge, hedge]
    simp only [hfind]

end Draft

end Dataflow
