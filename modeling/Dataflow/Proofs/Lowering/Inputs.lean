import Dataflow.Proofs.Lowering.Operands

/-!
# Inputs of phis and steers

Wiring memory adds edges into loads alone, and clean-up takes none away. So the inputs of every
other node are told by the draft before memory is wired (`Draft.Yields`), where every edge has a
reason other than memory. From the reasons this module reads off what feeds the node of a phi, which
is a carry (`Draft.Wired.hasEdge_carry`) or a merge (`Draft.Wired.hasEdge_merge`).
-/

namespace Dataflow

/-- Node `a` feeds a merge in `block` for the sake of one arm: the steer that controls the way of
the arm if there is one, and otherwise whatever produces the value. -/
inductive Function.ArmTakes (f : Function) (trace : Bool) (steers : List (InstId × SteerPair))
    (produces : Operand → NodeId → Prop) (block : BlockId) (arm : Arm) : NodeId → Prop where
  | direct {a} : f.controlling trace arm.source block = none → produces arm.value a →
      ArmTakes f trace steers produces block arm a
  | steered {branch taken p} : f.controlling trace arm.source block = some (branch, taken) →
      steers.lookup branch = some p →
      ArmTakes f trace steers produces block arm (SteerPair.side p taken)

variable {f : Function} {forest : LoopForest} {options : LowerOptions} {d e : Draft}
  {id : InstId} {i : Instruction} {v : Operand} {a b n join : NodeId} {k : Operator}
  {arms : List Arm} {arm : Arm} {block : BlockId} {p : SteerPair} {taken : Bool}

/-- The same choices, but for stores that feed later loads. -/
def LowerOptions.withoutMemory (options : LowerOptions) : LowerOptions :=
  { options with memoryDependencies := false }

namespace Draft

/-- Equal values, operators and pairs give equal producers. -/
theorem FeedsInto.supplies {T : NodeId → Prop} {opens : InstId → Prop} (h : FeedsInto T d e) :
    Supplies f e opens v n ↔ Supplies f d opens v n := by
  constructor
  · intro hv
    induction hv with
    | leaf hleaf hn => exact .leaf hleaf (by rwa [← h.find?])
    | steer hi hsel hp => exact .steer hi hsel (by rwa [← h.steers])
    | node hn => exact .node (by rwa [← h.operator?])
    | operand hi hsel ho hv _ ih => exact .operand hi hsel ho hv ih
  · intro hv
    induction hv with
    | leaf hleaf hn => exact .leaf hleaf (by rwa [h.find?])
    | steer hi hsel hp => exact .steer hi hsel (by rwa [h.steers])
    | node hn => exact .node (by rwa [h.operator?])
    | operand hi hsel ho hv _ ih => exact .operand hi hsel ho hv ih

/-- What the draft `d` before memory is wired tells about the draft `e` that lowering ends with. -/
structure Yields (f : Function) (forest : LoopForest) (options : LowerOptions) (d e : Draft) :
    Prop where
  wired : Wired f forest options.withoutMemory d
  operator : ∀ {id}, e.graph.find? (.result id) = d.operator? id
  producers : ∀ {v a}, Producers f e.graph e.steers v a ↔ Produced f d v a
  steers : e.steers = d.steers
  stream : e.stream = d.stream
  kind : ∀ {n k}, d.graph.kind? n = some k → k ≠ .unknown → e.graph.kind? n = some k
  input : ∀ {a b}, d.graph.kind? b ≠ some .load → (a ∈ e.graph.inputs b ↔ d.graph.hasEdge a b)

theorem yields_lowering (hf : f.Whole) (forest : LoopForest) (options : LowerOptions) :
    ∃ d, Yields f forest options d (f.lowering forest options) := by
  -- the choice about memory makes no difference before memory is wired
  have hwired : Wired f forest options.withoutMemory ([Stage.nodes, .steers, .leaves, .results,
      .joins].foldl (Draft.enter f forest options) {}) :=
    joined_of_whole hf forest options.withoutMemory
  have hfinal : Finishes f forest options (([Stage.nodes, .steers, .leaves, .results,
      .joins].foldl (Draft.enter f forest options) {}).enter f forest options .memory)
      (f.lowering forest options) := (wired_of_whole hf forest options).finishes
  have hend : f.lowering forest options = (([Stage.nodes, .steers, .leaves, .results,
      .joins].foldl (Draft.enter f forest options) {}).enter f forest options .memory).enter f
        forest options .cleanup := rfl
  generalize [Stage.nodes, .steers, .leaves, .results, .joins].foldl
    (Draft.enter f forest options) {} = d at hwired hfinal hend
  have hloads := memory_feedsInto f forest options d
  generalize d.enter f forest options .memory = d' at hfinal hend hloads
  refine ⟨d, hwired, fun {id} => hfinal.operator.trans hloads.operator?,
    fun {v a} => hfinal.producers_iff.trans hloads.supplies, hfinal.steers.trans hloads.steers,
    ?_, fun {n k} hk hne => ?_, fun {a b} hload => ?_⟩
  · rw [hend, stream_enter_cleanup, hloads.stream]
  · rw [hend]
    exact kind?_cleanup f forest options (hloads.kind?.trans hk) hne
  · exact hfinal.input.trans ⟨fun hab => (hloads.edge hab).resolve_right hload, hloads.kept⟩

/-- A steer is no load, so it has the inputs that it had before memory was wired. -/
theorem Yields.mem_inputs_side (h : Yields f forest options d e)
    (hp : d.steers.lookup id = some p) :
    a ∈ e.graph.inputs (p.side taken) ↔ d.graph.hasEdge a (p.side taken) := by
  obtain ⟨node, hnode, _, hside⟩ := h.wired.lawful.sound.side hp taken
  refine h.input fun hload => ?_
  rw [Graph.kind?, hnode, Option.map_some, hside, Option.some.injEq] at hload
  cases taken <;> cases hload

end Draft

/-- Whether the node of a phi is a carry or a merge. -/
theorem Function.kind_of_isJoin (hf : f.Whole) (hjoin : f.IsJoin id block arms)
    (hj : (f.lowerWith forest options).graph.find? (.result id) = some n) :
    ((f.lowerWith forest options).graph.kind? n = some .carry ∧
      ∃ l, forest.carrying? block arms = some l) ∨
    (f.lowerWith forest options).graph.kind? n = some .merge ∧
      forest.carrying? block arms = none := by
  obtain ⟨ty, hi⟩ := hjoin.instruction
  obtain ⟨m, k, hm, hk, hcarry, hmerge⟩ := f.kind_lowerWith forest options
    (mem_steps.mpr ⟨hf.mem_live hi, hi⟩) rfl (by simp)
  rw [hj] at hm
  cases hm
  cases hl : forest.carrying? block arms with
  | some l =>
      rw [hcarry ⟨block, arms, l, hjoin, hl⟩] at hk
      exact Or.inl ⟨hk, l, rfl⟩
  | none =>
      have hnot : ¬ f.Carries forest id := by
        intro hex
        obtain ⟨block', arms', l, hjoin', hl'⟩ := hex
        obtain ⟨rfl, rfl⟩ := hjoin.unique hjoin'
        rw [hl] at hl'
        cases hl'
      rw [hmerge hnot] at hk
      exact Or.inr ⟨hk, rfl⟩

theorem Function.kind_merge_iff (hf : f.Whole) (hjoin : f.IsJoin id block arms)
    (hj : (f.lowerWith forest options).graph.find? (.result id) = some n) :
    (f.lowerWith forest options).graph.kind? n = some .merge ↔
      forest.carrying? block arms = none := by
  rcases kind_of_isJoin hf hjoin hj with ⟨hk, l, hl⟩ | ⟨hk, hnone⟩
  · simp [hk, hl]
  · simp [hk, hnone]

namespace Draft

/-- The node of a phi is no load either. -/
theorem Yields.mem_inputs_join (h : Yields f forest options d (f.lowering forest options))
    (hf : f.Whole) (hjoin : f.IsJoin id block arms)
    (hj : (f.lowerWith forest options).graph.find? (.result id) = some n) (a : NodeId) :
    a ∈ (f.lowerWith forest options).graph.inputs n ↔ d.graph.hasEdge a n := by
  refine h.input fun hload => ?_
  have hend := h.kind hload (by simp)
  rw [← f.graph_lowerWith] at hend
  rcases Function.kind_of_isJoin hf hjoin hj with ⟨hk, _⟩ | ⟨hk, _⟩
  · rw [hk] at hend
    cases hend
  · rw [hk] at hend
    cases hend

/-! ## Phis -/

section Join

variable (h : Wired f forest options d) (hjoin : f.IsJoin id block arms)
  (hop : d.operator? id = some join)

include h hjoin hop

/-- Why something feeds a phi. -/
theorem Wired.join_reason (hoff : options.memoryDependencies = false)
    (hab : d.graph.hasEdge a join) :
    (∃ l, forest.carrying? block arms = some l ∧
      ((∃ cond, f.loopDecider l = some cond ∧ Produced f d cond a) ∨
        ∃ arm ∈ arms, Produced f d arm.value a)) ∨
    forest.carrying? block arms = none ∧
      ∃ arm ∈ arms, f.ArmTakes options.traceBranches d.steers (Produced f d) block arm a := by
  have hsound := h.lawful.sound
  have hfind := (operator?_eq_some.mp hop).1
  -- another phi has another node, so the reason is about this one
  have hthis : ∀ {x block' arms'}, f.IsJoin x block' arms' → d.operator? x = some join →
      block' = block ∧ arms' = arms := by
    intro x block' arms' hx hop'
    cases hsound.operator_unique hop' hop
    exact hx.unique hjoin
  have hphi : ∀ {x i}, f.instruction? x = some i → i.isPhi = false → d.operator? x ≠ some join := by
    intro x i hi hphi hop'
    obtain ⟨ty, hi'⟩ := hjoin.instruction
    rw [hsound.operator_unique hop' hop, hi'] at hi
    cases hi
    cases hphi
  generalize hj : join = j at hab
  cases h.lawful.justified hab with
  | operand hi hphi' _ hop' => exact absurd (hj ▸ hop') (hphi hi hphi')
  | entry _ _ _ hi hphi' hop' => exact absurd (hj ▸ hop') (hphi hi hphi')
  | condition hp | choice hp | stream _ _ hp | controlled _ _ _ _ hp =>
      exact absurd hj (hsound.find?_ne_side hp hfind)
  | carried hx hop' hl harm ha =>
      obtain ⟨rfl, rfl⟩ := hthis hx (hj ▸ hop')
      exact Or.inl ⟨_, hl, Or.inr ⟨_, harm, ha⟩⟩
  | decider hx hop' hl hcond ha =>
      obtain ⟨rfl, rfl⟩ := hthis hx (hj ▸ hop')
      exact Or.inl ⟨_, hl, Or.inl ⟨_, hcond, ha⟩⟩
  | merged hx hop' hl harm hway ha =>
      obtain ⟨rfl, rfl⟩ := hthis hx (hj ▸ hop')
      exact Or.inr ⟨hl, _, harm, .direct hway ha⟩
  | steered hx hop' hl harm hway hp =>
      obtain ⟨rfl, rfl⟩ := hthis hx (hj ▸ hop')
      exact Or.inr ⟨hl, _, harm, .steered hway hp⟩
  | memory hon =>
      rw [hoff] at hon
      cases hon

/-- A carry takes what produces the condition of its loop and what produces its arms. -/
theorem Wired.hasEdge_carry (hoff : options.memoryDependencies = false) {l : NaturalLoop}
    (hl : forest.carrying? block arms = some l) : d.graph.hasEdge a join ↔
      (∃ cond, f.loopDecider l = some cond ∧ Produced f d cond a) ∨
        ∃ arm ∈ arms, Produced f d arm.value a := by
  have hopens : ∀ x n, d.operator? x = some n → ¬ ¬ f.HasOperator x :=
    fun x n hx hnot => hnot (h.lawful.sound.operator hx)
  constructor
  · intro hab
    rcases h.join_reason hjoin hop hoff hab with ⟨l', hl', hreason⟩ | ⟨hnone, _⟩
    · rw [hl] at hl'
      cases hl'
      exact hreason
    · rw [hl] at hnone
      cases hnone
  · intro hex
    rcases hex with ⟨cond, hcond, ha⟩ | ⟨arm, harm, ha⟩
    · exact ((h.joined hjoin hop).decider hl hcond).hasEdge h.lawful.sound hopens ha
    · cases (h.joined hjoin hop).arm harm with
      | direct _ hfed => exact hfed.hasEdge h.lawful.sound hopens ha
      | steered hnone =>
          rw [hl] at hnone
          cases hnone

/-- A merge takes each arm through the steer that controls its way, or else directly. -/
theorem Wired.hasEdge_merge (hoff : options.memoryDependencies = false)
    (hnone : forest.carrying? block arms = none) : d.graph.hasEdge a join ↔
      ∃ arm ∈ arms, f.ArmTakes options.traceBranches d.steers (Produced f d) block arm a := by
  have hopens : ∀ x n, d.operator? x = some n → ¬ ¬ f.HasOperator x :=
    fun x n hx hnot => hnot (h.lawful.sound.operator hx)
  constructor
  · intro hab
    rcases h.join_reason hjoin hop hoff hab with ⟨l, hl, _⟩ | ⟨_, hreason⟩
    · rw [hl] at hnone
      cases hnone
    · exact hreason
  · intro hex
    obtain ⟨arm, harm, htakes⟩ := hex
    cases (h.joined hjoin hop).arm harm with
    | direct hway hfed =>
        have hway' := hway.resolve_left fun ⟨l, hl⟩ => by
          rw [hl] at hnone
          cases hnone
        cases htakes with
        | direct _ ha => exact hfed.hasEdge h.lawful.sound hopens ha
        | steered hcontrol =>
            rw [hcontrol] at hway'
            cases hway'
    | steered _ hcontrol hp _ hedge =>
        cases htakes with
        | direct hway =>
            rw [hway] at hcontrol
            cases hcontrol
        | steered hcontrol' hp' =>
            rw [hcontrol'] at hcontrol
            cases hcontrol
            rw [hp'] at hp
            cases hp
            exact hedge

/-- The steer that controls the way of an arm takes what produces its value. -/
theorem Wired.hasEdge_controlled (hnone : forest.carrying? block arms = none) (harm : arm ∈ arms)
    {branch : InstId}
    (hway : f.controlling options.traceBranches arm.source block = some (branch, taken)) :
    ∃ p, d.steers.lookup branch = some p ∧
      ∀ a, Produced f d arm.value a → d.graph.hasEdge a (p.side taken) := by
  cases (h.joined hjoin hop).arm harm with
  | direct hway' =>
      rcases hway' with ⟨l, hl⟩ | hway'
      · rw [hl] at hnone
        cases hnone
      · rw [hway] at hway'
        cases hway'
  | @steered branch' taken' p _ hway' hp hfed _ =>
      rw [hway] at hway'
      cases hway'
      refine ⟨p, hp, fun a ha => hfed.hasEdge h.lawful.sound (fun x n hx hnot => ?_) ha⟩
      exact hnot (h.lawful.sound.operator hx)

end Join

/-! ## Merges -/

section Merge

variable (h : Yields f forest options d (f.lowering forest options)) (hf : f.Whole)
  (hjoin : f.IsJoin id block arms)
  (hj : (f.lowerWith forest options).graph.find? (.result id) = some n)
  (hk : (f.lowerWith forest options).graph.kind? n = some .merge)

include h hf hjoin hj hk

/-- A merge takes each arm through the steer that controls its way, or else directly. -/
theorem Yields.mem_inputs_merge (a : NodeId) :
    a ∈ (f.lowerWith forest options).graph.inputs n ↔
      ∃ arm ∈ arms, f.ArmTakes options.traceBranches d.steers (Produced f d) block arm a := by
  have hop : d.operator? id = some n := by rw [← h.operator, ← f.graph_lowerWith, hj]
  rw [h.mem_inputs_join hf hjoin hj]
  exact h.wired.hasEdge_merge hjoin hop rfl ((Function.kind_merge_iff hf hjoin hj).mp hk)

/-- The steer that controls the way of an arm of a merge takes what produces its value. -/
theorem Yields.fed_of_controlled (harm : arm ∈ arms) {branch : InstId}
    (hway : f.controlling options.traceBranches arm.source block = some (branch, taken)) :
    ∃ p, d.steers.lookup branch = some p ∧
      ∀ a, Produced f d arm.value a → d.graph.hasEdge a (p.side taken) := by
  have hop : d.operator? id = some n := by rw [← h.operator, ← f.graph_lowerWith, hj]
  exact h.wired.hasEdge_controlled hjoin hop ((Function.kind_merge_iff hf hjoin hj).mp hk) harm hway

end Merge

end Draft

end Dataflow
