import Dataflow.Proofs.Lowering.Search
import Dataflow.Proofs.Lowering.Steps
import Dataflow.Proofs.Text.Binding

/-!
# What each stage adds

From the stage that gives nodes to the one that wires memory, lowering keeps `Draft.Lawful` and only
adds to the draft. This module says what is there after each stage: operators after the first, a fed
pair of steers for every branch and select after the second (`Draft.Steered`), the operands of every
operator after the fourth, and those of every phi after the fifth (`Draft.Wired`).
-/

namespace Dataflow

variable {f : Function} {forest : LoopForest} {options : LowerOptions} {d e : Draft}
  {id : InstId} {i : Instruction} {v : Operand} {target a b : NodeId}

/-- A function that was read is whole. -/
theorem Function.Bound.whole (hf : f.Bound) : f.Whole where
  mem_live {id i} hi := by
    rw [hf.live_eq, List.mem_range]
    by_contra hle
    simp [instruction?, Nat.le_of_not_lt hle] at hi
  instruction := hf.placed.instruction
  resolved := hf.resolved

namespace Draft

/-! ## Nodes -/

/-- Giving an instruction its role. -/
theorem Sound.addRole (h : Sound f d) (hi : f.instruction? id = some i) :
    Sound f (d.addRole f (id, i)) ∧ d ≤ d.addRole f (id, i) ∧
      (d.addRole f (id, i)).steers = d.steers ∧
      (∀ a b, (d.addRole f (id, i)).graph.hasEdge a b = d.graph.hasEdge a b) ∧
      (i.isSolid = true → ∃ n, (d.addRole f (id, i)).operator? id = some n) := by
  simp only [Draft.addRole]
  cases hrole : i.role? with
  | none => exact ⟨h, Le.refl d, rfl, fun _ _ => rfl, by simp [Instruction.isSolid, hrole]⟩
  | some role =>
      obtain ⟨n, hn⟩ := nodeFor_result (d := d) hi (Instruction.hasNode_iff_role.mpr ⟨role, hrole⟩)
      obtain ⟨hs, hle, hfind⟩ := h.nodeFor (.result id)
      obtain ⟨hedge, _⟩ := h.nodeFor_frame (.result id)
      cases hnode : d.nodeFor f (.result id) with
      | mk g found =>
          simp only [hnode] at hn hs hle hfind hedge
          have hsteers : g.steers = d.steers := congrArg (fun r => r.1.steers) hnode.symm
          subst hn
          have hsolid : i.isSolid = decide (role.kind ≠ .unknown) := by
            simp [Instruction.isSolid, hrole]
          -- a role without an operator leaves the node the kind it has
          obtain ⟨hms, hmle⟩ := hs.modifyNode hfind
            (fun m => { m with
              kind := if role.kind = .unknown then m.kind else role.kind
              label := role.label
              symbol := role.symbol })
            (fun m => rfl)
            (fun m hm => by
              simp only
              split <;> assumption)
            (fun hleaf => by simp [Operand.isLeaf] at hleaf)
            (fun x m hx hm hkind => by
              cases hx
              simp only at hkind
              split at hkind
              · exact hs.operator (operator?_eq_some.mpr ⟨hfind, m, hm, hkind⟩)
              · exact Or.inl ⟨i, hi, by simpa [hsolid]⟩)
          refine ⟨hms, hle.trans hmle, hsteers, hedge, fun hrole' => ⟨n, ?_⟩⟩
          obtain ⟨m, hm, _⟩ := hs.full.owner hfind
          rw [hsolid, decide_eq_true_eq] at hrole'
          refine operator?_eq_some.mpr ⟨hfind, _, by
            simp only [Graph.node?_modifyNode, if_true, hm, Option.map_some]
            rfl, ?_⟩
          simp [hrole']

/-- After the first stage every instruction whose role says so has an operator. -/
theorem nodes_lawful (hf : f.Whole) :
    Lawful f forest options (Draft.enter f forest options {} .nodes) ∧
      (Draft.enter f forest options {} .nodes).steers = [] := by
  have hrun : Draft.enter f forest options {} .nodes = f.steps.foldl (Draft.addRole f)
      ((({} : Draft)).report (.stage f.name Stage.nodes.name)) := rfl
  rw [hrun]
  obtain ⟨hs, ⟨_, hsteers, hedge⟩, hall⟩ := foldl_grows
    (R := fun d e : Draft => d ≤ e ∧ e.steers = d.steers ∧
      ∀ a b, e.graph.hasEdge a b = d.graph.hasEdge a b)
    (fun d => ⟨Le.refl d, rfl, fun _ _ => rfl⟩)
    (fun hst htu => ⟨hst.1.trans htu.1, htu.2.1.trans hst.2.1,
      fun a b => (htu.2.2 a b).trans (hst.2.2 a b)⟩)
    (P := Sound f) (g := Draft.addRole f) (l := f.steps)
    (Q := fun step e => step.2.isSolid = true → ∃ n, e.operator? step.1 = some n)
    (s := (({} : Draft)).report (.stage f.name Stage.nodes.name))
    (fun e step hstep _ hs => by
      obtain ⟨hs', hle, hsteers, hedge, hop⟩ := hs.addRole (Function.mem_steps.mp hstep).2
      exact ⟨hs', ⟨hle, hsteers, hedge⟩, hop⟩)
    (fun step e g hq hle _ hsolid => by
      obtain ⟨n, hn⟩ := hq hsolid
      exact ⟨n, hle.1.operator hn⟩)
    (sound_empty.congr rfl rfl rfl)
  -- no pair and no edge has been made yet
  refine ⟨⟨hs, fun ⟨i, hi, hsolid⟩ => ?_, fun hp => ?_, fun hab => ?_⟩, hsteers⟩
  · exact hall _ (Function.mem_steps.mpr ⟨hf.mem_live hi, hi⟩) hsolid
  · rw [hsteers] at hp
    cases hp
  · rw [hedge] at hab
    cases hab

/-! ## Steers -/

/-- The invariant while steers are made: every pair that was made is fed. -/
structure Steady (f : Function) (forest : LoopForest) (options : LowerOptions) (d : Draft) :
    Prop where
  lawful : Lawful f forest options d
  fed : ∀ {id p}, d.steers.lookup id = some p → d.PairFed f id p

/-- A lawful draft that a steady one settles to is steady. -/
theorem Steady.of_settles (h : Steady f forest options d) (he : Lawful f forest options e)
    (hs : Settles f d e) : Steady f forest options e := by
  refine ⟨he, fun hp => ?_⟩
  rcases hs.pair hp with hold | hnew
  · exact (h.fed hold).mono hold hs.le
  · exact hnew

/-- Wiring a value where that is admitted. -/
theorem Steady.wire (hf : f.Whole) (h : Steady f forest options d) {opens : InstId → Prop}
    (hadmits : Admits f forest options opens v target d) (hv : f.Binds v) :
    Steady f forest options (d.wire f v target) ∧ Settles f d (d.wire f v target) ∧
      (d.wire f v target).Fed f opens target v := by
  have hlive : ∀ id i, f.instruction? id = some i → id ∈ f.live := fun _ _ hi => hf.mem_live hi
  obtain ⟨hs, hfed⟩ := wire_feeds hlive hf.resolved opens v target d hadmits hv
    (Nat.lt_succ_of_le Function.unsteered_le)
  exact ⟨h.of_settles (wireBy_lawful hlive _ opens v target d hadmits).1 hs, hs, hfed⟩

/-- An edge with a reason keeps a draft steady. -/
theorem Steady.link (h : Steady f forest options d) (ha : ∃ n, d.graph.node? a = some n)
    (hb : ∃ n, d.graph.node? b = some n) (hreason : Reason f forest options d a b) :
    Steady f forest options (d.link a b) ∧ Settles f d (d.link a b) ∧
      (d.link a b).graph.hasEdge a b := by
  obtain ⟨hl, hle⟩ := h.lawful.link ha hb hreason
  have hs : Settles f d (d.link a b) := .of_le hle rfl
  exact ⟨h.of_settles hl hs, hs, (hasEdge_link ha hb).mpr (Or.inr ⟨rfl, rfl⟩)⟩

/-- Feeding an operator, if there is one, from a steer or another node. -/
theorem Steady.elim_link (h : Steady f forest options d) {b : Option NodeId}
    (ha : ∃ n, d.graph.node? a = some n) (hb : ∀ n ∈ b, ∃ id, d.operator? id = some n)
    (hreason : ∀ n ∈ b, Reason f forest options d a n) :
    Steady f forest options (b.elim d (d.link a)) ∧ Settles f d (b.elim d (d.link a)) ∧
      ∀ n ∈ b, (b.elim d (d.link a)).graph.hasEdge a n := by
  cases b with
  | none => exact ⟨h, .refl d, by simp⟩
  | some n =>
      obtain ⟨id, hid⟩ := hb n rfl
      obtain ⟨hs, hle, hedge⟩ := h.link ha (h.lawful.operator_node hid) (hreason n rfl)
      exact ⟨hs, hle, fun m hm => Option.some.inj hm ▸ hedge⟩

/-- The stream feeds both steers of a pair. -/
def StreamFed (p : SteerPair) (d : Draft) : Prop :=
  ∃ n, d.stream = some n ∧ ∀ taken, d.graph.hasEdge n (p.side taken)

/-- Steers that the stream feeds stay fed by it. -/
theorem StreamFed.mono {p : SteerPair} (h : d.StreamFed p) (hle : d ≤ e) : e.StreamFed p := by
  obtain ⟨n, hn, hedge⟩ := h
  exact ⟨n, hle.stream hn, fun taken => hle.edge (hedge taken)⟩

/-- Linking the stream keeps a draft steady. -/
theorem Steady.linkStream (h : Steady f forest options d) (hstream : options.entryStream = true)
    {cond : Operand} {onTrue onFalse : BlockId} {p : SteerPair}
    (hp : d.steers.lookup id = some p)
    (hi : f.instruction? id = some (.branch cond onTrue onFalse)) :
    Steady f forest options (d.linkStream p) ∧ Settles f d (d.linkStream p) ∧
      (d.linkStream p).StreamFed p := by
  obtain ⟨hs, hle, hnode, hedge, _, hsteers⟩ := h.lawful.sound.streamNode
  have hl := h.lawful.of_le hs hle hsteers fun a b hab => by rwa [hedge] at hab
  have hs₀ : Settles f d d.streamNode.1 := .of_le hle hsteers
  have hfeed : ∀ e, d.streamNode.1 ≤ e → Steady f forest options e → ∀ taken,
      Steady f forest options (e.link d.streamNode.2 (p.side taken)) ∧
        Settles f e (e.link d.streamNode.2 (p.side taken)) ∧
        (e.link d.streamNode.2 (p.side taken)).graph.hasEdge d.streamNode.2 (p.side taken) := by
    intro e he hsteady taken
    have hnode' := he.stream hnode
    exact hsteady.link ⟨_, hsteady.lawful.sound.stream hnode'⟩
      (hsteady.lawful.side_node (he.steers (hle.steers hp)) taken)
      (.stream hstream hnode' (he.steers (hle.steers hp)) hi)
  obtain ⟨h₁, hs₁, htrue⟩ := hfeed _ (Le.refl _) (h.of_settles hl hs₀) true
  obtain ⟨h₂, hs₂, hfalse⟩ := hfeed _ hs₁.le h₁ false
  refine ⟨h₂, hs₀.trans (hs₁.trans hs₂), _, (hs₁.trans hs₂).le.stream hnode, fun taken => ?_⟩
  cases taken with
  | true => exact hs₂.le.edge htrue
  | false => exact hfalse

/-- A branch has a pair of steers after it was asked for one. -/
theorem Steady.branchSteers (hf : f.Whole) (h : Steady f forest options d) {cond : Operand}
    {onTrue onFalse : BlockId} (hi : f.instruction? id = some (.branch cond onTrue onFalse)) :
    ∃ e p, d.branchSteers f options id = (e, some p) ∧ Steady f forest options e ∧
      Settles f d e ∧ e.steers.lookup id = some p ∧
      (options.entryStream = true → d.steers.lookup id = none → e.StreamFed p) := by
  have hlive : ∀ id i, f.instruction? id = some i → id ∈ f.live := fun _ _ hi => hf.mem_live hi
  unfold Draft.branchSteers
  cases hp : d.steers.lookup id with
  | some p => exact ⟨d, p, rfl, h, .refl d, hp, by simp⟩
  | none =>
      have hlawful : ∀ opens, WireLawful f forest options opens _ :=
        wireBy_lawful hlive f.feedDepth
      obtain ⟨hl, _, hpair⟩ :=
        openSteers_lawful hlawful h.lawful (hf.mem_live hi) hi rfl hp rfl rfl
      have hs := openSteers_settles hf.resolved hlawful (wire_feeds hlive hf.resolved) h.lawful
        (hf.mem_live hi) hi rfl hp (hf.lt_length (hf.mem_live hi))
        (Nat.le_succ_of_le Function.unsteered_le)
      simp only [hi]
      split
      · rename_i hstream
        obtain ⟨hs', hset, hfed⟩ := (h.of_settles hl hs).linkStream hstream hpair hi
        exact ⟨_, _, rfl, hs', hs.trans hset, hset.le.steers hpair, fun _ _ => hfed⟩
      · rename_i hstream
        exact ⟨_, _, rfl, h.of_settles hl hs, hs, hpair, fun hon => absurd hon hstream⟩

/-- The stream feeds the steers of every branch, if that is asked for. -/
def Streamed (f : Function) (options : LowerOptions) (d : Draft) : Prop :=
  options.entryStream = true → ∀ id cond onTrue onFalse p,
    f.instruction? id = some (.branch cond onTrue onFalse) → d.steers.lookup id = some p →
    d.StreamFed p

/-- Pairs for selects are not fed by the stream. -/
theorem Streamed.of_builds (h : Streamed f options d) (hle : d ≤ e)
    (hb : Builds f options (fun _ => True) f.Chooses d e) : Streamed f options e := by
  intro hstream id cond onTrue onFalse p hi hp
  rcases hb.pair hp with hold | ⟨i, hi', hsel⟩
  · exact (h hstream id cond onTrue onFalse p hi hold).mono hle
  · rw [hi] at hi'
    cases hi'
    cases hsel

/-- The stream feeds the steers of each branch as they are made. -/
theorem Steady.branchSteers_streamed (hf : f.Whole) (h : Steady f forest options d)
    (hstreamed : Streamed f options d) {cond : Operand} {onTrue onFalse : BlockId}
    (hi : f.instruction? id = some (.branch cond onTrue onFalse)) :
    Streamed f options (d.branchSteers f options id).1 := by
  obtain ⟨e, p, heq, _, hset, hp, hfed⟩ := h.branchSteers hf hi
  have hbuilds : Builds f options (fun _ => True) (fun x => x = id ∨ f.Chooses x) d
      (d.branchSteers f options id).1 :=
    (branchSteers_builds (P := fun x => x = id ∨ f.Chooses x) (fun _ hx => Or.inr hx) (Or.inl rfl)
      h.lawful.sound.full).1
  rw [heq] at hbuilds ⊢
  intro hstream x cond' onTrue' onFalse' q hx hq
  cases hold : d.steers.lookup x with
  | some q' =>
      rw [hset.le.steers hold] at hq
      cases hq
      exact (hstreamed hstream x cond' onTrue' onFalse' q hx hold).mono hset.le
  | none =>
      -- the only new pair of a branch is the one that was asked for
      rcases hbuilds.pair hq with hq' | rfl | ⟨i, hi', hsel⟩
      · rw [hold] at hq'
        cases hq'
      · rw [hp] at hq
        cases hq
        exact hfed hstream hold
      · rw [hx] at hi'
        cases hi'
        cases hsel

/-- If an operator of a block is in time for the steers of `id`, then a steer feeds an operator of
the block with none in time before it. -/
def TargetFed (f : Function) (id : InstId) (steer : NodeId) (block : BlockId) (d : Draft) : Prop :=
  (∃ y ∈ f.pastPhis block, f.InTime d.steers id y) →
    ∃ front x rest n, f.pastPhis block = front ++ x :: rest ∧ d.operator? x = some n ∧
      d.graph.hasEdge steer n ∧ ∀ y ∈ front, ¬ f.InTime d.steers id y

/-- A target that is fed stays fed. -/
theorem TargetFed.mono {steer : NodeId} {block : BlockId} (h : d.TargetFed f id steer block)
    {p : SteerPair} (hp : d.steers.lookup id = some p) (hle : d ≤ e) :
    e.TargetFed f id steer block := by
  intro hex
  obtain ⟨y, hy, htime⟩ := hex
  obtain ⟨front, x, rest, n, hbody, hop, hedge, hfront⟩ := h ⟨y, hy, (hle.inTime hp).mp htime⟩
  exact ⟨front, x, rest, n, hbody, hle.operator hop, hle.edge hedge,
    fun z hz => mt (hle.inTime hp).mp (hfront z hz)⟩

/-- What is in time has its operator when the first operator of a block is looked for. -/
theorem Lawful.targetFed (h : Lawful f forest options d) {p : SteerPair}
    (hp : d.steers.lookup id = some p) {steer : NodeId} {block : BlockId} (hle : d ≤ e)
    (hedge : ∀ n ∈ d.firstOperator f block, e.graph.hasEdge steer n) :
    e.TargetFed f id steer block := by
  intro hex
  obtain ⟨y, hy, htime⟩ := hex
  have hready : ∀ x, f.InTime e.steers id x → ∃ n, d.operator? x = some n :=
    fun x hx => h.operator_of_inTime hp ((hle.inTime hp).mp hx)
  obtain ⟨m, hm⟩ := hready y htime
  cases hfirst : d.firstOperator f block with
  | none =>
      rw [List.findSome?_eq_none_iff.mp hfirst y hy] at hm
      cases hm
  | some n =>
      obtain ⟨front, x, rest, hbody, hop, hfront⟩ := List.findSome?_eq_some_iff.mp hfirst
      refine ⟨front, x, rest, n, hbody, hle.operator hop, hedge n hfirst, fun z hz hztime => ?_⟩
      obtain ⟨k, hk⟩ := hready z hztime
      rw [hfront z hz] at hk
      cases hk

/-- Both steers of a branch feed an operator of the block on their side. -/
def Entered (f : Function) (id : InstId) (p : SteerPair) (d : Draft) : Prop :=
  ∀ cond onTrue onFalse taken, f.instruction? id = some (.branch cond onTrue onFalse) →
    d.TargetFed f id (p.side taken) (if taken then onTrue else onFalse)

/-- A branch whose successors are fed stays so. -/
theorem Entered.mono {p : SteerPair} (h : d.Entered f id p) (hp : d.steers.lookup id = some p)
    (hle : d ≤ e) : e.Entered f id p :=
  fun cond onTrue onFalse taken hi => (h cond onTrue onFalse taken hi).mono hp hle

/-- A branch has its steers, and they feed the first operator on each side. -/
theorem Steady.lowerBranch (hf : f.Whole) (h : Steady f forest options d)
    (hstreamed : Streamed f options d) (hid : (id, i) ∈ f.steps) :
    Steady f forest options (d.lowerBranch f options (id, i)) ∧
      Settles f d (d.lowerBranch f options (id, i)) ∧
      Streamed f options (d.lowerBranch f options (id, i)) ∧
      (i.condition? ≠ none → i.isSelect = false →
        ∃ p, (d.lowerBranch f options (id, i)).steers.lookup id = some p ∧
          (d.lowerBranch f options (id, i)).Entered f id p) := by
  obtain ⟨_, hi⟩ := Function.mem_steps.mp hid
  cases i with
  | branch cond onTrue onFalse =>
      have hstreamed' := h.branchSteers_streamed hf hstreamed hi
      obtain ⟨e, p, heq, hs, hset, hp, _⟩ := h.branchSteers hf hi
      rw [heq] at hstreamed'
      simp only [Draft.lowerBranch, heq]
      -- a steer feeds the first operator of its side, which is no phi
      have hfeed : ∀ g, e ≤ g → Steady f forest options g → Streamed f options g → ∀ taken,
          let n := e.firstOperator f (if taken then onTrue else onFalse)
          Steady f forest options (n.elim g (g.link (p.side taken))) ∧
            Settles f g (n.elim g (g.link (p.side taken))) ∧
            Streamed f options (n.elim g (g.link (p.side taken))) ∧
            ∀ m ∈ n, (n.elim g (g.link (p.side taken))).graph.hasEdge (p.side taken) m := by
        intro g hg hsteady hstreamed taken
        obtain ⟨hsteady', hset', hedge⟩ := hsteady.elim_link
          (b := e.firstOperator f (if taken then onTrue else onFalse))
          (hsteady.lawful.side_node (hg.steers hp) taken)
          (fun n hn => by
            obtain ⟨x, _, _, hop⟩ := firstOperator_eq_some hn
            exact ⟨x, hg.operator hop⟩)
          (fun n hn => by
            obtain ⟨x, hbody, hphi, hop⟩ := firstOperator_eq_some hn
            obtain ⟨j, hj⟩ := hf.instruction hbody
            exact .entry (hg.steers hp) hi hbody hj (by simpa [hj] using hphi) (hg.operator hop))
        exact ⟨hsteady', hset', hstreamed.of_builds hset'.le
          (elim_link_builds fun _ _ => .target trivial), hedge⟩
      obtain ⟨h₁, hs₁, hstreamed₁, htrue⟩ := hfeed e (Le.refl e) hs hstreamed' true
      obtain ⟨h₂, hs₂, hstreamed₂, hfalse⟩ := hfeed _ hs₁.le h₁ hstreamed₁ false
      have hle := hs₁.le.trans hs₂.le
      refine ⟨h₂, hset.trans (hs₁.trans hs₂), hstreamed₂, fun _ _ => ⟨p, hle.steers hp, ?_⟩⟩
      intro cond' onTrue' onFalse' taken hi'
      rw [hi] at hi'
      cases hi'
      refine hs.lawful.targetFed hp hle fun n hn => ?_
      cases taken with
      | true => exact hs₂.le.edge (htrue n hn)
      | false => exact hfalse n hn
  | _ => exact ⟨h, .refl d, hstreamed, by simp [Instruction.condition?, Instruction.isSelect]⟩

/-- Lowering a select keeps a draft steady, and the select has its steers then. -/
theorem Steady.lowerSelect (hf : f.Whole) (h : Steady f forest options d)
    (hid : (id, i) ∈ f.steps) :
    Steady f forest options (d.lowerSelect f (id, i)) ∧ Settles f d (d.lowerSelect f (id, i)) ∧
      (i.isSelect = true → ∃ p, (d.lowerSelect f (id, i)).steers.lookup id = some p) := by
  obtain ⟨hmem, hi⟩ := Function.mem_steps.mp hid
  have hlive : ∀ id i, f.instruction? id = some i → id ∈ f.live := fun _ _ hi => hf.mem_live hi
  cases i with
  | select cond ty onTrue onFalse =>
      have hlawful : ∀ opens, WireLawful f forest options opens _ :=
        wireBy_lawful hlive f.feedDepth
      obtain ⟨hl, _, p, _, hp⟩ := selectSteers_lawful hlawful h.lawful hmem hi rfl
      have hs := selectSteers_settles hf.resolved hlawful (wire_feeds hlive hf.resolved) h.lawful
        hmem hi rfl (hf.lt_length hmem) (Nat.le_succ_of_le Function.unsteered_le)
      exact ⟨h.of_settles hl hs, hs, fun _ => ⟨p, hp⟩⟩
  | _ => exact ⟨h, .refl d, by simp [Instruction.isSelect]⟩

/-- The invariant once every branch and select has its steers. -/
structure Steered (f : Function) (forest : LoopForest) (options : LowerOptions) (d : Draft) : Prop
    extends Steady f forest options d where
  paired : ∀ {id i cond}, f.instruction? id = some i → i.condition? = some cond →
    ∃ p, d.steers.lookup id = some p
  entered : ∀ {id p}, d.steers.lookup id = some p → d.Entered f id p
  streamed : Streamed f options d

/-- From then on an instruction has an operator just if it is to have one. -/
theorem Steered.operator (h : Steered f forest options d) (hid : f.HasOperator id) :
    ∃ n, d.operator? id = some n := by
  rcases hid with hsolid | ⟨⟨i, hi, hnode⟩, x, j, _, hj, hcond⟩
  · exact h.lawful.classified hsolid
  · obtain ⟨p, hp⟩ := h.paired hj hcond
    exact h.lawful.promoted hp hj hcond hi hnode

/-- An operator of a later draft was one already. -/
theorem Steered.operator_back (h : Steered f forest options d) (he : Lawful f forest options e)
    (hle : d ≤ e) (hop : e.operator? id = some target) : d.operator? id = some target := by
  obtain ⟨m, hm⟩ := h.operator (he.sound.operator hop)
  have heq := hle.operator hm
  rw [hop] at heq
  rwa [Option.some.inj heq]

/-- A steady draft that a steered one grows to is steered. -/
theorem Steered.of_settles (h : Steered f forest options d) (he : Steady f forest options e)
    (hle : d ≤ e) : Steered f forest options e where
  toSteady := he
  paired hi hcond := by
    obtain ⟨p, hp⟩ := h.paired hi hcond
    exact ⟨p, hle.steers hp⟩
  entered {id p} hp cond onTrue onFalse taken hi := by
    obtain ⟨q, hq⟩ := h.paired hi rfl
    rw [hle.steers hq] at hp
    cases hp
    exact (h.entered hq).mono hq hle cond onTrue onFalse taken hi
  streamed hstream id cond onTrue onFalse q hi hq := by
    obtain ⟨p, hp⟩ := h.paired hi rfl
    rw [hle.steers hp] at hq
    cases hq
    exact (h.streamed hstream id cond onTrue onFalse _ hi hp).mono hle

/-- After the second stage every branch and select has its steers. -/
theorem steers_steered (hf : f.Whole) (h : Lawful f forest options d) (hnone : d.steers = []) :
    Steered f forest options (d.enter f forest options .steers) := by
  have hrun : d.enter f forest options .steers = f.steps.foldl (Draft.lowerSelect f)
      (f.steps.foldl (Draft.lowerBranch f options)
        (d.report (.stage f.name Stage.steers.name))) := rfl
  rw [hrun]
  have hstart : Steady f forest options (d.report (.stage f.name Stage.steers.name)) ∧
      Streamed f options (d.report (.stage f.name Stage.steers.name)) := by
    refine ⟨⟨(h.report _).1, fun hp => ?_⟩, fun _ id cond onTrue onFalse p _ hp => ?_⟩
    · rw [Draft.report, hnone] at hp
      cases hp
    · rw [Draft.report, hnone] at hp
      cases hp
  obtain ⟨h₁, _, hbranch⟩ := foldl_grows (R := Settles f) Settles.refl Settles.trans
    (P := fun e => Steady f forest options e ∧ Streamed f options e)
    (g := Draft.lowerBranch f options) (l := f.steps)
    (Q := fun step e => step.2.condition? ≠ none → step.2.isSelect = false →
      ∃ p, e.steers.lookup step.1 = some p ∧ e.Entered f step.1 p)
    (fun e step hstep _ he => by
      obtain ⟨hs, hset, hstreamed, hp⟩ := he.1.lowerBranch hf he.2 hstep
      exact ⟨⟨hs, hstreamed⟩, hset, hp⟩)
    (fun step e g hq hle _ hcond hsel => by
      obtain ⟨p, hp, hentered⟩ := hq hcond hsel
      exact ⟨p, hle.le.steers hp, hentered.mono hp hle.le⟩) hstart
  obtain ⟨h₂, hs₂, hselect⟩ := foldl_grows (R := Settles f) Settles.refl Settles.trans
    (P := fun e => Steady f forest options e ∧ Streamed f options e)
    (g := Draft.lowerSelect f) (l := f.steps)
    (Q := fun step e => step.2.isSelect = true → ∃ p, e.steers.lookup step.1 = some p)
    (fun e step hstep _ he => by
      obtain ⟨hs, hset, hp⟩ := he.1.lowerSelect hf hstep
      exact ⟨⟨hs, he.2.of_builds hset.le
        (lowerSelect_builds he.1.lawful.sound.full (fun _ hx => hx) step)⟩, hset, hp⟩)
    (fun step e g hq hle _ hsel => by
      obtain ⟨p, hp⟩ := hq hsel
      exact ⟨p, hle.le.steers hp⟩) h₁
  have hstep : ∀ {id i}, f.instruction? id = some i → (id, i) ∈ f.steps :=
    fun hi => Function.mem_steps.mpr ⟨hf.mem_live hi, hi⟩
  refine ⟨h₂.1, fun {id i cond} hi hcond => ?_, fun {id q} hq cond onTrue onFalse taken hi => ?_,
    h₂.2⟩
  · -- a condition stands in a select or in a branch
    cases hsel : i.isSelect with
    | true => exact hselect _ (hstep hi) hsel
    | false =>
        obtain ⟨p, hp, _⟩ := hbranch _ (hstep hi) (by simp [hcond]) hsel
        exact ⟨p, hs₂.le.steers hp⟩
  · obtain ⟨p, hp, hentered⟩ := hbranch _ (hstep hi) (by simp [Instruction.condition?]) rfl
    rw [hs₂.le.steers hp] at hq
    cases hq
    exact hentered.mono hp hs₂.le cond onTrue onFalse taken hi

/-! ## Operands -/

/-- From now on only what is never to have an operator is open. -/
theorem Steered.admits (h : Steered f forest options d) (hnode : ∃ n, d.graph.node? target = some n)
    (hreason : ∀ e a, d ≤ e → Produced f e v a → Reason f forest options e a target) :
    Admits f forest options (fun x => ¬ f.HasOperator x) v target d where
  lawful := h.lawful
  covers x hx hhas := by
    obtain ⟨n, hn⟩ := h.operator hhas
    rw [hx] at hn
    cases hn
  node := hnode
  reason := hreason

/-- A value may be wired into an operator that reads it. -/
theorem Steered.admits_operand (h : Steered f forest options d) (hi : f.instruction? id = some i)
    (hphi : i.isPhi = false) (hv : v ∈ i.operands) (hop : d.operator? id = some target) :
    Admits f forest options (fun x => ¬ f.HasOperator x) v target d :=
  h.admits (h.lawful.operator_node hop) fun _ _ he ha => .operand hi hphi hv (he.operator hop) ha

/-- Making the node of a value. -/
theorem Steered.ensure (h : Steered f forest options d) (v : Operand) :
    Steered f forest options (d.ensure f v) ∧ d ≤ d.ensure f v := by
  obtain ⟨hl, hle⟩ := h.lawful.nodeFor v
  exact ⟨h.of_settles (h.toSteady.of_settles hl (.of_le hle rfl)) hle, hle⟩

/-- Wiring the leaves among the operands of an instruction. -/
theorem Steered.wireLeaves (h : Steered f forest options d) (hi : f.instruction? id = some i)
    (hphi : i.isPhi = false) (hop : d.operator? id = some target)
    (hfind : ∀ v ∈ i.operands, v.isLeaf = true → ∃ n, d.graph.find? v = some n) :
    Steered f forest options (d.wireLeaves (i.operands, target)) ∧
      d ≤ d.wireLeaves (i.operands, target) ∧
      ∀ v ∈ i.operands, v.isLeaf = true →
        (d.wireLeaves (i.operands, target)).Fed f (fun x => ¬ f.HasOperator x) target v := by
  obtain ⟨hs, hle, hall⟩ := foldl_grows (R := (· ≤ ·)) Le.refl Le.trans
    (P := Steered f forest options)
    (g := fun (e : Draft) v => (e.connect (e.graph.find? v) (some target)).1)
    (l := i.operands.filter (·.isLeaf))
    (Q := fun v e => e.Fed f (fun x => ¬ f.HasOperator x) target v)
    (fun e v hv hle hs => by
      obtain ⟨hmem, hleaf⟩ := List.mem_filter.mp hv
      obtain ⟨n, hn⟩ := hfind v hmem hleaf
      have hn' := hle.owner hn
      obtain ⟨m, hm, _⟩ := hs.lawful.sound.full.owner hn'
      have hadmits := hs.admits_operand hi hphi hmem (hle.operator hop)
      obtain ⟨hs', hset, hedge⟩ := hs.toSteady.link ⟨m, hm⟩ hadmits.node
        (hadmits.reason _ _ (Le.refl _) (.leaf hleaf hn'))
      rw [hn']
      refine ⟨hs.of_settles hs' hset.le, hset.le, [], by simp, ?_⟩
      exact (reached_of_isLeaf hleaf).mpr ⟨n, hset.le.owner hn', hedge⟩)
    (fun v e g hfed hle _ => hfed.mono hle fun _ hx => hx) h
  exact ⟨hs, hle, fun v hv hleaf => hall v (List.mem_filter.mpr ⟨hv, hleaf⟩)⟩

/-- Wiring the results among the operands of an instruction. -/
theorem Steered.wireResults (hf : f.Whole) (h : Steered f forest options d)
    (hi : f.instruction? id = some i) (hphi : i.isPhi = false)
    (hop : d.operator? id = some target) :
    Steered f forest options (d.wireResults f (i.operands, target)) ∧
      d ≤ d.wireResults f (i.operands, target) ∧
      ∀ v ∈ i.operands, v.result?.isSome = true →
        (d.wireResults f (i.operands, target)).Fed f (fun x => ¬ f.HasOperator x) target v := by
  obtain ⟨hs, hle, hall⟩ := foldl_grows (R := (· ≤ ·)) Le.refl Le.trans
    (P := Steered f forest options) (g := fun (e : Draft) v => e.wire f v target)
    (l := i.operands.filter (·.result?.isSome))
    (Q := fun v e => e.Fed f (fun x => ¬ f.HasOperator x) target v)
    (fun e v hv hle hs => by
      have hmem := (List.mem_filter.mp hv).1
      obtain ⟨hs', hset, hfed⟩ := hs.toSteady.wire hf
        (hs.admits_operand hi hphi hmem (hle.operator hop)) (hf.resolved.binds hi hmem)
      exact ⟨hs.of_settles hs' hset.le, hset.le, hfed⟩)
    (fun v e g hfed hle _ => hfed.mono hle fun _ hx => hx) h
  exact ⟨hs, hle, fun v hv hresult => hall v (List.mem_filter.mpr ⟨hv, hresult⟩)⟩

/-- Steps over all operators other than phis, with what each gives for each operand. -/
theorem Steered.foldl_sinks {k : Draft → List Operand × NodeId → Draft} {P : Operand → Prop}
    (h : Steered f forest options d)
    (hstep : ∀ e id i n, d ≤ e → Steered f forest options e → f.instruction? id = some i →
      (id, i) ∈ f.steps → i.isPhi = false → e.operator? id = some n →
      Steered f forest options (k e (i.operands, n)) ∧ e ≤ k e (i.operands, n) ∧
        ∀ v ∈ i.operands, P v → (k e (i.operands, n)).Fed f (fun x => ¬ f.HasOperator x) n v) :
    Steered f forest options ((d.sinks f).foldl k d) ∧ d ≤ (d.sinks f).foldl k d ∧
      ∀ id i n v, (id, i) ∈ f.steps → i.isPhi = false →
        ((d.sinks f).foldl k d).operator? id = some n → v ∈ i.operands → P v →
        ((d.sinks f).foldl k d).Fed f (fun x => ¬ f.HasOperator x) n v := by
  obtain ⟨hs, hle, hall⟩ := foldl_grows (R := (· ≤ ·)) Le.refl Le.trans
    (P := Steered f forest options) (g := k) (l := d.sinks f)
    (Q := fun sink e => ∀ v ∈ sink.1, P v → e.Fed f (fun x => ¬ f.HasOperator x) sink.2 v)
    (fun e sink hsink hle hs => by
      obtain ⟨id, i, hmem, hphi, hop, hoperands⟩ := mem_sinks.mp hsink
      obtain ⟨operands, n⟩ := sink
      cases hoperands
      exact hstep e id i n hle hs (Function.mem_steps.mp hmem).2 hmem hphi (hle.operator hop))
    (fun sink e g hq hle _ v hv hp => by
      have hfed := hq v hv hp
      exact hfed.mono hle fun _ hx => hx) h
  refine ⟨hs, hle, fun id i n v hmem hphi hop hv hp => ?_⟩
  have hold := h.operator_back hs.lawful hle hop
  exact hall (i.operands, n) (mem_sinks.mpr ⟨id, i, hmem, hphi, hold, rfl⟩) v hv hp

/-- A report changes nothing that counts. -/
theorem Steered.report (h : Steered f forest options d) (event : Event) :
    Steered f forest options (d.report event) ∧ d ≤ d.report event := by
  obtain ⟨hl, hle⟩ := h.lawful.report event
  exact ⟨h.of_settles (h.toSteady.of_settles hl (.of_le hle rfl)) hle, hle⟩

/-- After the third stage every leaf feeds the operators that read it. -/
theorem leaves_fed (h : Steered f forest options d) :
    Steered f forest options (d.enter f forest options .leaves) ∧
      ∀ id i n v, (id, i) ∈ f.steps → i.isPhi = false →
        (d.enter f forest options .leaves).operator? id = some n → v ∈ i.operands →
        v.isLeaf = true →
        (d.enter f forest options .leaves).Fed f (fun x => ¬ f.HasOperator x) n v := by
  obtain ⟨h₀, _⟩ := h.report (.stage f.name Stage.leaves.name)
  have hfind := fun v hv hleaf =>
    find?_foldl_ensure (f := f) (v := v) (l := f.leaves) h₀.lawful.sound.full hv hleaf
  obtain ⟨h₁, _⟩ := foldl_keeps (R := (· ≤ ·)) Le.refl Le.trans (P := Steered f forest options)
    (g := Draft.ensure f) (l := f.leaves) (fun e v _ _ hs => hs.ensure v) h₀
  obtain ⟨h₂, _, hfed⟩ := h₁.foldl_sinks (k := Draft.wireLeaves) (P := fun v => v.isLeaf = true)
    fun e id i n hle hs hi hmem hphi hop => hs.wireLeaves hi hphi hop fun v hv hleaf => by
      have hread : v ∈ (f.steps.flatMap (·.2.operands)).filter (·.isLeaf) :=
        List.mem_filter.mpr ⟨List.mem_flatMap.mpr ⟨_, hmem, hv⟩, hleaf⟩
      obtain ⟨m, hm⟩ := hfind v (List.mem_append_right _ hread) hleaf
      exact ⟨m, hle.owner hm⟩
  exact ⟨h₂, hfed⟩

/-- The invariant once the operands of operators other than phis are wired. -/
structure Supplied (f : Function) (forest : LoopForest) (options : LowerOptions) (d : Draft) : Prop
    extends Steered f forest options d where
  operand : ∀ {id i n v}, f.instruction? id = some i → i.isPhi = false →
    d.operator? id = some n → v ∈ i.operands → d.Fed f (fun x => ¬ f.HasOperator x) n v

/-- A steered draft that a supplied one grows to is supplied. -/
theorem Supplied.of_le (h : Supplied f forest options d) (he : Steered f forest options e)
    (hle : d ≤ e) : Supplied f forest options e where
  toSteered := he
  operand hi hphi hop hv :=
    (h.operand hi hphi (h.operator_back he.lawful hle hop) hv).mono hle fun _ hx => hx

/-- After the fourth stage every operand feeds the operators that read it. -/
theorem results_supplied (hf : f.Whole) (h : Steered f forest options d)
    (hleaves : ∀ id i n v, (id, i) ∈ f.steps → i.isPhi = false → d.operator? id = some n →
      v ∈ i.operands → v.isLeaf = true → d.Fed f (fun x => ¬ f.HasOperator x) n v) :
    Supplied f forest options (d.enter f forest options .results) := by
  obtain ⟨h₀, hle₀⟩ := h.report (.stage f.name Stage.results.name)
  obtain ⟨h₁, hle₁, hfed⟩ := h₀.foldl_sinks (k := Draft.wireResults f)
    (P := fun v => v.result?.isSome = true)
    fun e id i n hle hs hi _ hphi hop => hs.wireResults hf hi hphi hop
  refine ⟨h₁, fun {id i n v} hi hphi hop hv => ?_⟩
  have hmem : (id, i) ∈ f.steps := Function.mem_steps.mpr ⟨hf.mem_live hi, hi⟩
  cases v with
  | function => exact ⟨[], by simp, trivial⟩
  | result x => exact hfed id i n _ hmem hphi hop hv rfl
  | param | const | global =>
      have hle := hle₀.trans hle₁
      have hold := h.operator_back h₁.lawful hle hop
      exact (hleaves id i n _ hmem hphi hold hv rfl).mono hle fun _ hx => hx

end Draft

end Dataflow
