import Dataflow.Proofs.Lowering.SteerOrder

/-!
# Why an edge is there

`Reason` lists the reasons that lowering has to put an edge into the graph. Each reason stays one
while the draft grows, so `Draft.Lawful`, which says that every edge has a reason, is kept by every
step that adds an edge for a reason. This module proves it for the search for producers and for the
steers (`feed_lawful`, `Draft.openSteers_lawful`), whatever the search finds and however selects are
made on the way.
-/

namespace Dataflow

/-- The value that a select passes on by one side of its condition. -/
def Instruction.choice? (taken : Bool) : Instruction → Option Operand
  | .select _ _ onTrue onFalse => some (if taken then onTrue else onFalse)
  | _ => none

/-- What a choice takes on a side is an operand. -/
theorem Instruction.mem_operands_of_choice? {i : Instruction} {taken : Bool} {v : Operand}
    (h : i.choice? taken = some v) : v ∈ i.operands := by
  cases i <;> simp_all [choice?, operands]
  cases taken <;> simp_all

/-- A user of a value has it as an operand. -/
theorem Function.mem_users {f : Function} {v : Operand} {user : InstId} (h : user ∈ f.users v) :
    ∃ i, f.instruction? user = some i ∧ v ∈ i.operands := by
  simp only [users, List.mem_filter, Option.any_eq_true] at h
  obtain ⟨_, i, hi, hmem⟩ := h
  exact ⟨i, hi, by simpa using hmem⟩

/-- Instruction `id` is a phi in block `block` with the given arms. -/
def Function.IsJoin (f : Function) (id : InstId) (block : BlockId) (arms : List Arm) : Prop :=
  ∃ s ty, f.slots[id]? = some s ∧ s.instruction = .phi ty arms ∧ s.block = block

/-- A join is a phi. -/
theorem Function.IsJoin.instruction {f : Function} {id : InstId}
    {block : BlockId} {arms : List Arm} (hjoin : f.IsJoin id block arms) :
    ∃ ty, f.instruction? id = some (.phi ty arms) := by
  obtain ⟨s, ty, hs, hi, _⟩ := hjoin
  exact ⟨ty, by simp [Function.instruction?, hs, hi]⟩

/-- A join has one block and one list of arms. -/
theorem Function.IsJoin.unique {f : Function} {id : InstId} {block block' : BlockId}
    {arms arms' : List Arm} (h : f.IsJoin id block arms)
    (h' : f.IsJoin id block' arms') : block = block' ∧ arms = arms' := by
  obtain ⟨s, ty, hs, hi, rfl⟩ := h
  obtain ⟨s', ty', hs', hi', rfl⟩ := h'
  rw [hs, Option.some.injEq] at hs'
  subst hs'
  rw [hi] at hi'
  cases hi'
  exact ⟨rfl, rfl⟩

/-- The reasons for an edge from `a` to `b`. -/
inductive Reason (f : Function) (forest : LoopForest) (options : LowerOptions) (d : Draft) :
    NodeId → NodeId → Prop where
  /-- An operator other than a join takes what produces an operand. -/
  | operand {id i v a b} : f.instruction? id = some i → i.isPhi = false → v ∈ i.operands →
      d.operator? id = some b → Produced f d v a → Reason f forest options d a b
  /-- A steer takes what produces its condition, past what is no operator in time. -/
  | condition {id i cond p taken a} : d.steers.lookup id = some p → f.instruction? id = some i →
      i.condition? = some cond → Supplies f d (fun x => ¬ f.InTime d.steers id x) cond a →
      Reason f forest options d a (SteerPair.side p taken)
  /-- A steer of a select takes what produces the value of its side, past the same. -/
  | choice {id i v p taken a} : d.steers.lookup id = some p → f.instruction? id = some i →
      i.choice? taken = some v → Supplies f d (fun x => ¬ f.InTime d.steers id x) v a →
      Reason f forest options d a (SteerPair.side p taken)
  /-- A steer of a branch takes the stream. -/
  | stream {id cond onTrue onFalse p taken a} : options.entryStream = true → d.stream = some a →
      d.steers.lookup id = some p → f.instruction? id = some (.branch cond onTrue onFalse) →
      Reason f forest options d a (SteerPair.side p taken)
  /-- A steer of a branch feeds an operator of the block on its side. -/
  | entry {id cond onTrue onFalse p taken x i b} : d.steers.lookup id = some p →
      f.instruction? id = some (.branch cond onTrue onFalse) →
      x ∈ f.body (if taken then onTrue else onFalse) → f.instruction? x = some i →
      i.isPhi = false → d.operator? x = some b →
      Reason f forest options d (SteerPair.side p taken) b
  /-- A carry takes what produces its values. -/
  | carried {id block arms l arm a b} : f.IsJoin id block arms → d.operator? id = some b →
      forest.carrying? block arms = some l → arm ∈ arms → Produced f d arm.value a →
      Reason f forest options d a b
  /-- A carry takes what decides on another round. -/
  | decider {id block arms l cond a b} : f.IsJoin id block arms → d.operator? id = some b →
      forest.carrying? block arms = some l → f.loopDecider l = some cond → Produced f d cond a →
      Reason f forest options d a b
  /-- A merge takes a value directly if no branch controls its way. -/
  | merged {id block arms arm a b} : f.IsJoin id block arms → d.operator? id = some b →
      forest.carrying? block arms = none → arm ∈ arms →
      f.controlling options.traceBranches arm.source block = none → Produced f d arm.value a →
      Reason f forest options d a b
  /-- A merge takes the steer that controls the way of a value. -/
  | steered {id block arms arm branch taken p b} : f.IsJoin id block arms →
      d.operator? id = some b → forest.carrying? block arms = none → arm ∈ arms →
      f.controlling options.traceBranches arm.source block = some (branch, taken) →
      d.steers.lookup branch = some p → Reason f forest options d (SteerPair.side p taken) b
  /-- That steer takes what produces the value. -/
  | controlled {id block arms arm branch taken p a} : f.IsJoin id block arms →
      forest.carrying? block arms = none → arm ∈ arms →
      f.controlling options.traceBranches arm.source block = some (branch, taken) →
      d.steers.lookup branch = some p → Produced f d arm.value a →
      Reason f forest options d a (SteerPair.side p taken)
  /-- A load takes a store, if that is asked for. -/
  | memory {x y a b} : options.memoryDependencies = true → d.operator? x = some a →
      d.operator? y = some b → Reason f forest options d a b

/-- A reason stays one while the draft grows. -/
theorem Reason.mono {f : Function} {forest : LoopForest} {options : LowerOptions} {d e : Draft}
    {a b : NodeId} (h : Reason f forest options d a b) (hle : d ≤ e) :
    Reason f forest options e a b := by
  cases h with
  | operand hi hphi hv hb ha => exact .operand hi hphi hv (hle.operator hb) (hle.supplies ha)
  | condition hp hi hc ha => exact .condition (hle.steers hp) hi hc (hle.supplies_inTime hp ha)
  | choice hp hi hv ha => exact .choice (hle.steers hp) hi hv (hle.supplies_inTime hp ha)
  | stream ho ha hp hi => exact .stream ho (hle.stream ha) (hle.steers hp) hi
  | entry hp hi hx hix hphi hb => exact .entry (hle.steers hp) hi hx hix hphi (hle.operator hb)
  | carried hj hb hl harm ha => exact .carried hj (hle.operator hb) hl harm (hle.supplies ha)
  | decider hj hb hl hc ha => exact .decider hj (hle.operator hb) hl hc (hle.supplies ha)
  | merged hj hb hl harm hc ha => exact .merged hj (hle.operator hb) hl harm hc (hle.supplies ha)
  | steered hj hb hl harm hc hp => exact .steered hj (hle.operator hb) hl harm hc (hle.steers hp)
  | controlled hj hl harm hc hp ha =>
      exact .controlled hj hl harm hc (hle.steers hp) (hle.supplies ha)
  | memory ho ha hb => exact .memory ho (hle.operator ha) (hle.operator hb)

/-- Steps that each keep an invariant and go on along a relation, with what each step gives. -/
theorem foldl_grows {α σ : Type} {R : σ → σ → Prop} (hrefl : ∀ s, R s s)
    (htrans : ∀ {s t u}, R s t → R t u → R s u) {P : σ → Prop} {Q : α → σ → Prop}
    {g : σ → α → σ} {l : List α} {s : σ}
    (hstep : ∀ t x, x ∈ l → R s t → P t → P (g t x) ∧ R t (g t x) ∧ Q x (g t x))
    (hkeep : ∀ x t u, Q x t → R t u → P u → Q x u) (h : P s) :
    P (l.foldl g s) ∧ R s (l.foldl g s) ∧ ∀ x ∈ l, Q x (l.foldl g s) := by
  induction l generalizing s with
  | nil => exact ⟨h, hrefl s, by simp⟩
  | cons x l ih =>
      obtain ⟨hp, hle, hq⟩ := hstep s x (by simp) (hrefl s) h
      obtain ⟨hp', hle', hq'⟩ := ih (s := g s x)
        (fun t y hy ht => hstep t y (by simp [hy]) (htrans hle ht)) hp
      refine ⟨hp', htrans hle hle', fun y hy => ?_⟩
      rcases List.mem_cons.mp hy with rfl | hy
      · exact hkeep _ _ _ hq hle' hp'
      · exact hq' y hy

/-- The same for steps that give nothing else. -/
theorem foldl_keeps {α σ : Type} {R : σ → σ → Prop} (hrefl : ∀ s, R s s)
    (htrans : ∀ {s t u}, R s t → R t u → R s u) {P : σ → Prop} {g : σ → α → σ} {l : List α} {s : σ}
    (hstep : ∀ t x, x ∈ l → R s t → P t → P (g t x) ∧ R t (g t x)) (h : P s) :
    P (l.foldl g s) ∧ R s (l.foldl g s) := by
  obtain ⟨hp, hr, _⟩ := foldl_grows hrefl htrans (Q := fun _ _ => True)
    (fun t x hx hst ht => ⟨(hstep t x hx hst ht).1, (hstep t x hx hst ht).2, trivial⟩)
    (fun _ _ _ _ _ _ => trivial) h
  exact ⟨hp, hr⟩

namespace Draft

variable {f : Function} {forest : LoopForest} {options : LowerOptions} {d e : Draft}
  {a b : NodeId} {id x : InstId} {p : SteerPair}

/-- The invariant from the second stage on. -/
structure Lawful (f : Function) (forest : LoopForest) (options : LowerOptions) (d : Draft) :
    Prop where
  sound : Sound f d
  /-- An instruction whose role says so has an operator. -/
  classified : ∀ {id}, f.IsSolid id → ∃ n, d.operator? id = some n
  /-- The condition of a pair of steers has an operator if it can have a node. -/
  promoted : ∀ {id p j x i}, d.steers.lookup id = some p → f.instruction? id = some j →
    j.condition? = some (.result x) → f.instruction? x = some i → i.hasNode = true →
    ∃ n, d.operator? x = some n
  /-- Every edge has a reason. -/
  justified : ∀ {a b}, d.graph.hasEdge a b → Reason f forest options d a b

/-- A sound draft that grew without a new pair or edge is lawful again. -/
theorem Lawful.of_le (h : Lawful f forest options d) (he : Sound f e) (hle : d ≤ e)
    (hs : e.steers = d.steers) (hedge : ∀ a b, e.graph.hasEdge a b → d.graph.hasEdge a b) :
    Lawful f forest options e := by
  refine ⟨he, fun hsolid => ?_, fun hp hj hc hx hn => ?_,
    fun hab => (h.justified (hedge _ _ hab)).mono hle⟩
  · obtain ⟨n, hn⟩ := h.classified hsolid
    exact ⟨n, hle.operator hn⟩
  · obtain ⟨n, hn⟩ := h.promoted (by rwa [hs] at hp) hj hc hx hn
    exact ⟨n, hle.operator hn⟩

/-- A report keeps a draft lawful. -/
theorem Lawful.report (h : Lawful f forest options d) (event : Event) :
    Lawful f forest options (d.report event) ∧ d ≤ d.report event :=
  have hle : d ≤ d.report event := Le.of_eq rfl rfl rfl
  ⟨h.of_le (h.sound.congr rfl rfl rfl) hle rfl fun _ _ hab => hab, hle⟩

/-- An edge that has a reason may be added. -/
theorem Lawful.connect (h : Lawful f forest options d) (ha : ∃ n, d.graph.node? a = some n)
    (hb : ∃ n, d.graph.node? b = some n) (hreason : Reason f forest options d a b) :
    Lawful f forest options (d.connect (some a) (some b)).1 ∧
      d ≤ (d.connect (some a) (some b)).1 := by
  obtain ⟨hs, hle⟩ := h.sound.connect ha hb
  refine ⟨⟨hs, fun hsolid => ?_, fun hp hj hc hx hn => ?_, fun hab => ?_⟩, hle⟩
  · obtain ⟨n, hn⟩ := h.classified hsolid
    exact ⟨n, hle.operator hn⟩
  · obtain ⟨n, hn⟩ := h.promoted hp hj hc hx hn
    exact ⟨n, hle.operator hn⟩
  · rcases (hasEdge_link ha hb).mp hab with hold | ⟨rfl, rfl⟩
    · exact (h.justified hold).mono hle
    · exact hreason.mono hle

/-- An edge with a reason keeps a draft lawful. -/
theorem Lawful.link (h : Lawful f forest options d) (ha : ∃ n, d.graph.node? a = some n)
    (hb : ∃ n, d.graph.node? b = some n) (hreason : Reason f forest options d a b) :
    Lawful f forest options (d.link a b) ∧ d ≤ d.link a b :=
  h.connect ha hb hreason

/-- The node of a value keeps a draft lawful. -/
theorem Lawful.nodeFor (h : Lawful f forest options d) (v : Operand) :
    Lawful f forest options (d.nodeFor f v).1 ∧ d ≤ (d.nodeFor f v).1 := by
  obtain ⟨hs, hle, _⟩ := h.sound.nodeFor v
  exact ⟨h.of_le hs hle rfl fun a b hab => by rwa [(h.sound.nodeFor_frame v).1] at hab, hle⟩

/-- The node of an operator is there. -/
theorem Lawful.operator_node (_ : Lawful f forest options d) (hb : d.operator? id = some b) :
    ∃ n, d.graph.node? b = some n := by
  obtain ⟨_, n, hn, _⟩ := operator?_eq_some.mp hb
  exact ⟨n, hn⟩

/-- The steers of a pair are nodes. -/
theorem Lawful.side_node (h : Lawful f forest options d) {p : SteerPair}
    (hp : d.steers.lookup id = some p) (taken : Bool) :
    ∃ n, d.graph.node? (p.side taken) = some n := by
  obtain ⟨n, hn, _⟩ := h.sound.side hp taken
  exact ⟨n, hn⟩

/-! ## A way to wire a value -/

/-- An edge to `target` from whatever may be found for `v` has a reason, now and later. `opens`
covers every instruction without an operator. -/
structure Admits (f : Function) (forest : LoopForest) (options : LowerOptions)
    (opens : InstId → Prop) (v : Operand) (target : NodeId) (d : Draft) : Prop where
  lawful : Lawful f forest options d
  covers : ∀ id, d.operator? id = none → opens id
  node : ∃ n, d.graph.node? target = some n
  reason : ∀ e a, d ≤ e → Supplies f e opens v a → Reason f forest options e a target

section Admits

variable {opens : InstId → Prop} {v : Operand} {target : NodeId}

/-- What is admitted stays admitted. -/
theorem Admits.later (h : Admits f forest options opens v target d)
    (he : Lawful f forest options e) (hle : d ≤ e) : Admits f forest options opens v target e where
  lawful := he
  covers x hx := h.covers x (hle.operator?_eq_none hx)
  node := hle.node_exists h.node
  reason g a hg ha := h.reason g a (hle.trans hg) ha

/-- What is open lets its operands through. -/
theorem Admits.operand (h : Admits f forest options opens (.result id) target d)
    {i : Instruction} (hi : f.instruction? id = some i) (hsel : i.isSelect = false)
    (hnone : d.operator? id = none) (hv : v ∈ i.operands) :
    Admits f forest options opens v target d :=
  { h with reason := fun e a he ha => h.reason e a he (.operand hi hsel (h.covers id hnone) hv ha) }

end Admits

/-- A way to wire keeps the invariant where it is admitted. -/
def WireLawful (f : Function) (forest : LoopForest) (options : LowerOptions)
    (opens : InstId → Prop) (wire : Operand → NodeId → Draft → Draft) : Prop :=
  ∀ v target d, Admits f forest options opens v target d →
    Lawful f forest options (wire v target d) ∧ d ≤ wire v target d

/-- What is in time has its operator. -/
theorem Lawful.operator_of_inTime (h : Lawful f forest options d)
    (hp : d.steers.lookup id = some p) (hx : f.InTime d.steers id x) :
    ∃ n, d.operator? x = some n := by
  rcases hx with hsolid | ⟨⟨i, hi, hnode⟩, u, j, hu, hj, hcond⟩
  · exact h.classified hsolid
  · have hpair : (d.steers.lookup u).isSome = true := by
      rcases List.mem_cons.mp hu with rfl | hu
      · rw [hp]
        rfl
      · exact mem_steers_of_pairedBefore hu
    obtain ⟨q, hq⟩ := Option.isSome_iff_exists.mp hpair
    exact h.promoted hq hj hcond hi hnode

/-- What a pair of steers of an instruction may take. -/
theorem Lawful.admits_side (h : Lawful f forest options d) {p : SteerPair}
    (hp : d.steers.lookup id = some p) {j : Instruction} (hj : f.instruction? id = some j)
    {taken : Bool} {v : Operand} (hv : j.condition? = some v ∨ j.choice? taken = some v) :
    Admits f forest options (fun x => ¬ f.InTime d.steers id x) v (p.side taken) d where
  lawful := h
  covers x hx htime := by
    -- what is in time has its operator
    obtain ⟨n, hn⟩ := h.operator_of_inTime hp htime
    rw [hx] at hn
    cases hn
  node := h.side_node hp taken
  reason e a he ha := by
    have hlater : Supplies f e (fun x => ¬ f.InTime e.steers id x) v a :=
      ha.mono fun _ => mt (he.inTime hp).mp
    rcases hv with hcond | hchoice
    · exact .condition (he.steers hp) hj hcond hlater
    · exact .choice (he.steers hp) hj hchoice hlater

/-! ## Pairs of steers -/

section Steers

variable {wire : Operand → NodeId → Draft → Draft} {j : Instruction} {cond : Operand}

/-- Making a pair of steers for a live branch or select, before anything is wired into it. -/
theorem Lawful.newPair (h : Lawful f forest options d) (hlive : id ∈ f.live)
    (hj : f.instruction? id = some j) (hcond : j.condition? = some cond)
    (hnew : d.steers.lookup id = none) :
    Lawful f forest options ((d.promote f cond).newPair id).1 ∧
      d ≤ ((d.promote f cond).newPair id).1 := by
  obtain ⟨hps, hple, hpedge, hpsteers, _, hpop⟩ := h.sound.promote hlive hj hcond
  obtain ⟨hs, hle, hop⟩ := hps.newPair (by rwa [hpsteers]) hj hcond
  refine ⟨⟨hs, fun hsolid => ?_, fun {x p k y i} hp hk hc hy hn => ?_, fun {a b} hab => ?_⟩,
    hple.trans hle⟩
  · obtain ⟨n, hn⟩ := h.classified hsolid
    exact ⟨n, (hple.trans hle).operator hn⟩
  · rw [newPair_steers, List.lookup_cons] at hp
    by_cases hx : x = id
    · subst hx
      rw [hj] at hk
      cases hk
      rw [hcond] at hc
      cases hc
      obtain ⟨n, hpn⟩ := hpop y i rfl hy hn
      exact ⟨n, hle.operator hpn⟩
    · rw [beq_false_of_ne hx, hpsteers] at hp
      obtain ⟨n, hn⟩ := h.promoted hp hk hc hy hn
      exact ⟨n, (hple.trans hle).operator hn⟩
  · rw [hasEdge_newPair, hpedge] at hab
    exact (h.justified hab).mono (hple.trans hle)

/-- Wires a value if there is one. -/
def wireOption (wire : Operand → NodeId → Draft → Draft) (v : Option Operand) (target : NodeId)
    (d : Draft) : Draft := v.elim d (wire · target d)

/-- A pair of steers is recorded first and then wired: the condition into both, then each value. -/
theorem openSteers_eq (onTrue onFalse : Option Operand) :
    d.openSteers f wire id cond onTrue onFalse =
      let r := (d.promote f cond).newPair id
      (wireOption wire onFalse (r.2.side false) (wireOption wire onTrue (r.2.side true)
        (wire cond (r.2.side false) (wire cond (r.2.side true) r.1))), r.2) := rfl

/-- Making a pair of steers and wiring it. -/
theorem openSteers_lawful (hwire : ∀ opens, WireLawful f forest options opens wire)
    (h : Lawful f forest options d) (hlive : id ∈ f.live) (hj : f.instruction? id = some j)
    (hcond : j.condition? = some cond) (hnew : d.steers.lookup id = none)
    {onTrue onFalse : Option Operand} (htrue : j.choice? true = onTrue)
    (hfalse : j.choice? false = onFalse) :
    Lawful f forest options (d.openSteers f wire id cond onTrue onFalse).1 ∧
      d ≤ (d.openSteers f wire id cond onTrue onFalse).1 ∧
      (d.openSteers f wire id cond onTrue onFalse).1.steers.lookup id =
        some (d.openSteers f wire id cond onTrue onFalse).2 := by
  obtain ⟨hl, hle⟩ := h.newPair hlive hj hcond hnew
  have hp : ((d.promote f cond).newPair id).1.steers.lookup id =
      some ((d.promote f cond).newPair id).2 := by
    rw [newPair_steers, List.lookup_cons_self]
  rw [openSteers_eq]
  simp only
  generalize ((d.promote f cond).newPair id).1 = d₁ at hl hle hp ⊢
  generalize ((d.promote f cond).newPair id).2 = p at hp ⊢
  -- each wire keeps the invariant, because the pair is recorded before it is wired
  have hcondition : ∀ e, d₁ ≤ e → Lawful f forest options e → ∀ taken,
      Lawful f forest options (wire cond (p.side taken) e) ∧ e ≤ wire cond (p.side taken) e := by
    intro e he hle' taken
    exact hwire _ cond (p.side taken) e (hle'.admits_side (he.steers hp) hj (Or.inl hcond))
  have hchoice : ∀ e, d₁ ≤ e → Lawful f forest options e → ∀ taken (v : Option Operand),
      j.choice? taken = v →
      Lawful f forest options (wireOption wire v (p.side taken) e) ∧
        e ≤ wireOption wire v (p.side taken) e := by
    intro e he hle' taken v hv
    cases v with
    | none => exact ⟨hle', Le.refl e⟩
    | some w =>
        exact hwire _ w (p.side taken) e (hle'.admits_side (he.steers hp) hj (Or.inr hv))
  obtain ⟨hl₂, hle₂⟩ := hcondition d₁ (Le.refl d₁) hl true
  obtain ⟨hl₃, hle₃⟩ := hcondition _ hle₂ hl₂ false
  obtain ⟨hl₄, hle₄⟩ := hchoice _ (hle₂.trans hle₃) hl₃ true onTrue htrue
  obtain ⟨hl₅, hle₅⟩ := hchoice _ ((hle₂.trans hle₃).trans hle₄) hl₄ false onFalse hfalse
  have hgrow := ((hle₂.trans hle₃).trans hle₄).trans hle₅
  exact ⟨hl₅, hle.trans hgrow, hgrow.steers hp⟩

/-- Both steers of a select feed a user of it. -/
theorem feedUser_lawful (h : Lawful f forest options d) {p : SteerPair}
    (hp : d.steers.lookup id = some p) (hj : f.instruction? id = some j) (hsel : j.isSelect = true)
    {user : InstId} (huser : user ∈ f.users (.result id)) :
    Lawful f forest options (d.feedUser f p user) ∧ d ≤ d.feedUser f p user ∧
      (d.feedUser f p user).steers = d.steers := by
  obtain ⟨i, hi, hmem⟩ := Function.mem_users huser
  unfold feedUser
  rw [hi]
  cases hphi : i.isPhi with
  | true =>
      simp only [Option.any_some, hphi, if_true]
      exact ⟨h, Le.refl d, trivial⟩
  | false =>
      simp only [Option.any_some, hphi, Bool.false_eq_true, if_false]
      cases hop : d.operator? user with
      | none => exact ⟨h, Le.refl d, rfl⟩
      | some b =>
          obtain ⟨hl₁, hle₁⟩ := h.link (h.side_node hp true) (h.operator_node hop)
            (.operand hi hphi hmem hop (.steer hj hsel hp))
          obtain ⟨hl₂, hle₂⟩ := hl₁.link (hl₁.side_node (hle₁.steers hp) false)
            (hl₁.operator_node (hle₁.operator hop))
            (.operand hi hphi hmem (hle₁.operator hop) (.steer hj hsel (hle₁.steers hp)))
          exact ⟨hl₂, hle₁.trans hle₂, rfl⟩

/-- The pair of steers of a select, made if there is none. -/
theorem selectSteers_lawful (hwire : ∀ opens, WireLawful f forest options opens wire)
    (h : Lawful f forest options d) (hlive : id ∈ f.live) (hj : f.instruction? id = some j)
    (hsel : j.isSelect = true) :
    Lawful f forest options (d.selectSteers f wire id).1 ∧ d ≤ (d.selectSteers f wire id).1 ∧
      ∃ p, (d.selectSteers f wire id).2 = some p ∧
        (d.selectSteers f wire id).1.steers.lookup id = some p := by
  unfold selectSteers
  cases hp : d.steers.lookup id with
  | some p => exact ⟨h, Le.refl d, p, rfl, hp⟩
  | none =>
      cases j with
      | select cond ty onTrue onFalse =>
          simp only [hj]
          obtain ⟨hl, hle, hpair⟩ := openSteers_lawful hwire h hlive hj rfl hp rfl rfl
          obtain ⟨hl', hle'⟩ := foldl_keeps (R := (· ≤ ·)) Le.refl Le.trans
            (P := Lawful f forest options)
            (fun e user huser he hle' =>
              (feedUser_lawful hle' (he.steers hpair) hj rfl huser).imp_right And.left) hl
          exact ⟨hl', hle.trans hle', _, rfl, hle'.steers hpair⟩
      | _ => simp [Instruction.isSelect] at hsel

end Steers

end Draft

/-! ## The search -/

section Feeding

variable {f : Function} {forest : LoopForest} {options : LowerOptions} {target a : NodeId}
  {v : Operand} {s : Feed}

namespace Feed

/-- The edge from a leaf is that from its node. -/
theorem fromLeaf_draft : (s.fromLeaf f v target).draft =
    ((s.draft.nodeFor f v).1.connect (s.draft.nodeFor f v).2 (some target)).1 := rfl

/-- The edge from a leaf keeps a draft lawful, when it has a reason. -/
theorem fromLeaf_lawful (h : Draft.Lawful f forest options s.draft)
    (htarget : ∃ n, s.draft.graph.node? target = some n) (hv : v.isLeaf = true)
    (hreason : ∀ e a, s.draft ≤ e → e.graph.find? v = some a → Reason f forest options e a target) :
    Draft.Lawful f forest options (s.fromLeaf f v target).draft ∧
      s.draft ≤ (s.fromLeaf f v target).draft := by
  obtain ⟨hl, hle⟩ := h.nodeFor v
  obtain ⟨hs, _, hfind⟩ := h.sound.nodeFor v
  obtain ⟨i, hi⟩ := Draft.nodeFor_leaf (f := f) (d := s.draft) hv
  rw [fromLeaf_draft, hi]
  rw [hi] at hfind
  obtain ⟨n, hn, _⟩ := hs.full.owner hfind
  obtain ⟨hl', hle'⟩ := hl.connect ⟨n, hn⟩ (hle.node_exists htarget) (hreason _ i hle hfind)
  exact ⟨hl', hle.trans hle'⟩

/-- The edges from a pair of steers keep a draft lawful, when they have a reason. -/
theorem fromSteers_lawful (h : Draft.Lawful f forest options s.draft)
    (htarget : ∃ n, s.draft.graph.node? target = some n) {id : InstId} {p : SteerPair}
    (hp : s.draft.steers.lookup id = some p)
    (hreason : ∀ e taken, s.draft ≤ e → Reason f forest options e (p.side taken) target) :
    Draft.Lawful f forest options (s.fromSteers p target).draft ∧
      s.draft ≤ (s.fromSteers p target).draft ∧
      ∀ taken, (s.fromSteers p target).draft.graph.hasEdge (p.side taken) target := by
  obtain ⟨hl, hle⟩ := h.connect (h.side_node hp true) htarget (hreason _ true (Draft.Le.refl _))
  have hother := hl.side_node (hle.steers hp) false
  have htarget' := hle.node_exists htarget
  obtain ⟨hl', hle'⟩ := hl.connect hother htarget' (hreason _ false hle)
  refine ⟨hl', hle.trans hle', fun taken => ?_⟩
  cases taken with
  | true =>
      refine hle'.edge ((Draft.hasEdge_link (h.side_node hp true) htarget).mpr ?_)
      simp [SteerPair.side]
  | false => exact (Draft.hasEdge_link hother htarget').mpr (by simp [SteerPair.side])

end Feed

section Step

variable {depth : Nat} {id : InstId} {i : Instruction}

/-- The search after it has come to an instruction. -/
def Feed.visit (s : Feed) (id : InstId) : Feed := { s with visited := id :: s.visited }

/-- A search goes past what it has visited. -/
theorem feed_of_mem (hid : id ∈ s.visited) : feed f (depth + 1) (.result id) target s = s := by
  simp [feed, hid]

/-- A search stops at a select, with the edges from its steers. -/
theorem feed_of_isSelect (hid : id ∉ s.visited) (hi : f.instruction? id = some i)
    (hsel : i.isSelect = true) {d : Draft} {p : SteerPair}
    (hp : s.draft.selectSteers f (Draft.wireBy f (feed f depth)) id = (d, some p)) :
    feed f (depth + 1) (.result id) target s =
      { s.visit id with draft := d }.fromSteers p target := by
  cases i with
  | select cond ty onTrue onFalse => simp only [feed, if_neg hid, hi, hp, Feed.visit]
  | _ => simp [Instruction.isSelect] at hsel

/-- A search stops at an operator, with the edge from it. -/
theorem feed_of_operator (hid : id ∉ s.visited) (hi : f.instruction? id = some i)
    (hsel : i.isSelect = false) {n : NodeId} (hn : s.draft.operator? id = some n) :
    feed f (depth + 1) (.result id) target s = (s.visit id).fromNode n target := by
  cases i with
  | select cond ty onTrue onFalse => simp [Instruction.isSelect] at hsel
  | _ => simp only [feed, if_neg hid, hi, hn, Feed.visit]

/-- A search goes on from an instruction without an operator to its operands. -/
theorem feed_of_open (hid : id ∉ s.visited) (hi : f.instruction? id = some i)
    (hsel : i.isSelect = false) (hnone : s.draft.operator? id = none) :
    feed f (depth + 1) (.result id) target s =
      i.operands.foldl (fun s v => feed f depth v target s) (s.visit id) := by
  cases i with
  | select cond ty onTrue onFalse => simp [Instruction.isSelect] at hsel
  | _ => simp only [feed, if_neg hid, hi, hnone, Feed.visit]

end Step

/-- A report at the end of a search changes nothing that counts. -/
theorem wireBy_grows {d : Draft} {search : Operand → NodeId → Feed → Feed}
    (h : Draft.Lawful f forest options (search v target { draft := d }).draft ∧
      d ≤ (search v target { draft := d }).draft) :
    Draft.Lawful f forest options (d.wireBy f search v target) ∧
      d ≤ d.wireBy f search v target := by
  obtain ⟨hl, hle⟩ := h
  simp only [Draft.wireBy]
  split
  · exact ⟨hl, hle⟩
  · obtain ⟨hl', hle'⟩ := hl.report (.noProducer f.name (f.operandText v) target)
    exact ⟨hl', hle.trans hle'⟩

/-- A search keeps the invariant where its edges are admitted. -/
theorem feed_lawful (hlive : ∀ id i, f.instruction? id = some i → id ∈ f.live) (depth : Nat)
    {opens : InstId → Prop} (h : Draft.Admits f forest options opens v target s.draft) :
    Draft.Lawful f forest options (feed f depth v target s).draft ∧
      s.draft ≤ (feed f depth v target s).draft := by
  induction depth generalizing opens v target s with
  | zero =>
      cases v with
      | function | result => exact ⟨h.lawful, Draft.Le.refl _⟩
      | param | const | global =>
          exact Feed.fromLeaf_lawful h.lawful h.node rfl
            fun e a he ha => h.reason e a he (.leaf rfl ha)
  | succ depth ih =>
      cases v with
      | function => exact ⟨h.lawful, Draft.Le.refl _⟩
      | param | const | global =>
          exact Feed.fromLeaf_lawful h.lawful h.node rfl
            fun e a he ha => h.reason e a he (.leaf rfl ha)
      | result id =>
          by_cases hid : id ∈ s.visited
          · rw [feed_of_mem hid]
            exact ⟨h.lawful, Draft.Le.refl _⟩
          cases hi : f.instruction? id with
          | none =>
              simp only [feed, if_neg hid, hi]
              exact ⟨h.lawful, Draft.Le.refl _⟩
          | some i =>
              cases hsel : i.isSelect with
              | true =>
                  -- the steers may be made here, by searches of their own
                  have hwire : ∀ opens, Draft.WireLawful f forest options opens
                      (Draft.wireBy f (feed f depth)) :=
                    fun _ w t e he => wireBy_grows (ih (s := { draft := e }) he)
                  obtain ⟨hl, hle, p, hpair, hp⟩ :=
                    Draft.selectSteers_lawful hwire h.lawful (hlive id i hi) hi hsel
                  rw [feed_of_isSelect hid hi hsel (Prod.ext rfl hpair)]
                  obtain ⟨hl', hle', _⟩ := Feed.fromSteers_lawful
                    (s := { s.visit id with draft := _ }) hl (hle.node_exists h.node) hp
                    fun e taken he => h.reason e _ (hle.trans he) (.steer hi hsel (he.steers hp))
                  exact ⟨hl', hle.trans hle'⟩
              | false =>
                  cases hop : s.draft.operator? id with
                  | some n =>
                      rw [feed_of_operator hid hi hsel hop]
                      exact h.lawful.connect (h.lawful.operator_node hop) h.node
                        (h.reason _ _ (Draft.Le.refl _) (.node hop))
                  | none =>
                      rw [feed_of_open hid hi hsel hop]
                      -- an operand may be searched after the draft has grown, so what is admitted
                      -- for the instruction is taken to the later draft first
                      exact foldl_keeps (s := s.visit id)
                        (R := fun t u => t.draft ≤ u.draft) (fun t => Draft.Le.refl t.draft)
                        Draft.Le.trans (P := fun t => Draft.Lawful f forest options t.draft)
                        (g := fun t w => feed f depth w target t)
                        (fun t w hw ht hl => ih ((h.operand hi hsel hop hw).later hl ht)) h.lawful

/-- A wire by a search keeps the invariant. -/
theorem Draft.wireBy_lawful (hlive : ∀ id i, f.instruction? id = some i → id ∈ f.live)
    (depth : Nat) (opens : InstId → Prop) :
    Draft.WireLawful f forest options opens (Draft.wireBy f (feed f depth)) :=
  fun _ _ d h => wireBy_grows (feed_lawful hlive depth (s := { draft := d }) h)

end Feeding

end Dataflow
