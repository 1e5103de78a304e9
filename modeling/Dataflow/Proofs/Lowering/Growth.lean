import Dataflow.Proofs.Lowering.Producers
import Mathlib.Order.Basic

/-!
# Drafts grow

Lowering up to its last stage only adds to a draft. `d ≤ e` says what is kept from `d` to `e`: nodes
with their origin, edges, steers and the value map. `Draft.Sound` is the invariant on the way: every
pair of steers belongs to one branch or select, and every operator has a reason in the function. For
each step of lowering this module says that it keeps the invariant and grows the draft.
-/

namespace Dataflow

namespace Draft

/-- What is kept from one draft to a later one. A node that stands for no result never changes, and
new pairs of steers stand before the old ones. -/
structure Le (d e : Draft) : Prop where
  node : ∀ {i n}, d.graph.node? i = some n → ∃ m, e.graph.node? i = some m ∧
    m.origin = n.origin ∧ (n.kind ≠ .unknown → m.kind ≠ .unknown) ∧
    ((∀ id, n.origin ≠ some (.result id)) → m = n)
  owner : ∀ {v i}, d.graph.find? v = some i → e.graph.find? v = some i
  edge : ∀ {a b}, d.graph.hasEdge a b → e.graph.hasEdge a b
  steers : ∀ {id p}, d.steers.lookup id = some p → e.steers.lookup id = some p
  stream : ∀ {i}, d.stream = some i → e.stream = some i
  record : d.steers <:+ e.steers

/-- Drafts are ordered by what lowering made of one. -/
instance : LE Draft := ⟨Le⟩

variable {f : Function} {d e g : Draft} {a b i : NodeId} {v : Operand} {id : InstId}

/-- A draft keeps itself. -/
theorem Le.refl (d : Draft) : d ≤ d :=
  ⟨fun {_ n} h => ⟨n, h, rfl, fun hk => hk, fun _ => rfl⟩, fun h => h, fun h => h, fun h => h,
    fun h => h, List.suffix_refl _⟩

/-- What is kept from draft to draft is kept in the end. -/
theorem Le.trans (hde : d ≤ e) (heg : e ≤ g) : d ≤ g := by
  refine ⟨fun {i n} hn => ?_, fun h => heg.owner (hde.owner h), fun h => heg.edge (hde.edge h),
    fun h => heg.steers (hde.steers h), fun h => heg.stream (hde.stream h),
    hde.record.trans heg.record⟩
  obtain ⟨m, hm, horigin, hkind, hsame⟩ := hde.node hn
  obtain ⟨l, hl, horigin', hkind', hsame'⟩ := heg.node hm
  refine ⟨l, hl, horigin'.trans horigin, fun h => hkind' (hkind h), fun h => ?_⟩
  rw [hsame' (by rwa [horigin]), hsame h]

/-- The order in which drafts grow. -/
instance : Preorder Draft where
  le_refl := Le.refl
  le_trans _ _ _ := Le.trans

/-- Only the graph, the steers and the stream count. -/
theorem Le.of_eq (hg : e.graph = d.graph) (hs : e.steers = d.steers) (ht : e.stream = d.stream) :
    d ≤ e := by
  refine ⟨fun {i n} h => ⟨n, by rwa [hg], rfl, fun hk => hk, fun _ => rfl⟩, fun h => by rwa [hg],
    fun h => by rwa [hg], fun h => by rwa [hs], fun h => by rwa [ht], hs ▸ List.suffix_refl _⟩

/-! ## Operators -/

/-- An instruction has an operator when its node has one. -/
theorem operator?_eq_some : d.operator? id = some i ↔
    d.graph.find? (.result id) = some i ∧ ∃ n, d.graph.node? i = some n ∧ n.kind ≠ .unknown := by
  rw [operator?, Option.filter_eq_some_iff, Graph.kind?]
  cases d.graph.node? i <;> simp

/-- Operators are those of the graph. -/
theorem operator?_congr (hg : e.graph = d.graph) : e.operator? id = d.operator? id := by
  rw [operator?, operator?, hg]

/-- An operator stays one. -/
theorem Le.operator (h : d ≤ e) (hi : d.operator? id = some i) : e.operator? id = some i := by
  obtain ⟨hfind, n, hn, hkind⟩ := operator?_eq_some.mp hi
  obtain ⟨m, hm, _, hk, _⟩ := h.node hn
  exact operator?_eq_some.mpr ⟨h.owner hfind, m, hm, hk hkind⟩

/-- What has no operator later had none before. -/
theorem Le.operator?_eq_none (h : d ≤ e) (hnone : e.operator? id = none) :
    d.operator? id = none := by
  cases hi : d.operator? id with
  | none => rfl
  | some i =>
      rw [h.operator hi] at hnone
      cases hnone

/-- A node that is there stays. -/
theorem Le.node_exists (h : d ≤ e) (hi : ∃ n, d.graph.node? i = some n) :
    ∃ n, e.graph.node? i = some n := by
  obtain ⟨n, hn⟩ := hi
  obtain ⟨m, hm, _⟩ := h.node hn
  exact ⟨m, hm⟩

/-- A producer stays one where its reason does not depend on the draft. -/
theorem Le.supplies {opens : InstId → Prop} (h : d ≤ e) {n : NodeId}
    (hs : Supplies f d opens v n) : Supplies f e opens v n := by
  induction hs with
  | leaf hv hn => exact .leaf hv (h.owner hn)
  | steer hi hs hp => exact .steer hi hs (h.steers hp)
  | node hn => exact .node (h.operator hn)
  | operand hi hs ho hv _ ih => exact .operand hi hs ho hv ih

/-! ## The invariant -/

/-- The invariant of a draft before its last stage. -/
structure Sound (f : Function) (d : Draft) : Prop where
  /-- Nothing was removed from the graph. -/
  full : d.graph.Full
  /-- The node of a leaf has its operator from the start. -/
  leaf : ∀ {v i n}, d.graph.find? v = some i → v.isLeaf = true → d.graph.node? i = some n →
    n.kind ≠ .unknown
  /-- Only instructions that can have a node have one. -/
  result : ∀ {id i}, d.graph.find? (.result id) = some i →
    ∃ j, f.instruction? id = some j ∧ j.hasNode = true
  /-- Callees have no node. -/
  function : ∀ name, d.graph.find? (.function name) = none
  /-- An operator has a reason. -/
  operator : ∀ {id i}, d.operator? id = some i → f.HasOperator id
  /-- Pairs of steers belong to branches and selects. -/
  condition : ∀ {id p}, d.steers.lookup id = some p →
    ∃ j cond, f.instruction? id = some j ∧ j.condition? = some cond
  /-- The two nodes of a pair are steers and stand for no value. -/
  steer : ∀ {id p}, d.steers.lookup id = some p →
    d.graph.node? p.onTrue = some { kind := .trueSteer, label := "T" } ∧
    d.graph.node? p.onFalse = some { kind := .falseSteer, label := "F" }
  /-- Two pairs share no steer. -/
  steer_unique : ∀ {id id' p p' taken taken'}, d.steers.lookup id = some p →
    d.steers.lookup id' = some p' → p.side taken = p'.side taken' → id = id' ∧ taken = taken'
  /-- The stream stands for no value. -/
  stream : ∀ {i}, d.stream = some i → d.graph.node? i = some { kind := .stream, label := "STR" }

/-- Lowering starts from a sound draft. -/
theorem sound_empty : Sound f {} :=
  ⟨Graph.full_empty, fun h => by simp [Graph.find?] at h, fun h => by simp [Graph.find?] at h,
    fun name => rfl, fun h => by simp [operator?, Graph.find?] at h, fun h => by simp at h,
    fun h => by simp at h, fun h => by simp at h, fun h => by simp at h⟩

/-- Soundness asks for nothing but the graph, the steers and the stream. -/
theorem Sound.congr (h : Sound f d) (hg : e.graph = d.graph) (hs : e.steers = d.steers)
    (ht : e.stream = d.stream) : Sound f e := by
  obtain ⟨full, leaf, result, function, operator, condition, steer, unique, stream⟩ := h
  refine ⟨?_, ?_, ?_, ?_, fun {id i} hi => ?_, ?_, ?_, ?_, ?_⟩
  case refine_5 => exact operator (by rwa [operator?_congr hg] at hi)
  all_goals simpa only [hg, hs, ht]

/-- The steer of either side of a pair is a node that stands for no value. -/
theorem Sound.side (h : Sound f d) {p : SteerPair} (hp : d.steers.lookup id = some p)
    (taken : Bool) : ∃ n, d.graph.node? (p.side taken) = some n ∧ n.origin = none ∧
      n.kind = if taken then .trueSteer else .falseSteer := by
  cases taken with
  | true => exact ⟨_, (h.steer hp).1, rfl, rfl⟩
  | false => exact ⟨_, (h.steer hp).2, rfl, rfl⟩

/-- No value leads to a steer. -/
theorem Sound.find?_ne_side (h : Sound f d) {p : SteerPair} (hp : d.steers.lookup id = some p)
    {taken : Bool} (hv : d.graph.find? v = some i) : i ≠ p.side taken := by
  intro heq
  subst heq
  obtain ⟨n, hn, hnone, _⟩ := h.side hp taken
  obtain ⟨m, hm, hsome⟩ := h.full.owner hv
  rw [hn] at hm
  cases hm
  rw [hnone] at hsome
  cases hsome

/-- Two instructions do not share an operator. -/
theorem Sound.operator_unique (h : Sound f d) {id' : InstId} (hi : d.operator? id = some i)
    (hi' : d.operator? id' = some i) : id = id' := by
  have heq := h.full.owner_unique (operator?_eq_some.mp hi).1 (operator?_eq_some.mp hi').1
  cases heq
  rfl

/-- A producer is a node, and not one without an operator. -/
theorem Sound.supplies (h : Sound f d) {opens : InstId → Prop} {n : NodeId}
    (hs : Supplies f d opens v n) : ∃ m, d.graph.node? n = some m ∧ m.kind ≠ .unknown := by
  induction hs with
  | leaf hv hn =>
      obtain ⟨m, hm, _⟩ := h.full.owner hn
      exact ⟨m, hm, h.leaf hn hv hm⟩
  | @steer _ _ _ taken _ _ hp =>
      obtain ⟨n, hn, _, hkind⟩ := h.side hp taken
      exact ⟨n, hn, by cases taken <;> simp [hkind]⟩
  | node hn => exact (operator?_eq_some.mp hn).2
  | operand _ _ _ _ _ ih => exact ih

/-! ## Steps that change one thing -/

/-- A draft that differs only in its graph is sound again if the graph kept its nodes and values. -/
theorem Sound.of_graph (h : Sound f d) (hle : d ≤ e) (hs : e.steers = d.steers)
    (ht : e.stream = d.stream) (hfull : e.graph.Full)
    (hleaf : ∀ {v i n}, e.graph.find? v = some i → v.isLeaf = true → e.graph.node? i = some n →
      n.kind ≠ .unknown)
    (hresult : ∀ {id i}, e.graph.find? (.result id) = some i →
      ∃ j, f.instruction? id = some j ∧ j.hasNode = true)
    (hfunction : ∀ name, e.graph.find? (.function name) = none)
    (hoperator : ∀ {id i}, e.operator? id = some i → f.HasOperator id) : Sound f e := by
  have hkeep : ∀ {i n}, d.graph.node? i = some n → n.origin = none →
      e.graph.node? i = some n := by
    intro i n hn hnone
    obtain ⟨m, hm, _, _, hsame⟩ := hle.node hn
    rw [hm, hsame (by simp [hnone])]
  refine ⟨hfull, hleaf, hresult, hfunction, hoperator, fun hp => h.condition (by rwa [hs] at hp),
    fun hp => ?_, fun hp hp' => h.steer_unique (by rwa [hs] at hp) (by rwa [hs] at hp'),
    fun hi => hkeep (h.stream (by rwa [ht] at hi)) rfl⟩
  rw [hs] at hp
  exact ⟨hkeep (h.steer hp).1 rfl, hkeep (h.steer hp).2 rfl⟩

/-- An edge between two nodes that are there. -/
theorem Sound.connect (h : Sound f d) (ha : ∃ n, d.graph.node? a = some n)
    (hb : ∃ n, d.graph.node? b = some n) :
    Sound f (d.connect (some a) (some b)).1 ∧ d ≤ (d.connect (some a) (some b)).1 := by
  have hop : ∀ id, (d.connect (some a) (some b)).1.operator? id = d.operator? id := by
    intro id
    simp only [operator?, Draft.connect, Graph.find?_connect, Graph.kind?, Graph.node?_connect]
  have hle : d ≤ (d.connect (some a) (some b)).1 := by
    refine ⟨fun {i n} hn => ⟨n, by simpa [Draft.connect] using hn, rfl, fun hk => hk, fun _ => rfl⟩,
      fun hv => by simpa [Draft.connect] using hv,
      fun hxy => (Graph.hasEdge_connect ha hb).mpr (Or.inl hxy), fun hp => hp, fun hi => hi,
      List.suffix_refl _⟩
  refine ⟨h.of_graph hle rfl rfl (Graph.full_connect h.full ha hb) ?_ ?_ ?_ ?_, hle⟩
  · intro v i n hv hl hn
    exact h.leaf (by simpa [Draft.connect] using hv) hl (by simpa [Draft.connect] using hn)
  · intro id i hi
    exact h.result (by simpa [Draft.connect] using hi)
  · intro name
    simpa [Draft.connect] using h.function name
  · intro id i hi
    exact h.operator (by rwa [hop] at hi)

/-- An edge between two nodes adds that edge and no other. -/
theorem hasEdge_link (ha : ∃ n, d.graph.node? a = some n) (hb : ∃ n, d.graph.node? b = some n)
    {x y : NodeId} : (d.link a b).graph.hasEdge x y ↔ d.graph.hasEdge x y ∨ (x = a ∧ y = b) :=
  Graph.hasEdge_connect ha hb

/-- A change of a node that a value leads to. It keeps the origin and gives up no operator. -/
theorem Sound.modifyNode (h : Sound f d) (hv : d.graph.find? v = some i) (change : Node → Node)
    (horigin : ∀ n, (change n).origin = n.origin)
    (hkind : ∀ n, n.kind ≠ .unknown → (change n).kind ≠ .unknown)
    (hleaf : v.isLeaf = true → ∀ n, n.kind ≠ .unknown → change n = n)
    (hoperator : ∀ id n, v = .result id → d.graph.node? i = some n →
      (change n).kind ≠ .unknown → f.HasOperator id) :
    Sound f { d with graph := d.graph.modifyNode i change } ∧
      d ≤ { d with graph := d.graph.modifyNode i change } := by
  have hresult : v.isLeaf = false → ∃ id, v = .result id := by
    intro hl
    cases v with
    | result id => exact ⟨id, rfl⟩
    | function name => simp [h.function name] at hv
    | param | const | global => simp [Operand.isLeaf] at hl
  have hle : d ≤ { d with graph := d.graph.modifyNode i change } := by
    refine ⟨fun {j n} hn => ?_, fun hv => hv, fun hab => hab, fun hp => hp, fun hi => hi,
      List.suffix_refl _⟩
    simp only [Graph.node?_modifyNode]
    split
    · rename_i hj
      subst hj
      refine ⟨change n, by rw [hn]; rfl, horigin n, hkind n, fun hno => ?_⟩
      obtain ⟨m, hm, hmv⟩ := h.full.owner hv
      rw [hn] at hm
      cases hm
      -- the node of a leaf has its operator, so the change leaves it as it is
      cases hl : v.isLeaf with
      | true => exact hleaf hl n (h.leaf hv hl hn)
      | false =>
          obtain ⟨id, rfl⟩ := hresult hl
          exact absurd hmv (hno id)
    · exact ⟨n, hn, rfl, fun hk => hk, fun _ => rfl⟩
  refine ⟨h.of_graph hle rfl rfl (Graph.full_modifyNode h.full horigin) ?_ h.result h.function ?_,
    hle⟩
  · intro w j n hw hl hn
    simp only [Graph.find?_modifyNode] at hw
    simp only [Graph.node?_modifyNode] at hn
    split at hn
    · obtain ⟨m, hm, rfl⟩ := Option.map_eq_some_iff.mp hn
      exact hkind m (h.leaf hw hl hm)
    · exact h.leaf hw hl hn
  · intro id j hj
    obtain ⟨hfind, n, hn, hk⟩ := operator?_eq_some.mp hj
    simp only [Graph.find?_modifyNode] at hfind
    simp only [Graph.node?_modifyNode] at hn
    split at hn
    · rename_i hij
      subst hij
      obtain ⟨m, hm, rfl⟩ := Option.map_eq_some_iff.mp hn
      exact hoperator id m (h.full.owner_unique hv hfind) hm hk
    · exact h.operator (operator?_eq_some.mpr ⟨hfind, n, hn, hk⟩)

/-! ## New nodes -/

/-- What a new node for a value looks like. -/
theorem newNode?_eq_some {n : Node} (h : f.newNode? v = some n) :
    n.origin = some v ∧ (v.isLeaf = true → n.kind ≠ .unknown) ∧ (∀ name, v ≠ .function name) ∧
      ∀ id, v = .result id → n.kind = .unknown ∧
        ∃ j, f.instruction? id = some j ∧ j.hasNode = true := by
  cases v with
  | function name => cases h
  | result id =>
      simp only [Function.newNode?] at h
      split at h
      · rename_i hany
        cases h
        refine ⟨rfl, by simp [Operand.isLeaf], by simp, fun x hx => ⟨rfl, ?_⟩⟩
        cases hx
        simpa [Option.any_eq_true] using hany
      · cases h
  | param | const | global =>
      simp only [Function.newNode?, Option.some.injEq] at h
      subst h
      exact ⟨rfl, by simp, by simp, by simp⟩

/-- A node that is added under a new number. -/
theorem Sound.addNode_le (h : Sound f d) {n : Node}
    (hn : ∀ v, n.origin = some v → d.graph.find? v = none) : d ≤ (d.addNode n).1 := by
  refine ⟨fun {i m} hm => ⟨m, ?_, rfl, fun hk => hk, fun _ => rfl⟩, fun {w i} hw => ?_,
    fun hab => hab, fun hp => hp, fun hi => hi, List.suffix_refl _⟩
  · simp only [Draft.addNode, Graph.node?_addNode h.full]
    rwa [if_neg (Nat.ne_of_lt (Graph.lt_length_of_node? hm))]
  · simp only [Draft.addNode]
    cases ho : n.origin with
    | none => rwa [Graph.find?_addNode_of_none ho]
    | some v =>
        rw [Graph.find?_addNode_of_some h.full ho, if_neg]
        · exact hw
        · intro heq
          subst heq
          rw [hn w ho] at hw
          cases hw

section Owned

variable {n : Node} (h : Sound f d) (hfind : d.graph.find? v = none)
  (hnew : f.newNode? v = some n)

include h hfind hnew

/-- A node made for a value is no operator yet, unless the value is a leaf. -/
theorem Sound.operator?_addOwned : (d.addNode n).1.operator? id = d.operator? id := by
  obtain ⟨ho, _, _, hresult⟩ := newNode?_eq_some hnew
  ext i
  simp only [operator?_eq_some, Draft.addNode, Graph.find?_addNode_of_some h.full ho,
    Graph.node?_addNode h.full]
  by_cases hid : Operand.result id = v
  · rw [if_pos hid, hid, hfind]
    simp only [Option.some.injEq, reduceCtorEq, false_and, iff_false]
    intro hex
    obtain ⟨rfl, m, hm, hk⟩ := hex
    rw [if_pos rfl] at hm
    cases hm
    exact hk (hresult id hid.symm).1
  · rw [if_neg hid]
    refine and_congr_right fun hi => ?_
    rw [if_neg (Nat.ne_of_lt (h.full.lt_of_find? hi))]

/-- A node that stands for what has none yet keeps a draft sound. -/
theorem Sound.addOwned : Sound f (d.addNode n).1 ∧ d ≤ (d.addNode n).1 := by
  obtain ⟨ho, hleaf, hfunction, hresult⟩ := newNode?_eq_some hnew
  have hnone : ∀ w, n.origin = some w → d.graph.find? w = none := by
    intro w hw
    rw [ho] at hw
    cases hw
    exact hfind
  have hvalue : ∀ {w}, (d.addNode n).1.graph.find? w =
      if w = v then some d.graph.nodes.length else d.graph.find? w :=
    Graph.find?_addNode_of_some h.full ho
  -- older values lead to lower numbers, and only `v` leads to the new node
  have hle := h.addNode_le hnone
  refine ⟨h.of_graph hle rfl rfl (Graph.full_addNode h.full hnone) ?_ ?_ ?_ ?_, hle⟩
  · intro w i m hw hl hm
    simp only [Draft.addNode, Graph.node?_addNode h.full] at hm
    rw [hvalue] at hw
    split at hw
    · rename_i hwv
      cases hw
      rw [if_pos rfl] at hm
      cases hm
      exact hleaf (hwv ▸ hl)
    · rw [if_neg (Nat.ne_of_lt (h.full.lt_of_find? hw))] at hm
      exact h.leaf hw hl hm
  · intro id i hi
    rw [hvalue] at hi
    split at hi
    · rename_i hid
      exact (hresult id hid.symm).2
    · exact h.result hi
  · intro name
    rw [hvalue, if_neg fun hname => hfunction name hname.symm]
    exact h.function name
  · intro id i hi
    rw [h.operator?_addOwned hfind hnew] at hi
    exact h.operator hi

end Owned

/-- The node of a value, made if there is none, and what that does to a draft. -/
theorem Sound.nodeFor (h : Sound f d) (v : Operand) :
    Sound f (d.nodeFor f v).1 ∧ d ≤ (d.nodeFor f v).1 ∧
      (d.nodeFor f v).1.graph.find? v = (d.nodeFor f v).2 := by
  unfold Draft.nodeFor Graph.nodeFor
  cases hfind : d.graph.find? v with
  | some i => exact ⟨h.congr rfl rfl rfl, Le.of_eq rfl rfl rfl, hfind⟩
  | none =>
      cases hnew : f.newNode? v with
      | none => exact ⟨h.congr rfl rfl rfl, Le.of_eq rfl rfl rfl, hfind⟩
      | some n =>
          obtain ⟨hsound, hle⟩ := h.addOwned hfind hnew
          refine ⟨hsound, hle, ?_⟩
          simp [Graph.find?_addNode_of_some h.full (newNode?_eq_some hnew).1,
            Graph.addNode_id h.full]

/-- Asking for the node of a value adds no edge and no operator for a result. -/
theorem Sound.nodeFor_frame (h : Sound f d) (v : Operand) :
    (∀ a b, (d.nodeFor f v).1.graph.hasEdge a b = d.graph.hasEdge a b) ∧
      (∀ id, (d.nodeFor f v).1.operator? id = d.operator? id) := by
  unfold Draft.nodeFor Graph.nodeFor
  cases hfind : d.graph.find? v with
  | some i => exact ⟨fun a b => rfl, fun id => rfl⟩
  | none =>
      cases hnew : f.newNode? v with
      | none => exact ⟨fun a b => rfl, fun id => rfl⟩
      | some n => exact ⟨fun a b => rfl, fun id => h.operator?_addOwned hfind hnew⟩

/-- A leaf always gets a node. -/
theorem nodeFor_leaf (hv : v.isLeaf = true) : ∃ i, (d.nodeFor f v).2 = some i := by
  unfold Draft.nodeFor Graph.nodeFor
  cases hfind : d.graph.find? v with
  | some i => exact ⟨i, rfl⟩
  | none => cases v <;> simp_all [Operand.isLeaf, Function.newNode?]

/-- So does an instruction that can have one. -/
theorem nodeFor_result {i : Instruction} (hi : f.instruction? id = some i)
    (hnode : i.hasNode = true) :
    ∃ n, (d.nodeFor f (.result id)).2 = some n := by
  unfold Draft.nodeFor Graph.nodeFor
  cases hfind : d.graph.find? (.result id) with
  | some n => exact ⟨n, rfl⟩
  | none => simp [Function.newNode?, hi, hnode]

/-! ## Steers and the stream -/

/-- A node that stands for no value. -/
theorem Sound.addPlain (h : Sound f d) {n : Node} (hn : n.origin = none) :
    Sound f (d.addNode n).1 ∧ d ≤ (d.addNode n).1 ∧
      ∀ id, (d.addNode n).1.operator? id = d.operator? id := by
  have hnone : ∀ v, n.origin = some v → d.graph.find? v = none := fun v hv => by simp [hn] at hv
  have hle := h.addNode_le hnone
  -- no value leads to the new node
  have hvalue : ∀ w, (d.addNode n).1.graph.find? w = d.graph.find? w :=
    fun w => Graph.find?_addNode_of_none hn
  have hnode : ∀ {w i}, d.graph.find? w = some i →
      (d.addNode n).1.graph.node? i = d.graph.node? i := by
    intro w i hi
    simp only [Draft.addNode, Graph.node?_addNode h.full]
    exact if_neg (Nat.ne_of_lt (h.full.lt_of_find? hi))
  have hop : ∀ id, (d.addNode n).1.operator? id = d.operator? id := by
    intro id
    ext i
    rw [operator?_eq_some, operator?_eq_some, hvalue]
    refine and_congr_right fun hi => ?_
    rw [hnode hi]
  refine ⟨h.of_graph hle rfl rfl (Graph.full_addNode h.full hnone) ?_ ?_ ?_ ?_, hle, hop⟩
  · intro w i m hw hl hm
    rw [hvalue] at hw
    rw [hnode hw] at hm
    exact h.leaf hw hl hm
  · intro id i hi
    rw [hvalue] at hi
    exact h.result hi
  · intro name
    rw [hvalue]
    exact h.function name
  · intro id i hi
    rw [hop] at hi
    exact h.operator hi

/-- Two new steers, recorded as the pair of an instruction. -/
def newPair (d : Draft) (id : InstId) : Draft × SteerPair :=
  let (d, t) := d.addNode { kind := .trueSteer, label := "T" }
  let (d, e) := d.addNode { kind := .falseSteer, label := "F" }
  ({ d with steers := (id, ⟨t, e⟩) :: d.steers }, ⟨t, e⟩)

/-- A new pair takes the next two numbers. -/
theorem newPair_side (hd : d.graph.Full) (id : InstId) :
    (d.newPair id).2 = ⟨d.graph.nodes.length, d.graph.nodes.length + 1⟩ := by
  have htrue := Graph.full_addNode hd (n := { kind := .trueSteer, label := "T" }) (by simp)
  have hlast : ((d.addNode { kind := .trueSteer, label := "T" }).1.graph.addNode
      { kind := .falseSteer, label := "F" }).2 = d.graph.nodes.length + 1 := by
    refine (Graph.addNode_id htrue).trans ?_
    exact Graph.length_addNode hd
  exact congrArg₂ SteerPair.mk (Graph.addNode_id hd) hlast

/-- A new pair stands before the others. -/
theorem newPair_steers : (d.newPair id).1.steers = (id, (d.newPair id).2) :: d.steers := rfl

/-- A new pair of steers has no edge yet. -/
@[simp] theorem hasEdge_newPair : (d.newPair id).1.graph.hasEdge a b = d.graph.hasEdge a b := rfl

/-- The nodes of a new pair come last, the true side first. -/
theorem node?_newPair (hd : d.graph.Full) :
    (d.newPair id).1.graph.node? i =
      if i = d.graph.nodes.length + 1 then some { kind := .falseSteer, label := "F" }
      else if i = d.graph.nodes.length then some { kind := .trueSteer, label := "T" }
      else d.graph.node? i := by
  have htrue := Graph.full_addNode hd (n := { kind := .trueSteer, label := "T" }) (by simp)
  have hnode := Graph.node?_addNode htrue (n := { kind := .falseSteer, label := "F" }) (i := i)
  simp only [Graph.length_addNode hd, Graph.node?_addNode hd] at hnode
  exact hnode

/-- A new pair is found for its choice, and every other pair where it was. -/
theorem lookup_newPair {x : InstId} : (d.newPair id).1.steers.lookup x =
    if x = id then some (d.newPair id).2 else d.steers.lookup x := by
  rw [newPair_steers, List.lookup_cons]
  by_cases hx : x = id
  · simp [hx]
  · rw [beq_false_of_ne hx, if_neg hx]

/-- The steers of a pair are nodes. -/
theorem Sound.side_lt (h : Sound f d) {p : SteerPair} (hp : d.steers.lookup id = some p)
    (taken : Bool) : p.side taken < d.graph.nodes.length := by
  obtain ⟨n, hn, _⟩ := h.side hp taken
  exact Graph.lt_length_of_node? hn

/-- A new pair takes the numbers after those of all nodes. -/
theorem Sound.le_side_newPair (h : Sound f d) (taken : Bool) :
    d.graph.nodes.length ≤ (d.newPair id).2.side taken := by
  rw [newPair_side h.full id]
  cases taken <;> simp [SteerPair.side]

/-- A draft keeps what it has when a choice without steers gets them. -/
theorem Sound.le_newPair (h : Sound f d) (hnew : d.steers.lookup id = none) :
    d ≤ (d.newPair id).1 := by
  obtain ⟨ht, hlet, _⟩ := h.addPlain (n := { kind := .trueSteer, label := "T" }) rfl
  obtain ⟨_, hlee, _⟩ := ht.addPlain (n := { kind := .falseSteer, label := "F" }) rfl
  refine (hlet.trans hlee).trans ⟨fun {i n} hn => ⟨n, hn, rfl, fun hk => hk, fun _ => rfl⟩,
    fun hv => hv, fun hab => hab, fun {x p} hp => ?_, fun hi => hi, List.suffix_cons _ _⟩
  rw [lookup_newPair]
  split
  · -- the branch or select had no pair before
    rename_i hx
    have hp' : d.steers.lookup x = some p := hp
    rw [hx, hnew] at hp'
    cases hp'
  · exact hp

/-- A new pair for a choice of the function keeps a draft sound, and adds no operator. -/
theorem Sound.newPair (h : Sound f d) (hnew : d.steers.lookup id = none) {j : Instruction}
    {cond : Operand} (hj : f.instruction? id = some j) (hcond : j.condition? = some cond) :
    Sound f (d.newPair id).1 ∧ d ≤ (d.newPair id).1 ∧
      ∀ x, (d.newPair id).1.operator? x = d.operator? x := by
  obtain ⟨ht, _, hopt⟩ := h.addPlain (n := { kind := .trueSteer, label := "T" }) rfl
  obtain ⟨he, _, hope⟩ := ht.addPlain (n := { kind := .falseSteer, label := "F" }) rfl
  have hop : ∀ x, (d.newPair id).1.operator? x = d.operator? x :=
    fun x => (hope x).trans (hopt x)
  refine ⟨⟨he.full, he.leaf, he.result, he.function, ?_, ?_, ?_, ?_, he.stream⟩,
    h.le_newPair hnew, hop⟩
  · intro x i hi
    rw [hop] at hi
    exact h.operator hi
  · intro x p hp
    rw [lookup_newPair] at hp
    split at hp
    · rename_i hx
      exact ⟨j, cond, by rwa [hx], hcond⟩
    · exact h.condition hp
  · intro x p hp
    rw [lookup_newPair] at hp
    rw [node?_newPair h.full, node?_newPair h.full]
    split at hp
    · rw [← Option.some.inj hp, newPair_side h.full id]
      simp
    · -- the steers of an older pair have lower numbers than both new ones
      have htrue := h.side_lt hp true
      have hfalse := h.side_lt hp false
      simp only [SteerPair.side, if_true, Bool.false_eq_true, if_false] at htrue hfalse
      rw [if_neg (Nat.ne_of_lt (Nat.lt_succ_of_lt htrue)), if_neg (Nat.ne_of_lt htrue),
        if_neg (Nat.ne_of_lt (Nat.lt_succ_of_lt hfalse)), if_neg (Nat.ne_of_lt hfalse)]
      exact h.steer hp
  · -- an old pair and the new one share no steer, as the new one takes higher numbers
    intro x y p q taken taken' hp hq heq
    rw [lookup_newPair] at hp hq
    split at hp <;> split at hq
    · rename_i hx hy
      cases hp
      cases hq
      rw [newPair_side h.full id] at heq
      refine ⟨hx.trans hy.symm, ?_⟩
      cases taken <;> cases taken' <;> simp [SteerPair.side] at heq ⊢
    · cases hp
      exact absurd (h.side_lt hq taken') (Nat.not_lt.mpr (heq ▸ h.le_side_newPair taken))
    · cases hq
      exact absurd (h.side_lt hp taken) (Nat.not_lt.mpr (heq ▸ h.le_side_newPair taken'))
    · exact h.steer_unique hp hq heq

/-- The condition of a live branch or select gets an operator if it can have a node. -/
theorem Sound.promote (h : Sound f d) {x : InstId} {j : Instruction} {cond : Operand}
    (hx : x ∈ f.live) (hj : f.instruction? x = some j) (hcond : j.condition? = some cond) :
    Sound f (d.promote f cond) ∧ d ≤ d.promote f cond ∧
      (∀ a b, (d.promote f cond).graph.hasEdge a b = d.graph.hasEdge a b) ∧
      (d.promote f cond).steers = d.steers ∧ (d.promote f cond).stream = d.stream ∧
      ∀ id i, cond = .result id → f.instruction? id = some i → i.hasNode = true →
        ∃ n, (d.promote f cond).operator? id = some n := by
  obtain ⟨hs, hle, hfind⟩ := h.nodeFor cond
  obtain ⟨hedge, hop⟩ := h.nodeFor_frame cond
  unfold Draft.promote
  cases hnode : d.nodeFor f cond with
  | mk e found =>
      simp only [hnode] at hs hle hfind hedge
      have hsteers : e.steers = d.steers := congrArg (fun r => r.1.steers) hnode.symm
      have hstream : e.stream = d.stream := congrArg (fun r => r.1.stream) hnode.symm
      cases found with
      | none =>
          -- a result that can have a node would have got one
          refine ⟨hs, hle, hedge, hsteers, hstream, fun id i hid hi hn => ?_⟩
          subst hid
          simp only [Draft.nodeFor, Graph.nodeFor] at hnode
          cases hf : d.graph.find? (.result id) with
          | some k => simp [hf] at hnode
          | none => simp [hf, Function.newNode?, hi, hn] at hnode
      | some i =>
          obtain ⟨hms, hmle⟩ := hs.modifyNode hfind
            (fun n => if n.kind = .unknown then { n with kind := .binaryOp } else n)
            (fun n => by split <;> rfl)
            (fun n hn => by rwa [if_neg hn])
            (fun _ n hn => by rw [if_neg hn])
            (fun id n hid _ _ => by
              subst hid
              exact Or.inr ⟨hs.result hfind, x, j, hx, hj, hcond⟩)
          refine ⟨hms, hle.trans hmle, hedge, hsteers, hstream, fun id k hid _ _ => ⟨i, ?_⟩⟩
          subst hid
          obtain ⟨n, hn, _⟩ := hs.full.owner hfind
          refine operator?_eq_some.mpr ⟨hfind,
            if n.kind = .unknown then { n with kind := .binaryOp } else n, ?_, ?_⟩
          · simp only [Graph.node?_modifyNode, if_true, hn, Option.map_some]
          · split
            · simp
            · assumption

/-- The stream node, made if there is none. -/
theorem Sound.streamNode (h : Sound f d) :
    Sound f d.streamNode.1 ∧ d ≤ d.streamNode.1 ∧ d.streamNode.1.stream = some d.streamNode.2 ∧
      (∀ a b, d.streamNode.1.graph.hasEdge a b = d.graph.hasEdge a b) ∧
      (∀ id, d.streamNode.1.operator? id = d.operator? id) ∧
      d.streamNode.1.steers = d.steers := by
  unfold Draft.streamNode
  cases hstream : d.stream with
  | some i => exact ⟨h, Le.refl d, hstream, fun a b => rfl, fun id => rfl, rfl⟩
  | none =>
      obtain ⟨hs, hle, hop⟩ := h.addPlain (n := { kind := .stream, label := "STR" }) rfl
      have hnode := Graph.node?_addNode h.full (n := { kind := .stream, label := "STR" })
        (i := d.graph.nodes.length)
      refine ⟨⟨hs.full, hs.leaf, hs.result, hs.function, hs.operator, hs.condition, hs.steer,
        hs.steer_unique, fun {i} hi => ?_⟩, hle.trans ⟨fun {i n} hn => ⟨n, hn, rfl, fun hk => hk,
          fun _ => rfl⟩, fun hv => hv, fun hab => hab, fun hp => hp, fun {i} hi => ?_,
          List.suffix_refl _⟩, rfl, fun a b => rfl, hop, rfl⟩
      · rw [← Option.some.inj hi]
        simpa [Draft.addNode, Graph.addNode_id h.full] using hnode
      · have hi' : d.stream = some i := hi
        rw [hstream] at hi'
        cases hi'

end Draft

end Dataflow
