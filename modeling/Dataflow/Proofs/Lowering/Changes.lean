import Dataflow.Proofs.Lowering.Reasons

/-!
# The changes that lowering is made of

`Builds f options T P d e` says that draft `e` comes from `d` by adding edges, making nodes for
values, giving conditions their operator, and making steers and the stream. Edges enter only the
nodes in `T`, steers that are recorded, and operators that are no phis (`Enters`); pairs of steers
are made only for instructions in `P`, nodes of leaves only for what the function reads or takes
(`Function.Asks`), and the stream only if a branch is there to ask for it. A search for producers is
such a sequence of changes (`feed_builds`), and so is every stage between the first and the last but
for the phis that become carries. What all changes keep is told once: nodes with an operator keep
their operator and values their node (`Builds.keeps`), recorded pairs stay (`Builds.steers`), and
new edges enter where they may (`Builds.edge`). None of this asks anything of the function.
-/

namespace Dataflow

/-! ## What a graph keeps -/

namespace Graph

/-- What is kept from one graph to a later one: values keep their node, and nodes the operator they
have. -/
structure Keeps (g h : Graph) : Prop where
  full : h.Full
  owner : ∀ {v i}, g.find? v = some i → h.find? v = some i
  kind : ∀ {i k}, g.kind? i = some k → k ≠ .unknown → h.kind? i = some k

variable {g h k : Graph} {a b : Option NodeId} {i : NodeId} {v : Operand} {n : Node}

theorem Keeps.refl (hg : g.Full) : g.Keeps g := ⟨hg, fun hv => hv, fun hi _ => hi⟩

/-- What is kept twice is kept. -/
theorem Keeps.trans (hgh : g.Keeps h) (hhk : h.Keeps k) : g.Keeps k :=
  ⟨hhk.full, fun hv => hhk.owner (hgh.owner hv), fun hi hne => hhk.kind (hgh.kind hi hne) hne⟩

/-- A kind is the kind of a node. -/
theorem kind?_eq_some {kind : Operator} :
    g.kind? i = some kind ↔ ∃ n, g.node? i = some n ∧ n.kind = kind := by
  simp [kind?]

/-- Connecting changes nothing, or adds an edge between two nodes that are there. -/
theorem connect_cases (g : Graph) (a b : Option NodeId) : (g.connect a b).1 = g ∨
    ∃ x y, a = some x ∧ b = some y ∧ (∃ n, g.node? x = some n) ∧ ∃ n, g.node? y = some n := by
  cases a with
  | none => exact Or.inl rfl
  | some x =>
      cases b with
      | none => exact Or.inl rfl
      | some y =>
          cases hx : g.node? x with
          | none => exact Or.inl (by simp [connect, hx])
          | some n =>
              cases hy : g.node? y with
              | none => exact Or.inl (by simp [connect, hy])
              | some m => exact Or.inr ⟨x, y, rfl, rfl, ⟨n, hx⟩, m, hy⟩

@[simp] theorem kind?_connect : (g.connect a b).1.kind? i = g.kind? i := by
  rw [kind?, kind?, node?_connect]

/-- An edge keeps all nodes. -/
theorem keeps_connect (hg : g.Full) : g.Keeps (g.connect a b).1 := by
  refine ⟨?_, fun hv => by rwa [find?_connect], fun hi _ => by rwa [kind?_connect]⟩
  rcases g.connect_cases a b with hsame | ⟨x, y, rfl, rfl, hx, hy⟩
  · rwa [hsame]
  · exact full_connect hg hx hy

/-- A new node keeps those there are, when its value has none yet. -/
theorem keeps_addNode (hg : g.Full) (hn : ∀ v, n.origin = some v → g.find? v = none) :
    g.Keeps (g.addNode n).1 := by
  refine ⟨full_addNode hg hn, fun {w j} hw => ?_, fun {j kind} hj _ => ?_⟩
  · cases ho : n.origin with
    | none => rwa [find?_addNode_of_none ho]
    | some v =>
        rw [find?_addNode_of_some hg ho, if_neg]
        · exact hw
        · intro heq
          subst heq
          rw [hn w ho] at hw
          cases hw
  · obtain ⟨m, hm, rfl⟩ := kind?_eq_some.mp hj
    refine kind?_eq_some.mpr ⟨m, ?_, rfl⟩
    rw [node?_addNode hg, if_neg (Nat.ne_of_lt (lt_length_of_node? hm)), hm]

/-- A change to a node keeps what is kept, when it changes neither what the node stands for nor an
operator it has. -/
theorem keeps_modifyNode (hg : g.Full) {change : Node → Node}
    (horigin : ∀ n, (change n).origin = n.origin)
    (hkind : ∀ n, g.node? i = some n → n.kind ≠ .unknown → (change n).kind = n.kind) :
    g.Keeps (g.modifyNode i change) := by
  refine ⟨full_modifyNode hg horigin, fun hv => hv, fun {j kind} hj hne => ?_⟩
  obtain ⟨m, hm, rfl⟩ := kind?_eq_some.mp hj
  rw [kind?_eq_some, node?_modifyNode]
  split
  · rename_i hji
    subst hji
    exact ⟨change m, by rw [hm, Option.map_some], hkind m hm hne⟩
  · exact ⟨m, hm, rfl⟩

/-- Asking for the node of a value gives the same graph or one with a new node for it. -/
theorem nodeFor_cases (g : Graph) (f : Function) (v : Operand) :
    (g.nodeFor f v).1 = g ∧ (g.nodeFor f v).2 = g.find? v ∨
      g.find? v = none ∧ ∃ n, f.newNode? v = some n ∧
        g.nodeFor f v = ((g.addNode n).1, some (g.addNode n).2) := by
  unfold nodeFor
  cases hfind : g.find? v with
  | some i => exact Or.inl ⟨rfl, rfl⟩
  | none =>
      cases hnew : f.newNode? v with
      | none => exact Or.inl ⟨rfl, rfl⟩
      | some n => exact Or.inr ⟨rfl, n, rfl, rfl⟩

/-- The node of a value keeps those there are. -/
theorem keeps_nodeFor (hg : g.Full) (f : Function) (v : Operand) :
    g.Keeps (g.nodeFor f v).1 := by
  rcases g.nodeFor_cases f v with ⟨hsame, _⟩ | ⟨hnone, n, hn, hnew⟩
  · rw [hsame]
    exact .refl hg
  · rw [hnew]
    refine keeps_addNode hg fun w hw => ?_
    rw [(Draft.newNode?_eq_some hn).1] at hw
    cases hw
    exact hnone

/-- A value that has just been asked for its node leads to it. -/
theorem find?_nodeFor (hg : g.Full) : (g.nodeFor f v).1.find? v = (g.nodeFor f v).2 := by
  rcases g.nodeFor_cases f v with ⟨hsame, hfind⟩ | ⟨_, n, hn, hnew⟩
  · rw [hsame, hfind]
  · rw [hnew, find?_addNode_of_some hg (Draft.newNode?_eq_some hn).1, if_pos rfl, addNode_id hg]

end Graph

/-! ## Changes -/

/-- Whether an instruction is a select. -/
def Function.Chooses (f : Function) (id : InstId) : Prop :=
  ∃ i, f.instruction? id = some i ∧ i.isSelect = true

/-- Whether the node of a value may be asked for: a leaf is a parameter, or an instruction reads
it. -/
def Function.Asks (f : Function) (v : Operand) : Prop :=
  v.isLeaf = true → (∃ k < f.params.length, v = .param k) ∨
    ∃ id i, f.instruction? id = some i ∧ v ∈ i.operands

/-- An operand of an instruction may be asked for. -/
theorem Function.asks_of_mem {f : Function} {id : InstId} {i : Instruction} {v : Operand}
    (hi : f.instruction? id = some i) (hv : v ∈ i.operands) : f.Asks v :=
  fun _ => Or.inr ⟨id, i, hi, hv⟩

/-- Whether the stream may be asked for: the options say so, and there is a branch. -/
def Function.Streams (f : Function) (options : LowerOptions) : Prop :=
  options.entryStream = true ∧
    ∃ id cond onTrue onFalse, f.instruction? id = some (.branch cond onTrue onFalse)

namespace Draft

/-- A node that an edge may enter: one in `T`, a steer that is recorded, or an operator that is no
phi. -/
inductive Enters (f : Function) (T : NodeId → Prop) (d : Draft) (n : NodeId) : Prop where
  | target : T n → Enters f T d n
  | steer {id p taken} : d.steers.lookup id = some p → SteerPair.side p taken = n → Enters f T d n
  | operator {x} : (f.instruction? x).any (·.isPhi) = false → d.operator? x = some n →
      Enters f T d n

/-- Draft `e` comes from `d` by changes whose edges enter nodes in `T`, steers and operators that
are no phis, that make pairs of steers for instructions in `P`, and that ask for nothing the
function does not ask for. -/
inductive Builds (f : Function) (options : LowerOptions) (T : NodeId → Prop) (P : InstId → Prop)
    (d : Draft) : Draft → Prop where
  | refl : Builds f options T P d d
  | connect {e : Draft} {a b : Option NodeId} : Builds f options T P d e →
      (∀ n, b = some n → e.Enters f T n) → Builds f options T P d (e.connect a b).1
  | nodeFor {e : Draft} {v : Operand} : Builds f options T P d e → f.Asks v →
      Builds f options T P d (e.nodeFor f v).1
  | promote {e : Draft} {v : Operand} : Builds f options T P d e → f.Asks v →
      Builds f options T P d (e.promote f v)
  | newPair {e : Draft} {id : InstId} : Builds f options T P d e → P id →
      e.steers.lookup id = none → Builds f options T P d (e.newPair id).1
  | streamNode {e : Draft} : Builds f options T P d e → f.Streams options →
      Builds f options T P d e.streamNode.1
  | report {e : Draft} {event : Event} : Builds f options T P d e →
      Builds f options T P d (e.report event)

variable {f : Function} {options : LowerOptions} {T : NodeId → Prop} {P P' : InstId → Prop}
  {d e g : Draft} {a b n : NodeId} {v : Operand} {id : InstId} {p : SteerPair}

/-- Proper changes follow one another. -/
theorem Builds.trans (hde : Builds f options T P d e) (heg : Builds f options T P e g) :
    Builds f options T P d g := by
  induction heg with
  | refl => exact hde
  | connect _ hb ih => exact ih.connect hb
  | nodeFor _ hv ih => exact ih.nodeFor hv
  | promote _ hv ih => exact ih.promote hv
  | newPair _ hp hnew ih => exact ih.newPair hp hnew
  | streamNode _ hs ih => exact ih.streamNode hs
  | report _ ih => exact ih.report

theorem promote_steers (d : Draft) (v : Operand) : (d.promote f v).steers = d.steers := by
  unfold promote
  cases hnode : d.nodeFor f v with
  | mk e found =>
      have hsteers : e.steers = d.steers := congrArg (fun r => r.1.steers) hnode.symm
      cases found <;> exact hsteers

theorem streamNode_steers (d : Draft) : d.streamNode.1.steers = d.steers := by
  unfold streamNode
  split <;> rfl

/-- Recorded pairs stay. -/
theorem Builds.steers (h : Builds f options T P d e) (hp : d.steers.lookup id = some p) :
    e.steers.lookup id = some p := by
  induction h with
  | refl => exact hp
  | connect _ _ ih | nodeFor _ _ ih | report _ ih => exact ih
  | promote _ _ ih => rwa [promote_steers]
  | streamNode _ _ ih => rwa [streamNode_steers]
  | @newPair e x _ _ hnew ih =>
      rw [lookup_newPair]
      split
      · rename_i hx
        rw [hx, hnew] at ih
        cases ih
      · exact ih

/-- New pairs are recorded before the old ones. -/
theorem Builds.record (h : Builds f options T P d e) : d.steers <:+ e.steers := by
  induction h with
  | refl => exact List.suffix_refl _
  | connect _ _ ih | nodeFor _ _ ih | report _ ih => exact ih
  | promote _ _ ih => rwa [promote_steers]
  | streamNode _ _ ih => rwa [streamNode_steers]
  | newPair _ _ _ ih => exact ih.trans (List.suffix_cons _ _)

/-- A pair that was made belongs to an instruction in `P`. -/
theorem Builds.pair (h : Builds f options T P d e) (hp : e.steers.lookup id = some p) :
    d.steers.lookup id = some p ∨ P id := by
  induction h with
  | refl => exact Or.inl hp
  | connect _ _ ih | nodeFor _ _ ih | report _ ih => exact ih hp
  | promote _ _ ih => exact ih (by rwa [promote_steers] at hp)
  | streamNode _ _ ih => exact ih (by rwa [streamNode_steers] at hp)
  | newPair _ hx _ ih =>
      rw [lookup_newPair] at hp
      split at hp
      · rename_i hid
        exact Or.inr (hid ▸ hx)
      · exact ih hp

/-! ### What changes keep -/

/-- Giving a condition an operator keeps the operators there are. -/
theorem keeps_promote (hd : d.graph.Full) (v : Operand) :
    d.graph.Keeps (d.promote f v).graph := by
  have hkeep := Graph.keeps_nodeFor hd f v
  unfold promote
  cases hnode : d.nodeFor f v with
  | mk e found =>
      have hgraph : e.graph = (d.graph.nodeFor f v).1 :=
        congrArg (fun r => r.1.graph) hnode.symm
      rw [← hgraph] at hkeep
      cases found with
      | none => exact hkeep
      | some i =>
          refine hkeep.trans (Graph.keeps_modifyNode hkeep.full (fun n => ?_) fun n _ hn => ?_)
          · split <;> rfl
          · rw [if_neg hn]

/-- A new pair of steers keeps all nodes. -/
theorem keeps_newPair (hd : d.graph.Full) (id : InstId) :
    d.graph.Keeps (d.newPair id).1.graph := by
  have htrue := Graph.keeps_addNode hd (n := { kind := .trueSteer, label := "T" }) (by simp)
  exact htrue.trans (Graph.keeps_addNode htrue.full (n := { kind := .falseSteer, label := "F" })
    (by simp))

/-- A stream keeps all nodes. -/
theorem keeps_streamNode (hd : d.graph.Full) : d.graph.Keeps d.streamNode.1.graph := by
  unfold streamNode
  split
  · exact .refl hd
  · exact Graph.keeps_addNode hd (n := { kind := .stream, label := "STR" }) (by simp)

/-- Values keep their node, and nodes the operator they have. -/
theorem Builds.keeps (h : Builds f options T P d e) (hd : d.graph.Full) :
    d.graph.Keeps e.graph := by
  induction h with
  | refl => exact .refl hd
  | connect _ _ ih => exact ih.trans (Graph.keeps_connect ih.full)
  | nodeFor _ _ ih => exact ih.trans (Graph.keeps_nodeFor ih.full f _)
  | promote _ _ ih => exact ih.trans (keeps_promote ih.full _)
  | newPair _ _ _ ih => exact ih.trans (keeps_newPair ih.full _)
  | streamNode _ _ ih => exact ih.trans (keeps_streamNode ih.full)
  | report _ ih => exact ih

/-- What asking for a node does to one that is there. -/
theorem node?_nodeFor (hd : d.graph.Full) (v : Operand) {m : Node}
    (hm : d.graph.node? n = some m) : (d.nodeFor f v).1.graph.node? n = some m := by
  have hgraph : (d.nodeFor f v).1.graph = (d.graph.nodeFor f v).1 := rfl
  rw [hgraph]
  rcases d.graph.nodeFor_cases f v with ⟨hsame, _⟩ | ⟨_, new, _, hnew⟩
  · rw [hsame, hm]
  · rw [hnew, Graph.node?_addNode hd, if_neg (Nat.ne_of_lt (Graph.lt_length_of_node? hm)), hm]

/-- A node that has an operator stays as it is. -/
theorem Builds.node? (h : Builds f options T P d e) (hd : d.graph.Full) {m : Node}
    (hm : d.graph.node? n = some m) (hk : m.kind ≠ .unknown) : e.graph.node? n = some m := by
  induction h with
  | refl => exact hm
  | connect _ _ ih => exact (Graph.node?_connect _ _).trans ih
  | nodeFor hb _ ih => exact node?_nodeFor (hb.keeps hd).full _ ih
  | @promote e v hb _ ih =>
      have hnode := node?_nodeFor (f := f) (hb.keeps hd).full v ih
      unfold Draft.promote
      cases hasked : e.nodeFor f v with
      | mk g i =>
          rw [hasked] at hnode
          cases i with
          | none => exact hnode
          | some i =>
              simp only [Graph.node?_modifyNode, hnode]
              split
              · rw [Option.map_some, if_neg hk]
              · rfl
  | newPair hb _ _ ih =>
      have hlt := Graph.lt_length_of_node? ih
      rw [node?_newPair (hb.keeps hd).full, if_neg (Nat.ne_of_lt (Nat.lt_succ_of_lt hlt)),
        if_neg (Nat.ne_of_lt hlt), ih]
  | @streamNode e hb _ ih =>
      unfold Draft.streamNode
      split
      · exact ih
      · exact (Graph.node?_addNode (hb.keeps hd).full).trans
          ((if_neg (Nat.ne_of_lt (Graph.lt_length_of_node? ih))).trans ih)
  | report _ ih => exact ih

/-- An instruction has the node of its result when that node has an operator. -/
theorem operator?_eq_some_kind : d.operator? id = some n ↔
    d.graph.find? (.result id) = some n ∧ ∃ k, d.graph.kind? n = some k ∧ k ≠ .unknown := by
  rw [operator?_eq_some]
  refine and_congr_right fun _ => ⟨fun hex => ?_, fun hex => ?_⟩
  · obtain ⟨m, hm, hk⟩ := hex
    exact ⟨m.kind, Graph.kind?_eq_some.mpr ⟨m, hm, rfl⟩, hk⟩
  · obtain ⟨k, hkind, hk⟩ := hex
    obtain ⟨m, hm, rfl⟩ := Graph.kind?_eq_some.mp hkind
    exact ⟨m, hm, hk⟩

/-- An operator stays one. -/
theorem operator?_of_keeps (h : d.graph.Keeps e.graph) (hop : d.operator? id = some n) :
    e.operator? id = some n := by
  obtain ⟨hfind, k, hkind, hk⟩ := operator?_eq_some_kind.mp hop
  exact operator?_eq_some_kind.mpr ⟨h.owner hfind, k, h.kind hkind hk, hk⟩

@[simp] theorem operator?_connect {a b : Option NodeId} :
    (d.connect a b).1.operator? id = d.operator? id := by
  simp only [operator?, connect, Graph.find?_connect, Graph.kind?_connect]

/-- What an edge may enter it may enter later. -/
theorem Enters.later (h : d.Enters f T n) (hb : Builds f options T P d e) (hd : d.graph.Full) :
    e.Enters f T n := by
  cases h with
  | target ht => exact .target ht
  | steer hp hn => exact .steer (hb.steers hp) hn
  | operator hx hop => exact .operator hx (operator?_of_keeps (hb.keeps hd) hop)

/-! ### What changes add -/

theorem hasEdge_nodeFor (v : Operand) :
    (d.nodeFor f v).1.graph.hasEdge a b = d.graph.hasEdge a b := by
  have hgraph : (d.graph.nodeFor f v).1.hasEdge a b = d.graph.hasEdge a b := by
    rcases d.graph.nodeFor_cases f v with ⟨hsame, _⟩ | ⟨_, n, _, hnew⟩
    · rw [hsame]
    · rw [hnew, Graph.hasEdge_addNode]
  exact hgraph

theorem hasEdge_promote (v : Operand) :
    (d.promote f v).graph.hasEdge a b = d.graph.hasEdge a b := by
  have hnodeFor := hasEdge_nodeFor (f := f) (d := d) (a := a) (b := b) v
  unfold promote
  cases hnode : d.nodeFor f v with
  | mk e found =>
      rw [hnode] at hnodeFor
      cases found <;> exact hnodeFor

theorem hasEdge_streamNode : d.streamNode.1.graph.hasEdge a b = d.graph.hasEdge a b := by
  unfold Draft.streamNode
  split <;> rfl

/-- New edges enter where they may. -/
theorem Builds.edge (h : Builds f options T P d e) (hd : d.graph.Full)
    (hab : e.graph.hasEdge a b) : d.graph.hasEdge a b ∨ e.Enters f T b := by
  have hlater : ∀ {g k}, Builds f options T P g k → g.graph.Full → g.Enters f T b →
      k.Enters f T b := fun hb hg hn => hn.later hb hg
  induction h with
  | refl => exact Or.inl hab
  | @connect e x y hbuilds hy ih =>
      have hfull := (hbuilds.keeps hd).full
      have hstep : Builds f options T P e (e.connect x y).1 := Builds.refl.connect hy
      rcases e.graph.connect_cases x y with hsame | ⟨s, t, rfl, rfl, hs, ht⟩
      · have hold : e.graph.hasEdge a b := by
          rw [← hsame]
          exact hab
        exact (ih hold).imp_right (hlater hstep hfull)
      · rcases (Graph.hasEdge_connect hs ht).mp hab with hold | ⟨_, rfl⟩
        · exact (ih hold).imp_right (hlater hstep hfull)
        · exact Or.inr ((hy b rfl).later hstep hfull)
  | nodeFor hbuilds hv ih =>
      rw [hasEdge_nodeFor] at hab
      exact (ih hab).imp_right (hlater (.nodeFor .refl hv) (hbuilds.keeps hd).full)
  | promote hbuilds hv ih =>
      rw [hasEdge_promote] at hab
      exact (ih hab).imp_right (hlater (.promote .refl hv) (hbuilds.keeps hd).full)
  | newPair hbuilds hx hnew ih =>
      exact (ih hab).imp_right (hlater (.newPair .refl hx hnew) (hbuilds.keeps hd).full)
  | streamNode hbuilds hs ih =>
      rw [hasEdge_streamNode] at hab
      exact (ih hab).imp_right (hlater (.streamNode .refl hs) (hbuilds.keeps hd).full)
  | report hbuilds ih =>
      exact (ih hab).imp_right (hlater (.report .refl) (hbuilds.keeps hd).full)

/-! ## What lowering is made of -/

/-- An edge into what may be fed is a proper change. -/
theorem Builds.link (h : Builds f options T P d e) (hb : e.Enters f T b) :
    Builds f options T P d (e.link a b) :=
  h.connect fun n hn => by rwa [← Option.some.inj hn]

/-- Steps that are each made of changes. -/
theorem foldl_builds {α : Type} {k : Draft → α → Draft} {l : List α}
    (hstep : ∀ e x, x ∈ l → Builds f options T P d e → Builds f options T P e (k e x)) :
    Builds f options T P d (l.foldl k d) :=
  List.foldlRecOn l k (motive := Builds f options T P d) .refl fun e he x hx =>
    he.trans (hstep e x hx he)

/-- A way to wire is made of changes where the value may be asked for and edges may enter the
target. -/
def WireBuilds (f : Function) (options : LowerOptions) (T : NodeId → Prop) (P : InstId → Prop)
    (wire : Operand → NodeId → Draft → Draft) : Prop :=
  ∀ v target d, f.Asks v → d.graph.Full → d.Enters f T target →
    Builds f options T P d (wire v target d)

section Steers

variable {wire : Operand → NodeId → Draft → Draft} (hwire : WireBuilds f options T P wire)

include hwire

/-- Opening a pair of steers is a proper change, and records it. -/
theorem openSteers_builds {cond : Operand} {onTrue onFalse : Option Operand} (hd : d.graph.Full)
    (hid : P id) (hnew : d.steers.lookup id = none) (hcond : f.Asks cond)
    (htrue : ∀ v ∈ onTrue, f.Asks v) (hfalse : ∀ v ∈ onFalse, f.Asks v) :
    Builds f options T P d (d.openSteers f wire id cond onTrue onFalse).1 ∧
      (d.openSteers f wire id cond onTrue onFalse).1.steers.lookup id =
        some (d.openSteers f wire id cond onTrue onFalse).2 := by
  have hpair : Builds f options T P d ((d.promote f cond).newPair id).1 :=
    .newPair (.promote .refl hcond) hid (by rwa [promote_steers])
  have hp : ((d.promote f cond).newPair id).1.steers.lookup id =
      some ((d.promote f cond).newPair id).2 := by
    rw [newPair_steers, List.lookup_cons_self]
  rw [openSteers_eq]
  simp only
  generalize ((d.promote f cond).newPair id).1 = d₁ at hpair hp ⊢
  generalize ((d.promote f cond).newPair id).2 = p at hp ⊢
  have hside : ∀ e, Builds f options T P d e → e.steers.lookup id = some p →
      ∀ (v : Option Operand) taken, (∀ w ∈ v, f.Asks w) →
      Builds f options T P d (wireOption wire v (p.side taken) e) ∧
        (wireOption wire v (p.side taken) e).steers.lookup id = some p := by
    intro e he hlookup v taken hv
    cases v with
    | none => exact ⟨he, hlookup⟩
    | some w =>
        have hw := hwire w (p.side taken) e (hv w rfl) (he.keeps hd).full (.steer hlookup rfl)
        exact ⟨he.trans hw, hw.steers hlookup⟩
  have hboth : ∀ w ∈ some cond, f.Asks w := fun w hw => Option.mem_some.mp hw ▸ hcond
  obtain ⟨h₂, hp₂⟩ := hside d₁ hpair hp (some cond) true hboth
  obtain ⟨h₃, hp₃⟩ := hside _ h₂ hp₂ (some cond) false hboth
  obtain ⟨h₄, hp₄⟩ := hside _ h₃ hp₃ onTrue true htrue
  exact hside _ h₄ hp₄ onFalse false hfalse

omit hwire in
/-- Feeding a user is a proper change. -/
theorem feedUser_builds (user : InstId) : Builds f options T P d (d.feedUser f p user) := by
  unfold feedUser
  cases hphi : (f.instruction? user).any (·.isPhi) with
  | true => exact .refl
  | false =>
      cases hop : d.operator? user with
      | none => exact .refl
      | some n =>
          have hfirst : Builds f options T P d (d.link p.onTrue n) :=
            Builds.refl.link (.operator hphi hop)
          exact hfirst.link (.operator hphi (operator?_connect.trans hop))

/-- Making the steers of a select is a proper change. -/
theorem selectSteers_builds (hchoice : ∀ x, f.Chooses x → P x) (hd : d.graph.Full) (id : InstId) :
    Builds f options T P d (d.selectSteers f wire id).1 := by
  unfold selectSteers
  split
  · exact .refl
  · rename_i hnew
    split
    · rename_i hi
      have hasks : ∀ {v}, v ∈ Instruction.operands _ → f.Asks v := Function.asks_of_mem hi
      refine (openSteers_builds hwire hd (hchoice id ⟨_, hi, rfl⟩) hnew ?_ ?_ ?_).1.trans
        (foldl_builds fun e user _ _ => feedUser_builds user)
      · exact hasks (by simp [Instruction.operands])
      · exact fun v hv => hasks (by simp_all [Instruction.operands])
      · exact fun v hv => hasks (by simp_all [Instruction.operands])
    · exact .refl

end Steers

end Draft

section Feeding

variable {f : Function} {options : LowerOptions} {T : NodeId → Prop} {P : InstId → Prop}
  {d : Draft} {s : Feed} {target : NodeId} {v : Operand}

/-- Wiring by a search is a proper change when the search is. -/
theorem wireBy_builds {search : Operand → NodeId → Feed → Feed}
    (h : Draft.Builds f options T P d (search v target { draft := d }).draft) :
    Draft.Builds f options T P d (d.wireBy f search v target) := by
  simp only [Draft.wireBy]
  split
  · exact h
  · exact h.report

/-- After some changes an edge may be added into the target of a search. -/
theorem Feed.into_builds {e : Draft} {a : Option NodeId} (hd : d.graph.Full)
    (htarget : d.Enters f T target) (he : Draft.Builds f options T P d e) :
    Draft.Builds f options T P d (e.connect a (some target)).1 :=
  he.connect fun _ hn => Option.some.inj hn ▸ htarget.later he hd

/-- A search is made of changes, and its edges enter its target. -/
theorem feed_builds (hchoice : ∀ x, f.Chooses x → P x) (depth : Nat) (hv : f.Asks v)
    (hd : s.draft.graph.Full) (htarget : s.draft.Enters f T target) :
    Draft.Builds f options T P s.draft (feed f depth v target s).draft := by
  induction depth generalizing v target s with
  | zero =>
      cases v with
      | function | result => exact .refl
      | param | const | global => exact Feed.into_builds hd htarget (.nodeFor .refl hv)
  | succ depth ih =>
      cases v with
      | function => exact .refl
      | param | const | global => exact Feed.into_builds hd htarget (.nodeFor .refl hv)
      | result id =>
          by_cases hid : id ∈ s.visited
          · rw [feed_of_mem hid]
            exact .refl
          cases hi : f.instruction? id with
          | none =>
              simp only [feed, if_neg hid, hi]
              exact .refl
          | some i =>
              cases hsel : i.isSelect with
              | true =>
                  -- steers that are made on the way are fed by searches of their own
                  have hwire : Draft.WireBuilds f options T P (Draft.wireBy f (feed f depth)) :=
                    fun w t e hw he ht => wireBy_builds (ih (s := { draft := e }) hw he ht)
                  have hsteers := Draft.selectSteers_builds hwire hchoice hd id
                  have hd' := (hsteers.keeps hd).full
                  have htarget' := htarget.later hsteers hd
                  cases i with
                  | select =>
                      simp only [feed, if_neg hid, hi]
                      split
                      · rename_i heq
                        rw [heq] at hsteers
                        exact hsteers
                      · rename_i e p heq
                        rw [heq] at hsteers hd' htarget'
                        exact hsteers.trans (Feed.into_builds (a := some p.onFalse) hd' htarget'
                          (Feed.into_builds (a := some p.onTrue) hd' htarget' .refl))
                  | _ => cases hsel
              | false =>
                  cases hop : s.draft.operator? id with
                  | some n =>
                      rw [feed_of_operator hid hi hsel hop]
                      exact Feed.into_builds (a := some n) hd htarget .refl
                  | none =>
                      rw [feed_of_open hid hi hsel hop]
                      exact (foldl_keeps (s := s.visit id)
                        (R := fun t u => Draft.Builds f options T P t.draft u.draft)
                        (fun _ => .refl) .trans
                        (P := fun t => t.draft.graph.Full ∧ t.draft.Enters f T target)
                        (g := fun t w => feed f depth w target t)
                        (fun t w hw _ ht => by
                          have hb := ih (v := w) (Function.asks_of_mem hi hw) ht.1 ht.2
                          exact ⟨⟨(hb.keeps ht.1).full, ht.2.later hb ht.1⟩, hb⟩)
                        ⟨hd, htarget⟩).2

end Feeding

namespace Draft

variable {f : Function} {T : NodeId → Prop} {P : InstId → Prop} {d : Draft} {v : Operand}
  {target : NodeId} {id : InstId} {p : SteerPair} {options : LowerOptions}

/-- Wiring a value in lowering is a proper change. -/
theorem wire_builds (hchoice : ∀ x, f.Chooses x → P x) : WireBuilds f options T P (wire f) :=
  fun _ _ d hv hd htarget => wireBy_builds (feed_builds hchoice f.feedDepth (s := { draft := d })
    hv hd htarget)

end Draft

end Dataflow
