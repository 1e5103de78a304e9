import Dataflow.Proofs.Lowering.Kinds

/-!
# The reasons for nodes

Before nodes go, every node of a draft stands for a value that the function asks for, or is a side
of a recorded pair of steers, or is the stream (`Draft.Reasoned`). The operator of a node is one
that its value can have (`Function.Suits`). Every change keeps this (`Draft.Builds.reasoned`), since
what stands for no value never changes, and so does every stage (`Draft.reasoned_before_cleanup`).
In the finished graph the stream can thus be told by its operator (`Draft.stream_of_kind`). Nothing
is asked of the function.
-/

namespace Dataflow

/-! ## The invariant -/

/-- An operator that the node of a value can have on the way. -/
inductive Function.Suits (f : Function) : Operand → Operator → Prop where
  /-- A parameter is an input. -/
  | param {k} : f.Suits (.param k) .functionInput
  /-- A literal is a constant. -/
  | const {c} : f.Suits (.const c) .constant
  /-- So is a global. -/
  | global {name} : f.Suits (.global name) .constant
  /-- An instruction has no operator at first. -/
  | idle {id} : f.Suits (.result id) .unknown
  /-- Then it has the one of its role. -/
  | role {id i r} : f.instruction? id = some i → i.role? = some r → f.Suits (.result id) r.kind
  /-- If it has none by its role it gets one as a condition. -/
  | decider {id} : f.Suits (.result id) .binaryOp
  /-- A phi may become a carry. -/
  | carry {id block arms} : f.IsJoin id block arms → f.Suits (.result id) .carry

namespace Draft

/-- The operator of the steer of one side. -/
def steerKind (taken : Bool) : Operator := if taken then .trueSteer else .falseSteer

/-- The reasons for a node. -/
inductive NodeReason (f : Function) (options : LowerOptions) (d : Draft) (n : NodeId)
    (node : Node) : Prop where
  /-- It stands for a value that may be asked for. -/
  | value {v} : node.origin = some v → f.Asks v → f.Suits v node.kind →
      NodeReason f options d n node
  /-- It is a side of a recorded pair of steers. -/
  | steer {id p taken} : node.origin = none → node.kind = steerKind taken →
      d.steers.lookup id = some p → SteerPair.side p taken = n → NodeReason f options d n node
  /-- It is the stream. -/
  | stream : node.origin = none → node.kind = .stream → d.stream = some n → f.Streams options →
      NodeReason f options d n node

/-- Every node has a reason. -/
def Reasoned (f : Function) (options : LowerOptions) (d : Draft) : Prop :=
  ∀ n node, d.graph.node? n = some node → d.NodeReason f options n node

end Draft

variable {f : Function} {forest : LoopForest} {options : LowerOptions} {d e : Draft}
  {id : InstId} {i : Instruction} {v : Operand} {n join : NodeId} {r : Role} {node : Node}
  {kind : Operator}

/-! ## Operators of values -/

/-- A new node has an operator that suits its value. -/
theorem Function.suits_of_newNode? (h : f.newNode? v = some node) : f.Suits v node.kind := by
  cases v with
  | function => cases h
  | param =>
      cases h
      exact .param
  | const =>
      cases h
      exact .const
  | global =>
      cases h
      exact .global
  | result =>
      simp only [newNode?] at h
      split at h
      · cases h
        exact .idle
      · cases h

/-- A node without an operator stands for an instruction, so it may become the operator of a
condition. -/
theorem Function.Suits.promote (h : f.Suits v kind) (hkind : kind = .unknown) :
    f.Suits v .binaryOp := by
  cases h with
  | param | const | global => cases hkind
  | idle | role | decider | carry => exact .decider

/-- No instruction has the part of a stream. -/
theorem Instruction.kind_of_role?_ne_stream (h : i.role? = some r) : r.kind ≠ .stream := by
  cases i with
  | compare test =>
      cases test <;> simp only [role?, Option.some.injEq] at h <;> subst h <;> simp
  | ret value =>
      cases value with
      | none => cases h
      | some v =>
          simp only [role?, Option.some.injEq] at h
          subst h
          simp
  | call ty callee args =>
      simp only [role?, Option.some.injEq] at h
      subst h
      unfold callRole
      split
      · split
        · simp
        · split <;> simp
      · simp
  | binary | load | store | phi | alloca =>
      simp only [role?, Option.some.injEq] at h
      subst h
      simp
  | elementPtr | cast | select | jump | branch | unreachable => cases h

/-- No value has a stream for its node. -/
theorem Function.Suits.ne_stream (h : f.Suits v kind) : kind ≠ .stream := by
  cases h with
  | role _ hrole => exact Instruction.kind_of_role?_ne_stream hrole
  | _ => simp

namespace Draft

/-- A reason stays one as long as pairs and the stream are kept. -/
theorem NodeReason.later (h : d.NodeReason f options n node)
    (hsteers : ∀ {id p}, d.steers.lookup id = some p → e.steers.lookup id = some p)
    (hstream : ∀ {m}, d.stream = some m → e.stream = some m) : e.NodeReason f options n node := by
  cases h with
  | value horigin hasks hsuits => exact .value horigin hasks hsuits
  | steer horigin hkind hp hside => exact .steer horigin hkind (hsteers hp) hside
  | stream horigin hkind hn hs => exact .stream horigin hkind (hstream hn) hs

/-- The same nodes, pairs and stream. -/
theorem Reasoned.congr (h : d.Reasoned f options)
    (hnode : ∀ m, e.graph.node? m = d.graph.node? m) (hsteers : e.steers = d.steers)
    (hstream : e.stream = d.stream) : e.Reasoned f options := by
  intro n node hn
  rw [hnode] at hn
  exact (h n node hn).later (fun hp => by rwa [hsteers]) fun hm => by rwa [hstream]

section Steps

variable (h : d.Reasoned f options) (hd : d.graph.Full)

include h hd

/-- Adding a node for a reason. -/
theorem Reasoned.addNode (hnew : d.NodeReason f options d.graph.nodes.length node) :
    (d.addNode node).1.Reasoned f options := by
  intro m old hm
  have hm' : (d.graph.addNode node).1.node? m = some old := hm
  rw [Graph.node?_addNode hd] at hm'
  split at hm'
  · rename_i hlast
    subst hlast
    cases hm'
    exact hnew.later (fun hp => hp) fun hs => hs
  · exact (h m _ hm').later (fun hp => hp) fun hs => hs

/-- Changing the operator of the node of a value to another one that suits. -/
theorem Reasoned.modifyNode (hv : d.graph.find? v = some n) {change : Node → Node}
    (horigin : ∀ node, (change node).origin = node.origin)
    (hsuits : ∀ node, f.Suits v node.kind → f.Suits v (change node).kind) :
    Reasoned f options { d with graph := d.graph.modifyNode n change } := by
  intro m node hm
  rw [Graph.node?_modifyNode] at hm
  split at hm
  · rename_i hmn
    subst hmn
    obtain ⟨old, hold, rfl⟩ := Option.map_eq_some_iff.mp hm
    obtain ⟨owner, howner, hvalue⟩ := hd.owner hv
    rw [hold] at howner
    cases howner
    cases h m old hold with
    | value hw hasks hsuit =>
        rw [hvalue] at hw
        cases hw
        exact .value ((horigin old).trans hvalue) hasks (hsuits old hsuit)
    | steer hnone | stream hnone =>
        rw [hvalue] at hnone
        cases hnone
  · exact (h m _ hm).later (fun hp => hp) fun hs => hs

/-- The node of a value that may be asked for has a reason. -/
theorem Reasoned.nodeFor (hv : f.Asks v) : (d.nodeFor f v).1.Reasoned f options := by
  have hgraph : (d.nodeFor f v).1.graph = (d.graph.nodeFor f v).1 := rfl
  rcases d.graph.nodeFor_cases f v with ⟨hsame, _⟩ | ⟨_, node, hnode, hnew⟩
  · exact h.congr (fun m => by rw [hgraph, hsame]) rfl rfl
  · have hadd := h.addNode hd
      (.value (newNode?_eq_some hnode).1 hv (Function.suits_of_newNode? hnode))
    exact hadd.congr (fun m => by rw [hgraph, hnew]; rfl) rfl rfl

/-- So has the operator of a condition. -/
theorem Reasoned.promote (hv : f.Asks v) : (d.promote f v).Reasoned f options := by
  have hnode := h.nodeFor hd hv
  have hkeep : d.graph.Keeps (d.nodeFor f v).1.graph := Graph.keeps_nodeFor hd f v
  have hfind : (d.nodeFor f v).1.graph.find? v = (d.nodeFor f v).2 := Graph.find?_nodeFor hd
  unfold Draft.promote
  split
  · rename_i heq
    rwa [heq] at hnode
  · rename_i heq
    rw [heq] at hnode hkeep hfind
    refine hnode.modifyNode hkeep.full hfind (fun node => ?_) fun node hsuits => ?_
    · split <;> rfl
    · split
      · rename_i hunknown
        exact hsuits.promote hunknown
      · exact hsuits

/-- A new pair of steers is for the choice it is recorded for. -/
theorem Reasoned.newPair (hnew : d.steers.lookup id = none) :
    (d.newPair id).1.Reasoned f options := by
  intro m node hm
  have hpair : (d.newPair id).1.steers.lookup id = some (d.newPair id).2 := by
    rw [lookup_newPair, if_pos rfl]
  have hside : ∀ taken, (d.newPair id).2.side taken =
      if taken then d.graph.nodes.length else d.graph.nodes.length + 1 := by
    intro taken
    rw [newPair_side hd id]
    rfl
  rw [node?_newPair hd] at hm
  split at hm
  · rename_i hfalse
    cases hm
    exact .steer rfl rfl hpair ((hside false).trans hfalse.symm)
  · split at hm
    · rename_i htrue
      cases hm
      exact .steer rfl rfl hpair ((hside true).trans htrue.symm)
    · refine (h m _ hm).later (fun {x p} hp => ?_) fun hs => hs
      rw [lookup_newPair, if_neg]
      · exact hp
      · -- the instruction had no pair before
        intro hx
        rw [hx, hnew] at hp
        cases hp

/-- The stream is there for the option that asks for it. -/
theorem Reasoned.streamNode (hs : f.Streams options) : d.streamNode.1.Reasoned f options := by
  unfold Draft.streamNode
  split
  · exact h
  · rename_i hnone
    intro m node hm
    have hm' : (d.graph.addNode { kind := .stream, label := "STR" }).1.node? m = some node := hm
    rw [Graph.node?_addNode hd] at hm'
    split at hm'
    · rename_i hlast
      cases hm'
      refine .stream rfl rfl ?_ hs
      rw [hlast, ← Graph.addNode_id hd (n := { kind := .stream, label := "STR" })]
      rfl
    · refine (h m _ hm').later (fun hp => hp) fun hold => ?_
      rw [hnone] at hold
      cases hold

/-- The node of an instruction has the reason of its role. -/
theorem Reasoned.addRole (hi : f.instruction? id = some i) :
    (d.addRole f (id, i)).Reasoned f options := by
  have hnode := h.nodeFor hd (v := .result id) fun hleaf => by cases hleaf
  have hkeep : d.graph.Keeps (d.nodeFor f (.result id)).1.graph :=
    Graph.keeps_nodeFor hd f (.result id)
  have hfind : (d.nodeFor f (.result id)).1.graph.find? (.result id) =
      (d.nodeFor f (.result id)).2 := Graph.find?_nodeFor hd
  unfold Draft.addRole
  split
  · exact h
  · rename_i role hrole
    split
    · rename_i heq
      rwa [heq] at hnode
    · rename_i heq
      rw [heq] at hnode hkeep hfind
      refine hnode.modifyNode hkeep.full hfind (fun _ => rfl) fun node hsuits => ?_
      simp only
      split
      · exact hsuits
      · exact .role hi hrole

/-- A carry has the reason that its phi carries a loop. -/
theorem Reasoned.toCarry (hop : d.operator? id = some join) (hcarries : f.Carries forest id) :
    (d.toCarry join).Reasoned f options := by
  obtain ⟨block, arms, _, hjoin, _⟩ := hcarries
  exact h.modifyNode hd (operator?_eq_some.mp hop).1 (fun _ => rfl) fun _ _ => .carry hjoin

end Steps

/-- Changes add nodes for a reason only. -/
theorem Builds.reasoned {T : NodeId → Prop} {P : InstId → Prop} (hb : Builds f options T P d e)
    (hd : d.graph.Full) (h : d.Reasoned f options) : e.Reasoned f options := by
  induction hb with
  | refl => exact h
  | connect _ _ ih => exact ih.congr (fun m => Graph.node?_connect _ _) rfl rfl
  | nodeFor hb hv ih => exact ih.nodeFor (hb.keeps hd).full hv
  | promote hb hv ih => exact ih.promote (hb.keeps hd).full hv
  | newPair hb _ hnew ih => exact ih.newPair (hb.keeps hd).full hnew
  | streamNode hb hs ih => exact ih.streamNode (hb.keeps hd).full hs
  | report _ ih => exact ih.congr (fun _ => rfl) rfl rfl

/-! ## Stages -/

/-- The first stage adds nodes for instructions only. -/
theorem nodes_reasoned (f : Function) (forest : LoopForest) (options : LowerOptions) :
    (Draft.enter f forest options {} .nodes).Reasoned f options := by
  have hstart : Plays f (({} : Draft).report (.stage f.name Stage.nodes.name)) :=
    ⟨Graph.full_empty, fun hn => by cases hn⟩
  exact (List.foldlRecOn f.steps (Draft.addRole f)
    (motive := fun e : Draft => Plays f e ∧ e.Reasoned f options)
    ⟨hstart, fun n node hn => by simp [Draft.report, Graph.node?] at hn⟩ fun e he step hstep =>
      have hi := (Function.mem_steps.mp hstep).2
      ⟨(he.1.addRole hi).1, he.2.addRole he.1.full hi⟩).2

/-- Before nodes go every node has a reason. -/
theorem reasoned_before_cleanup (f : Function) (forest : LoopForest) (options : LowerOptions) :
    ([Stage.nodes, .steers, .leaves, .results, .joins, .memory].foldl
      (Draft.enter f forest options) {}).Reasoned f options := by
  have hrun : [Stage.nodes, .steers, .leaves, .results, .joins, .memory].foldl
      (Draft.enter f forest options) {} = Draft.enter f forest options
        ([Stage.steers, .leaves, .results, .joins].foldl (Draft.enter f forest options)
          (Draft.enter f forest options {} .nodes)) .memory := rfl
  rw [hrun]
  obtain ⟨⟨hd, _⟩, _⟩ := nodes_plays f forest options
  obtain ⟨_, hjoins⟩ := foldl_enter_induct f forest options _
    (I := fun e => e.Reasoned f options) (fun hd hb h => hb.reasoned hd h)
    (fun hd hop hcarries h => h.toCarry hd hop hcarries) (fun _ hs => hs) hd
    (nodes_reasoned f forest options)
  have hloads := memory_feedsInto f forest options
    ([Stage.steers, .leaves, .results, .joins].foldl (Draft.enter f forest options)
      (Draft.enter f forest options {} .nodes))
  exact hjoins.congr (fun m => hloads.node?) hloads.steers hloads.stream

/-- In the finished graph the stream is the node whose operator says so. -/
theorem stream_of_kind (h : (f.lowering forest options).graph.kind? n = some .stream) :
    (f.lowering forest options).stream = some n := by
  have hrun : f.lowering forest options = Draft.enter f forest options
      ([Stage.nodes, .steers, .leaves, .results, .joins, .memory].foldl
        (Draft.enter f forest options) {}) .cleanup := rfl
  have hreason := reasoned_before_cleanup f forest options
  rw [hrun] at h ⊢
  generalize [Stage.nodes, .steers, .leaves, .results, .joins, .memory].foldl
    (Draft.enter f forest options) {} = d at h hreason ⊢
  rw [stream_enter_cleanup]
  obtain ⟨node, hnode, hkind⟩ := Graph.kind?_eq_some.mp h
  rw [graph_enter_cleanup, Graph.node?_foldl_removeNode] at hnode
  split at hnode
  · cases hnode
  cases hreason n node hnode with
  | value _ _ hsuits => exact absurd hkind hsuits.ne_stream
  | @steer _ _ taken _ hsteer =>
      rw [hkind] at hsteer
      cases taken <;> cases hsteer
  | stream _ _ hn => exact hn

end Draft

end Dataflow
