import Dataflow.Proofs.Lowering.LoopWarnings

/-!
# What lowering asks for

Lowering changes a draft by requests: for the node of a value, a pair of steers, an edge, a removal
and so on. `Requests` tells, for each step of lowering, the requests that it makes of a draft, in
order; `Draft.replay` serves them. A request is proper in a draft (`Request.Proper`) if an edge has
both its ends there, if what is removed is there, and if no other warning is reported than that of a
carry. `Draft.Serves` says that each of some requests is proper when it is made and where they lead.
What a draft holds of a graph stays there as long as nothing is removed (`Draft.Serves.intact`), so
a search for producers makes only proper requests (`Requests.feed_serves`).
-/

namespace Dataflow

/-- One thing that lowering asks for. -/
inductive Request where
  /-- The node of a value, which is made if there is none yet. -/
  | node (v : Operand)
  /-- A node that shows the role of an instruction. -/
  | role (step : InstId × Instruction)
  /-- An operator for the node of a condition. -/
  | promotion (cond : Operand)
  /-- A pair of steers. -/
  | pair (id : InstId)
  /-- The stream node, which is made if there is none yet. -/
  | stream
  /-- That a node becomes a carry. -/
  | carry (i : NodeId)
  /-- An edge. -/
  | edge (a b : Option NodeId)
  /-- The removal of a node. -/
  | removal (i : NodeId)
  /-- An event for the journal. -/
  | report (e : Event)
deriving DecidableEq

/-- Whether a request is for a removal. -/
def Request.isRemoval : Request → Bool
  | removal _ => true
  | _ => false

namespace Draft

/-- The draft after a request. -/
def serve (f : Function) (d : Draft) : Request → Draft
  | .node v => (d.nodeFor f v).1
  | .role step => d.addRole f step
  | .promotion cond => d.promote f cond
  | .pair id => (d.newPair id).1
  | .stream => d.streamNode.1
  | .carry i => d.toCarry i
  | .edge a b => (d.connect a b).1
  | .removal i => { d with graph := (d.graph.remove (some i)).graph }
  | .report e => d.report e

/-- The draft after some requests, one after another. -/
def replay (f : Function) (d : Draft) (requests : List Request) : Draft :=
  requests.foldl (serve f) d

/-- There is a node of the given number. -/
def Live (d : Draft) (i : NodeId) : Prop := ∃ n, d.graph.node? i = some n

end Draft

/-- Whether a request can be served: an edge has both its ends in the graph, what is removed is
there, and no warning is reported but that of a carry. -/
def Request.Proper (d : Draft) : Request → Prop
  | edge a b => (∃ i j, a = some i ∧ b = some j ∧ d.Live i ∧ d.Live j) ∧ (d.connect a b).2 = true
  | removal i => d.Live i
  | report e => e.level = .warn → e.isUndecided = true
  | _ => True

/-- Both steers of a pair have a number below `n`. -/
def SteerPair.Below (p : SteerPair) (n : Nat) : Prop := p.onTrue < n ∧ p.onFalse < n

/-- Either side of a pair is below what the pair is below. -/
theorem SteerPair.Below.side {p : SteerPair} {n : Nat} (h : p.Below n) (taken : Bool) :
    p.side taken < n := by
  cases taken
  · exact h.2
  · exact h.1

/-- A pair stays below what is larger. -/
theorem SteerPair.Below.mono {p : SteerPair} {n m : Nat} (h : p.Below n) (hle : n ≤ m) :
    p.Below m :=
  ⟨Nat.lt_of_lt_of_le h.1 hle, Nat.lt_of_lt_of_le h.2 hle⟩

namespace Draft

/-- Each of some requests is proper when it is made, and they lead from one draft to another. There
are removals among them only if the first argument says so. -/
inductive Serves (f : Function) (removing : Bool) : Draft → List Request → Draft → Prop
  | nil {d : Draft} : Serves f removing d [] d
  | cons {d e : Draft} {r : Request} {rs : List Request} : r.Proper d →
      (r.isRemoval = true → removing = true) → Serves f removing (d.serve f r) rs e →
      Serves f removing d (r :: rs) e

variable {f : Function} {d e k : Draft} {r : Request} {rs rs' : List Request} {removing : Bool}
  {i j : NodeId} {p : SteerPair} {v : Operand} {id : InstId}

namespace Serves

/-- Proper requests may be made one after the other. -/
theorem append (h : Serves f removing d rs e) (h' : Serves f removing e rs' k) :
    Serves f removing d (rs ++ rs') k := by
  induction h with
  | nil => exact h'
  | cons hr hq _ ih => exact .cons hr hq (ih h')

/-- A single proper request is one that is served. -/
theorem one (hr : r.Proper d) (hq : r.isRemoval = false) : Serves f false d [r] (d.serve f r) :=
  .cons hr (fun h => by rw [hq] at h; cases h) .nil

/-- Where nothing is removed, removals may be allowed. -/
theorem weaken (h : Serves f false d rs e) : Serves f true d rs e := by
  induction h with
  | nil => exact .nil
  | cons hr _ _ ih => exact .cons hr (fun _ => rfl) ih

/-- Proper requests lead to the draft they are replayed to. -/
theorem replay_eq (h : Serves f removing d rs e) : d.replay f rs = e := by
  induction h with
  | nil => rfl
  | cons _ _ _ ih => exact ih

/-- Some requests are served before others. -/
theorem of_append (h : Serves f removing d (rs ++ rs') e) :
    Serves f removing d rs (d.replay f rs) ∧ Serves f removing (d.replay f rs) rs' e := by
  induction rs generalizing d with
  | nil => exact ⟨.nil, h⟩
  | cons r rs ih =>
      cases h with
      | cons hr hq hrest => exact ⟨.cons hr hq (ih hrest).1, (ih hrest).2⟩

/-- A request is proper after those before it. -/
theorem proper (h : Serves f removing d (rs ++ r :: rs') e) : r.Proper (d.replay f rs) := by
  cases h.of_append.2 with
  | cons hr _ _ => exact hr

/-- Requests without removals. -/
theorem building (h : Serves f removing d rs e) (hno : ∀ r ∈ rs, r.isRemoval = false) :
    Serves f false d rs e := by
  induction h with
  | nil => exact .nil
  | cons hr _ _ ih =>
      refine .cons hr (fun h => ?_) (ih fun r hr => hno r (List.mem_cons_of_mem _ hr))
      rw [hno _ List.mem_cons_self] at h
      cases h

end Serves

/-! ## What a draft holds -/

/-- How many numbers were given out for nodes. -/
def size (d : Draft) : Nat := d.graph.nodes.length

/-- The invariant before anything is removed: every number that was given out leads to a node, and
the steers and the stream have such a number. -/
structure Intact (d : Draft) : Prop where
  full : d.graph.Full
  steers : ∀ {id p}, (id, p) ∈ d.steers → p.Below d.size
  stream : ∀ {i}, d.stream = some i → i < d.size

/-- Everything that a draft holds of its graph is there: the steers, the stream, and the nodes of
values. -/
structure HoldsLive (d : Draft) : Prop where
  steers : ∀ id p, (id, p) ∈ d.steers → d.Live p.onTrue ∧ d.Live p.onFalse
  stream : ∀ i, d.stream = some i → d.Live i
  values : ∀ v i, (v, i) ∈ d.graph.owners → d.Live i

/-- The node of an operator has a number that was given out. -/
theorem lt_size_of_operator? (hop : d.operator? id = some i) : i < d.size := by
  obtain ⟨_, n, hn, _⟩ := operator?_eq_some.mp hop
  exact Graph.lt_length_of_node? hn

namespace Intact

/-- The empty draft is intact. -/
theorem empty : Intact {} := ⟨Graph.full_empty, by simp, by simp⟩

variable (h : d.Intact)

include h

/-- A number that was given out is live. -/
theorem live (hi : i < d.size) : d.Live i := h.full.node hi

/-- An intact draft holds only what is there. -/
theorem holdsLive : d.HoldsLive where
  steers id p hp := ⟨h.live (h.steers hp).1, h.live (h.steers hp).2⟩
  stream i hi := h.live (h.stream hi)
  values v i hv := by
    obtain ⟨n, hn, _⟩ := h.full.owner (h.full.entry hv)
    exact ⟨n, hn⟩

/-- Recorded steers have numbers that were given out. -/
theorem lookup (hp : d.steers.lookup id = some p) : p.Below d.size :=
  h.steers (mem_of_lookup_eq_some hp)

/-- An edge between nodes whose numbers were given out. -/
theorem edge (hi : i < d.size) (hj : j < d.size) :
    (Request.edge (some i) (some j)).Proper d := by
  obtain ⟨n, hn⟩ := h.live hi
  obtain ⟨m, hm⟩ := h.live hj
  refine ⟨⟨i, j, rfl, rfl, ⟨n, hn⟩, m, hm⟩, ?_⟩
  simp only [Draft.connect, Graph.connect, hn, hm]
  split
  · simp_all
  · split <;> rfl

/-- A change that gives up no node and keeps the steers and the stream. -/
theorem of_graph (hfull : e.graph.Full) (hsize : d.size ≤ e.size)
    (hs : e.steers = d.steers) (ht : e.stream = d.stream) : e.Intact ∧ d.size ≤ e.size :=
  ⟨⟨hfull, fun hp => (h.steers (hs ▸ hp)).mono hsize,
    fun hi => Nat.lt_of_lt_of_le (h.stream (ht ▸ hi)) hsize⟩, hsize⟩

/-- A change of one node that keeps its origin. -/
theorem modifyNode (i : NodeId) {change : Node → Node}
    (horigin : ∀ n, (change n).origin = n.origin) :
    Intact { d with graph := d.graph.modifyNode i change } ∧
      d.size ≤ size { d with graph := d.graph.modifyNode i change } :=
  h.of_graph (Graph.full_modifyNode h.full horigin)
    (Nat.le_of_eq (Graph.length_modifyNode change).symm) rfl rfl

/-- The node of a value keeps a draft intact. -/
theorem nodeFor (v : Operand) : (d.nodeFor f v).1.Intact ∧ d.size ≤ (d.nodeFor f v).1.size := by
  have hgraph : (d.nodeFor f v).1.graph = (d.graph.nodeFor f v).1 := rfl
  refine h.of_graph (Graph.keeps_nodeFor h.full f v).full ?_ rfl rfl
  rw [size, size, hgraph]
  rcases d.graph.nodeFor_cases f v with ⟨hsame, _⟩ | ⟨_, n, _, hnew⟩
  · rw [hsame]
  · rw [hnew, Graph.length_addNode h.full]
    exact Nat.le_succ _

/-- A node that was just asked for. -/
theorem lt_size_nodeFor (hi : (d.nodeFor f v).2 = some i) : i < (d.nodeFor f v).1.size := by
  have hfind : (d.nodeFor f v).1.graph.find? v = some i := (Graph.find?_nodeFor h.full).trans hi
  exact (h.nodeFor v).1.full.lt_of_find? hfind

/-- A change of the node of a value, which is made if there is none yet. -/
theorem nodeFor_modifyNode (v : Operand) {change : Node → Node}
    (horigin : ∀ n, (change n).origin = n.origin) {e : Draft} (he : e = match d.nodeFor f v with
      | (d, none) => d
      | (d, some i) => { d with graph := d.graph.modifyNode i change }) :
    e.Intact ∧ d.size ≤ e.size := by
  obtain ⟨hnode, hle⟩ := h.nodeFor (f := f) v
  subst he
  split
  · rename_i heq
    rw [heq] at hnode hle
    exact ⟨hnode, hle⟩
  · rename_i heq
    rw [heq] at hnode hle
    obtain ⟨hchange, hle'⟩ := hnode.modifyNode _ horigin
    exact ⟨hchange, Nat.le_trans hle hle'⟩

/-- The node of an instruction keeps a draft intact. -/
theorem addRole (step : InstId × Instruction) :
    (d.addRole f step).Intact ∧ d.size ≤ (d.addRole f step).size := by
  unfold Draft.addRole
  split
  · exact ⟨h, Nat.le_refl _⟩
  · refine h.nodeFor_modifyNode (.result step.1) ?_ rfl
    exact fun _ => rfl

/-- Giving a condition an operator keeps a draft intact. -/
theorem promote (cond : Operand) :
    (d.promote f cond).Intact ∧ d.size ≤ (d.promote f cond).size :=
  h.nodeFor_modifyNode cond (fun n => by split <;> rfl) rfl

/-- A node that stands for no value keeps a draft intact, and takes the next number. -/
theorem addNode {n : Node} (hn : n.origin = none) :
    (d.addNode n).1.Intact ∧ (d.addNode n).1.size = d.size + 1 ∧ (d.addNode n).2 = d.size := by
  have hfull : (d.addNode n).1.graph.Full := Graph.full_addNode h.full (by simp [hn])
  have hsize : (d.addNode n).1.size = d.size + 1 := Graph.length_addNode h.full
  exact ⟨(h.of_graph hfull (by omega) rfl rfl).1, hsize, Graph.addNode_id h.full⟩

/-- A pair of steers takes the next two numbers. -/
theorem newPair (id : InstId) : (d.newPair id).1.Intact ∧ d.size ≤ (d.newPair id).1.size ∧
    (d.newPair id).2.Below (d.newPair id).1.size := by
  obtain ⟨h₁, hsize₁, _⟩ := h.addNode (n := { kind := .trueSteer, label := "T" }) rfl
  obtain ⟨h₂, hsize₂, _⟩ := h₁.addNode (n := { kind := .falseSteer, label := "F" }) rfl
  have hsize : (d.newPair id).1.size = d.size + 2 := by
    rw [hsize₁] at hsize₂
    exact hsize₂
  have hbelow : (d.newPair id).2.Below (d.newPair id).1.size := by
    rw [newPair_side h.full, hsize]
    exact ⟨Nat.lt_add_of_pos_right Nat.zero_lt_two, Nat.lt_succ_self _⟩
  refine ⟨⟨h₂.full, fun hp => ?_, h₂.stream⟩, by omega, hbelow⟩
  rw [newPair_steers] at hp
  rcases List.mem_cons.mp hp with heq | hp
  · cases heq
    exact hbelow
  · exact (h.steers hp).mono (by omega)

/-- Making the stream keeps a draft intact. -/
theorem streamNode : d.streamNode.1.Intact ∧ d.size ≤ d.streamNode.1.size ∧
    d.streamNode.2 < d.streamNode.1.size := by
  unfold Draft.streamNode
  split
  · exact ⟨h, Nat.le_refl _, h.stream ‹_›⟩
  · obtain ⟨h₁, hsize, hi⟩ := h.addNode (n := { kind := .stream, label := "STR" }) rfl
    have hlt : (d.addNode { kind := .stream, label := "STR" }).2 <
        (d.addNode { kind := .stream, label := "STR" }).1.size := by
      rw [hi, hsize]
      exact Nat.lt_succ_self _
    refine ⟨⟨h₁.full, h₁.steers, fun hstream => ?_⟩, Nat.le_of_lt (hi ▸ hlt), hlt⟩
    cases hstream
    exact hlt

/-- Nothing that a draft holds goes without a removal. -/
theorem serve (hno : r.isRemoval = false) :
    (d.serve f r).Intact ∧ d.size ≤ (d.serve f r).size := by
  cases r with
  | node v => exact h.nodeFor v
  | role step => exact h.addRole step
  | promotion cond => exact h.promote cond
  | pair id => exact ⟨(h.newPair id).1, (h.newPair id).2.1⟩
  | stream => exact ⟨h.streamNode.1, h.streamNode.2.1⟩
  | carry i => exact h.modifyNode i fun _ => rfl
  | edge a b =>
      refine h.of_graph (Graph.keeps_connect h.full).full (Nat.le_of_eq ?_) rfl rfl
      exact congrArg List.length (Graph.connect_nodes a b).1.symm
  | removal i => cases hno
  | report e => exact ⟨⟨h.full, h.steers, h.stream⟩, Nat.le_refl _⟩

end Intact

/-- Nothing goes while requests are served without a removal. -/
theorem Serves.intact (hs : Serves f false d rs e) (h : d.Intact) : e.Intact ∧ d.size ≤ e.size := by
  induction hs with
  | nil => exact ⟨h, Nat.le_refl _⟩
  | @cons d e r rs _ hq _ ih =>
      have hno : r.isRemoval = false := Bool.eq_false_iff.mpr fun hrem => by cases hq hrem
      obtain ⟨h', hle⟩ := h.serve (f := f) hno
      obtain ⟨h'', hle'⟩ := ih h'
      exact ⟨h'', Nat.le_trans hle hle'⟩

end Draft

end Dataflow
