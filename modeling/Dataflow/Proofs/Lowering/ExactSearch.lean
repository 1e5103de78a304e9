import Dataflow.Proofs.Graph.Store
import Dataflow.Proofs.Lowering.Requests
import Dataflow.Proofs.Lowering.SearchEnds

/-!
# What a search changes

A search that comes to no select without steers only adds the nodes of leaves and edges into its
target (`Draft.Adds`). `Feed.Searches` says what becomes of a search along some values: every edge
it adds leaves a producer of one of them, it is done with all of them, and it found something only
if there is a producer. It holds of every search that ends (`Resolves.searches`), in a draft that
is `Draft.Ready`. Which of several routes leads first to a value that is shared, or that leads back
to itself, makes no difference: whatever was visited before is found or searched when the search
ends, so the visited instructions are closed under its steps (`Feed.Handles`).
-/

namespace Dataflow

/-! ## Drafts that can be searched -/

namespace Draft

/-- What a search relies on. It holds in all of lowering, also while nodes are removed. -/
structure Ready (f : Function) (d : Draft) : Prop where
  /-- The graph is well-formed. -/
  stored : d.graph.Stored
  /-- Only instructions that can have a node have one. -/
  result : ∀ {id i}, d.graph.find? (.result id) = some i →
    ∃ j, f.instruction? id = some j ∧ j.hasNode = true
  /-- Steers are there and have an operator. -/
  steer : ∀ {id p}, (id, p) ∈ d.steers → ∀ taken,
    ∃ n, d.graph.node? (p.side taken) = some n ∧ n.kind ≠ .unknown

/-- From `d` to `e` there may be new edges, and new nodes for leaves in `scope`. Nothing else is
new, and nothing is lost. -/
structure Adds (scope : Operand → Prop) (f : Function) (d e : Draft) : Prop where
  node : ∀ {i n}, d.graph.node? i = some n → e.graph.node? i = some n
  newNode : ∀ {i n}, e.graph.node? i = some n → d.graph.node? i = some n ∨
    d.graph.node? i = none ∧ ∃ v, scope v ∧ v.isLeaf = true ∧ d.graph.find? v = none ∧
      e.graph.find? v = some i ∧ f.newNode? v = some n
  owner : ∀ {v i}, d.graph.find? v = some i → e.graph.find? v = some i
  newOwner : ∀ {v i}, e.graph.find? v = some i →
    d.graph.find? v = some i ∨ scope v ∧ v.isLeaf = true ∧ d.graph.find? v = none
  edge : ∀ {a b}, d.graph.hasEdge a b → e.graph.hasEdge a b
  steers : e.steers = d.steers
  stream : e.stream = d.stream
  journal : e.journal = d.journal

variable {f : Function} {d e g : Draft} {scope : Operand → Prop} {a b i target : NodeId}
  {v w : Operand} {id : InstId} {p : SteerPair}

/-- A live number leads to a node. -/
theorem Live.ne_none (h : d.Live i) : d.graph.node? i ≠ none := by
  obtain ⟨n, hn⟩ := h
  simp [hn]

/-- An edge between two nodes that are there is no reason for a report. -/
theorem connect_of_live (ha : d.Live a) (hb : d.Live b) :
    (d.connect (some a) (some b)).2 = true ∧ (d.link a b).journal = d.journal := by
  have hevent : (d.graph.connect (some a) (some b)).2 = none :=
    congrArg Prod.snd (Graph.connect_of_live ha.ne_none hb.ne_none)
  have hfound : (d.connect (some a) (some b)).2 =
      (d.graph.connect (some a) (some b)).2.isNone := rfl
  have hjournal : (d.link a b).journal =
      d.journal ++ (d.graph.connect (some a) (some b)).2.toList := rfl
  rw [hfound, hjournal, hevent]
  exact ⟨rfl, List.append_nil _⟩

namespace Ready

/-- A search may start from the empty draft. -/
theorem empty : Ready f {} :=
  ⟨Graph.stored_empty, fun h => by simp [Graph.find?] at h, fun h => by cases h⟩

variable (h : d.Ready f)

include h

/-- The node of a value is live. -/
theorem live_owner (hv : d.graph.find? v = some i) : d.Live i := by
  obtain ⟨n, hn, _⟩ := h.stored.owner hv
  exact ⟨n, hn⟩

/-- The steers of a pair are live. -/
theorem live_side (hp : d.steers.lookup id = some p) (taken : Bool) : d.Live (p.side taken) := by
  obtain ⟨n, hn, _⟩ := h.steer (mem_of_lookup_eq_some hp) taken
  exact ⟨n, hn⟩

/-- A select has no operator, so its steers alone produce it. -/
theorem operator?_of_isSelect {j : Instruction} (hj : f.instruction? id = some j)
    (hsel : j.isSelect = true) : d.operator? id = none := by
  cases hop : d.operator? id with
  | none => rfl
  | some n =>
      obtain ⟨k, hk, hnode⟩ := h.result (operator?_eq_some.mp hop).1
      rw [hj] at hk
      cases hk
      rw [(Instruction.not_isSolid_of_isSelect hsel).2] at hnode
      cases hnode

/-- The steers and the map from values stay as they are, and nodes that have an operator keep
one. -/
theorem of_graph (hstored : e.graph.Stored) (hs : e.steers = d.steers)
    (hfind : ∀ id i, e.graph.find? (.result id) = some i → d.graph.find? (.result id) = some i)
    (hkind : ∀ i n, d.graph.node? i = some n → n.kind ≠ .unknown →
      ∃ m, e.graph.node? i = some m ∧ m.kind ≠ .unknown) : e.Ready f where
  stored := hstored
  result hi := h.result (hfind _ _ hi)
  steer hp taken := by
    obtain ⟨n, hn, hk⟩ := h.steer (hs ▸ hp) taken
    exact hkind _ n hn hk

theorem report (ev : Event) : (d.report ev).Ready f := ⟨h.stored, h.result, h.steer⟩

/-- A new node leaves a draft ready, when it stands for no instruction that can have none. -/
theorem addNode {n : Node} (hn : ∀ id, n.origin = some (.result id) →
    ∃ j, f.instruction? id = some j ∧ j.hasNode = true) : (d.addNode n).1.Ready f where
  stored := h.stored.addNode n
  result {id i} hi := by
    simp only [Draft.addNode, Graph.find?_addNode] at hi
    split at hi
    · exact hn id ‹_›
    · exact h.result hi
  steer hp taken := by
    obtain ⟨m, hm, hk⟩ := h.steer hp taken
    have hne : ∀ {i}, d.graph.node? i = some m → i ≠ (d.graph.addNode n).2 := by
      rintro i hi rfl
      rw [(h.stored.node?_addNode n).1] at hi
      cases hi
    exact ⟨m, ((h.stored.node?_addNode n).2 _).trans ((if_neg (hne hm)).trans hm), hk⟩

/-- So does the node of a value. -/
theorem nodeFor (v : Operand) : (d.nodeFor f v).1.Ready f := by
  unfold Draft.nodeFor
  cases hv : d.graph.find? v with
  | some i =>
      rw [Graph.nodeFor_of_some f hv]
      exact h
  | none =>
      cases hn : f.newNode? v with
      | none =>
          rw [Graph.nodeFor_of_refused f hv hn]
          exact h
      | some n =>
          rw [Graph.nodeFor_of_none f hv hn]
          obtain ⟨ho, _, _, hresult⟩ := newNode?_eq_some hn
          refine h.addNode fun id hid => (hresult id ?_).2
          rw [ho] at hid
          exact Option.some.inj hid

/-- So does an edge. -/
theorem connect (a b : Option NodeId) : (d.connect a b).1.Ready f :=
  h.of_graph (h.stored.connect a b) rfl
    (fun _ _ hi => by rwa [Draft.connect, Graph.find?_connect] at hi)
    fun _ n hn hk => ⟨n, by rwa [Draft.connect, Graph.node?_connect], hk⟩

end Ready

/-! ## Steps that only add -/

namespace Adds

theorem refl (d : Draft) : Adds scope f d d :=
  ⟨id, Or.inl, id, Or.inl, id, rfl, rfl, rfl⟩

theorem trans (hde : Adds scope f d e) (heg : Adds scope f e g) : Adds scope f d g where
  node hn := heg.node (hde.node hn)
  newNode {i n} hn := by
    rcases heg.newNode hn with hn | ⟨hnone, v, hv, hleaf, hold, hfind, hnew⟩
    · rcases hde.newNode hn with hn | ⟨hnone, v, hv, hleaf, hold, hfind, hnew⟩
      · exact Or.inl hn
      · exact Or.inr ⟨hnone, v, hv, hleaf, hold, heg.owner hfind, hnew⟩
    · refine Or.inr ⟨Option.eq_none_iff_forall_ne_some.mpr fun m hm => ?_, v, hv, hleaf,
        Option.eq_none_iff_forall_ne_some.mpr fun k hk => ?_, hfind, hnew⟩
      · rw [hde.node hm] at hnone
        cases hnone
      · rw [hde.owner hk] at hold
        cases hold
  owner hv := heg.owner (hde.owner hv)
  newOwner {v i} hv := by
    rcases heg.newOwner hv with hv | ⟨hscope, hleaf, hold⟩
    · exact hde.newOwner hv
    · refine Or.inr ⟨hscope, hleaf, Option.eq_none_iff_forall_ne_some.mpr fun k hk => ?_⟩
      rw [hde.owner hk] at hold
      cases hold
  edge hab := heg.edge (hde.edge hab)
  steers := heg.steers.trans hde.steers
  stream := heg.stream.trans hde.stream
  journal := heg.journal.trans hde.journal

/-- Live nodes stay live. -/
theorem live (h : Adds scope f d e) (hi : d.Live i) : e.Live i := by
  obtain ⟨n, hn⟩ := hi
  exact ⟨n, h.node hn⟩

/-- The node of a result is no leaf, so no operator is new. -/
theorem operator? (h : Adds scope f d e) (hd : d.Ready f) (id : InstId) :
    e.operator? id = d.operator? id := by
  ext i
  rw [operator?_eq_some, operator?_eq_some]
  constructor
  · rintro ⟨hfind, n, hn, hk⟩
    rcases h.newOwner hfind with hold | ⟨_, hleaf, _⟩
    · obtain ⟨m, hm⟩ := hd.live_owner hold
      cases (h.node hm).symm.trans hn
      exact ⟨hold, n, hm, hk⟩
    · cases hleaf
  · rintro ⟨hfind, n, hn, hk⟩
    exact ⟨h.owner hfind, n, h.node hn, hk⟩

/-- What produces a value still produces it. -/
theorem produces (h : Adds scope f d e) (hd : d.Ready f) (hs : Produces f d v a) :
    Produces f e v a := by
  induction hs with
  | leaf hv hn => exact .leaf hv (h.owner hn)
  | steer hi hsel hp => exact .steer hi hsel (h.steers ▸ hp)
  | node hn => exact .node ((h.operator? hd _).trans hn)
  | operand hi hsel ho hw _ ih => exact .operand hi hsel ((h.operator? hd _).trans ho) hw ih

/-- The node of a leaf in scope. -/
theorem nodeFor (hd : d.Ready f) (hv : scope v) (hleaf : v.isLeaf = true) :
    Adds scope f d (d.nodeFor f v).1 ∧
      ∃ i, (d.nodeFor f v).2 = some i ∧ (d.nodeFor f v).1.graph.find? v = some i := by
  unfold Draft.nodeFor
  cases hfind : d.graph.find? v with
  | some i =>
      rw [Graph.nodeFor_of_some f hfind]
      exact ⟨.refl d, i, rfl, hfind⟩
  | none =>
      obtain ⟨n, hn⟩ : ∃ n, f.newNode? v = some n := by
        cases v <;> simp_all [Operand.isLeaf, Function.newNode?]
      have horigin := (newNode?_eq_some hn).1
      have hvalue : ∀ w, (d.graph.addNode n).1.find? w =
          if w = v then some (d.graph.addNode n).2 else d.graph.find? w := by
        intro w
        rw [Graph.find?_addNode, horigin]
        simp only [Option.some.injEq, eq_comm]
      obtain ⟨hfresh, hnode⟩ := hd.stored.node?_addNode n
      rw [Graph.nodeFor_of_none f hfind hn]
      refine ⟨⟨fun {i m} hm => ?_, fun {i m} hm => ?_, fun {w i} hw => ?_, fun {w i} hw => ?_,
        fun h => h, rfl, rfl, rfl⟩, _, rfl, (hvalue v).trans (if_pos rfl)⟩
      · refine (hnode i).trans ((if_neg ?_).trans hm)
        rintro rfl
        rw [hfresh] at hm
        cases hm
      · have hm' := (hnode i).symm.trans hm
        split at hm'
        · rename_i hi
          cases hm'
          exact Or.inr ⟨hi ▸ hfresh, v, hv, hleaf, hfind, (hvalue v).trans (hi ▸ if_pos rfl), hn⟩
        · exact Or.inl hm'
      · refine (hvalue w).trans ((if_neg ?_).trans hw)
        rintro rfl
        rw [hfind] at hw
        cases hw
      · have hw' := (hvalue w).symm.trans hw
        split at hw'
        · rename_i hwv
          exact Or.inr ⟨hwv ▸ hv, hwv ▸ hleaf, hwv ▸ hfind⟩
        · exact Or.inl hw'

/-- An edge between two nodes that are there. -/
theorem link (ha : d.Live a) (hb : d.Live b) : Adds scope f d (d.link a b) where
  node hn := by rwa [Draft.link, Draft.connect, Graph.node?_connect]
  newNode hn := Or.inl (by rwa [Draft.link, Draft.connect, Graph.node?_connect] at hn)
  owner hv := by rwa [Draft.link, Draft.connect, Graph.find?_connect]
  newOwner hv := Or.inl (by rwa [Draft.link, Draft.connect, Graph.find?_connect] at hv)
  edge hab := (hasEdge_link ha hb).mpr (Or.inl hab)
  steers := rfl
  stream := rfl
  journal := (connect_of_live ha hb).2

end Adds

/-- What a search may come to: it goes on from instructions without an operator to their operands,
and the selects among what it comes to have their steers. -/
structure Scope (f : Function) (d : Draft) (scope : Operand → Prop) : Prop where
  operand : ∀ {id i v}, scope (.result id) → f.instruction? id = some i → i.isSelect = false →
    d.operator? id = none → v ∈ i.operands → scope v
  paired : ∀ {id i}, scope (.result id) → f.instruction? id = some i → i.isSelect = true →
    ∃ p, d.steers.lookup id = some p

/-- What a search may come to stays the same. -/
theorem Scope.adds (h : Scope f d scope) (hd : d.Ready f) (hadds : Adds scope f d e) :
    Scope f e scope where
  operand hv hi hsel hop := h.operand hv hi hsel ((hadds.operator? hd _).symm.trans hop)
  paired hv hi hsel := hadds.steers ▸ h.paired hv hi hsel

end Draft

/-! ## What a search is done with -/

namespace Feed

variable {f : Function} {d : Draft} {scope : Operand → Prop} {a b target : NodeId} {v : Operand}
  {id : InstId} {p : SteerPair} {s t u : Feed} {i : Instruction} {vs ws : List Operand}

/-- A search has found a node and made it feed the target. -/
def Found (s : Feed) (target a : NodeId) : Prop :=
  s.draft.graph.hasEdge a target = true ∧ s.fed = true

/-- A search has come to a value: it found the node of a leaf, and it visited an instruction. -/
def Meets (s : Feed) (target : NodeId) (v : Operand) : Prop :=
  (v.isLeaf = true → ∃ n, s.draft.graph.find? v = some n ∧ s.Found target n) ∧
    ∀ id, v = .result id → id ∈ s.visited

/-- A search has gone on from an instruction: it found its steers or its node, or came to its
operands. -/
structure Handles (f : Function) (s : Feed) (target : NodeId) (id : InstId) : Prop where
  steer : ∀ {i p}, f.instruction? id = some i → i.isSelect = true →
    s.draft.steers.lookup id = some p → ∀ taken, s.Found target (p.side taken)
  node : ∀ {n}, s.draft.operator? id = some n → s.Found target n
  operand : ∀ {i v}, f.instruction? id = some i → i.isSelect = false →
    s.draft.operator? id = none → v ∈ i.operands → s.Meets target v

/-- How a search gets from `s` to `t` along some values. -/
structure Searches (f : Function) (scope : Operand → Prop) (target : NodeId) (vs : List Operand)
    (s t : Feed) : Prop where
  ready : t.draft.Ready f
  adds : s.draft.Adds scope f t.draft
  /-- An edge that is added leaves a producer. -/
  edge : ∀ {a b}, t.draft.graph.hasEdge a b → s.draft.graph.hasEdge a b ∨
    b = target ∧ ∃ v ∈ vs, Produces f t.draft v a
  /-- Nothing is found without a producer. -/
  fed : t.fed = true → s.fed = true ∨ ∃ v ∈ vs, ∃ a, Produces f t.draft v a
  still : s.fed = true → t.fed = true
  visited : ∀ id ∈ s.visited, id ∈ t.visited
  handled : ∀ id ∈ t.visited, id ∈ s.visited ∨ t.Handles f target id
  met : ∀ v ∈ vs, t.Meets target v

/-- What was found stays found. -/
theorem Searches.found (h : Searches f scope target vs s t) (ha : s.Found target a) :
    t.Found target a := ⟨h.adds.edge ha.1, h.still ha.2⟩

/-- What a search came to it has come to later. -/
theorem Searches.meets (h : Searches f scope target vs s t) (hv : s.Meets target v) :
    t.Meets target v := by
  refine ⟨fun hleaf => ?_, fun id hid => h.visited id (hv.2 id hid)⟩
  obtain ⟨n, hn, hfound⟩ := hv.1 hleaf
  exact ⟨n, h.adds.owner hn, h.found hfound⟩

/-- What a search has gone on from stays so, as steers and operators stay what they are. -/
theorem Searches.handles (h : Searches f scope target vs s t) (hs : s.draft.Ready f)
    (hid : s.Handles f target id) : t.Handles f target id where
  steer hi hsel hp taken := h.found (hid.steer hi hsel (h.adds.steers ▸ hp) taken)
  node hn := h.found (hid.node ((h.adds.operator? hs id).symm.trans hn))
  operand hi hsel hop hv :=
    h.meets (hid.operand hi hsel ((h.adds.operator? hs id).symm.trans hop) hv)

theorem Searches.nil (hs : s.draft.Ready f) : Searches f scope target [] s s :=
  ⟨hs, .refl _, Or.inl, Or.inl, id, fun _ h => h, fun _ h => Or.inl h, by simp⟩

/-- One search after another. -/
theorem Searches.append (hst : Searches f scope target vs s t)
    (htu : Searches f scope target ws t u) : Searches f scope target (vs ++ ws) s u where
  ready := htu.ready
  adds := hst.adds.trans htu.adds
  edge hab := by
    rcases htu.edge hab with hab | ⟨rfl, w, hw, ha⟩
    · refine (hst.edge hab).imp_right fun ⟨hb, v, hv, ha⟩ => ?_
      exact ⟨hb, v, List.mem_append_left _ hv, htu.adds.produces hst.ready ha⟩
    · exact Or.inr ⟨rfl, w, List.mem_append_right _ hw, ha⟩
  fed hu := by
    rcases htu.fed hu with ht | ⟨w, hw, a, ha⟩
    · refine (hst.fed ht).imp_right fun ⟨v, hv, a, ha⟩ => ?_
      exact ⟨v, List.mem_append_left _ hv, a, htu.adds.produces hst.ready ha⟩
    · exact Or.inr ⟨w, List.mem_append_right _ hw, a, ha⟩
  still h := htu.still (hst.still h)
  visited id h := htu.visited id (hst.visited id h)
  handled id h := by
    rcases htu.handled id h with h | h
    · exact (hst.handled id h).imp_right (htu.handles hst.ready)
    · exact Or.inr h
  met v hv := by
    rcases List.mem_append.mp hv with hv | hv
    · exact htu.meets (hst.met v hv)
    · exact htu.met v hv

/-- A value that a search has come to before. -/
theorem Searches.idle (hs : s.draft.Ready f) (hv : s.Meets target v) :
    Searches f scope target [v] s s :=
  ⟨hs, .refl _, Or.inl, Or.inl, id, fun _ h => h, fun _ h => Or.inl h,
    fun _ hw => List.mem_singleton.mp hw ▸ hv⟩

/-! ### Edges from a producer -/

/-- A search after some nodes were made to feed its target. -/
structure Fills (f : Function) (scope : Operand → Prop) (target : NodeId) (sources : NodeId → Prop)
    (s t : Feed) : Prop where
  ready : t.draft.Ready f
  adds : s.draft.Adds scope f t.draft
  edge : ∀ {a b}, t.draft.graph.hasEdge a b ↔ s.draft.graph.hasEdge a b ∨ b = target ∧ sources a
  fed : t.fed = true
  visited : t.visited = s.visited

section Fills

variable {sources : NodeId → Prop}

theorem Fills.found (h : Fills f scope target sources s t) (ha : sources a) : t.Found target a :=
  ⟨h.edge.mpr (Or.inr ⟨rfl, ha⟩), h.fed⟩

variable (hs : s.draft.Ready f) (htarget : s.draft.Live target)

include hs htarget

/-- An edge from a live node makes it feed the target. -/
theorem fromNode_fills (ha : s.draft.Live a) :
    Fills f scope target (· = a) s (s.fromNode a target) where
  ready := hs.connect (some a) (some target)
  adds := .link ha htarget
  edge {x y} := (Draft.hasEdge_link ha htarget).trans (or_congr_right and_comm)
  fed := by
    have hfed : (s.fromNode a target).fed =
        (s.fed || (s.draft.connect (some a) (some target)).2) := rfl
    rw [hfed, (Draft.connect_of_live ha htarget).1, Bool.or_true]
  visited := rfl

/-- Edges from the steers of a pair make both feed the target. -/
theorem fromSteers_fills (hp : s.draft.steers.lookup id = some p) :
    Fills f scope target (fun a => ∃ taken, a = SteerPair.side p taken) s
      (s.fromSteers p target) where
  ready := (hs.connect (some p.onTrue) (some target)).connect (some p.onFalse) (some target)
  adds := by
    have hfirst : Draft.Adds scope f s.draft (s.draft.link (SteerPair.side p true) target) :=
      .link (hs.live_side hp true) htarget
    exact hfirst.trans (.link (hfirst.live (hs.live_side hp false)) (hfirst.live htarget))
  edge {x y} := by
    have hfirst : Draft.Adds scope f s.draft (s.draft.link (SteerPair.side p true) target) :=
      .link (hs.live_side hp true) htarget
    refine (Draft.hasEdge_link (hfirst.live (hs.live_side hp false)) (hfirst.live htarget)).trans ?_
    refine (or_congr_left (Draft.hasEdge_link (hs.live_side hp true) htarget)).trans ?_
    simp only [SteerPair.side, Bool.exists_bool, if_true, Bool.false_eq_true, if_false]
    tauto
  fed := by
    have hfirst : Draft.Adds scope f s.draft (s.draft.link (SteerPair.side p true) target) :=
      .link (hs.live_side hp true) htarget
    have hfed : (s.fromSteers p target).fed =
        (s.fed || ((s.draft.connect (some p.onTrue) (some target)).2 &&
          ((s.draft.link p.onTrue target).connect (some p.onFalse) (some target)).2)) := rfl
    have htrue := (Draft.connect_of_live (hs.live_side hp true) htarget).1
    have hfalse := (Draft.connect_of_live (hfirst.live (hs.live_side hp false))
      (hfirst.live htarget)).1
    simp only [SteerPair.side, if_true, Bool.false_eq_true, if_false] at htrue hfalse
    rw [hfed, htrue, hfalse, Bool.and_true, Bool.or_true]
  visited := rfl

/-- A leaf feeds the target from its node, which is made if there is none yet. -/
theorem Searches.leaf (hv : scope v) (hleaf : v.isLeaf = true) :
    Searches f scope target [v] s (s.fromLeaf f v target) := by
  obtain ⟨hnode, i, hi, hfind⟩ := Draft.Adds.nodeFor hs hv hleaf
  have hready := hs.nodeFor v
  have hstep : s.fromLeaf f v target =
      { s with draft := (s.draft.nodeFor f v).1 }.fromNode i target := by
    have heq : s.draft.nodeFor f v = ((s.draft.nodeFor f v).1, some i) := Prod.ext rfl hi
    rw [fromLeaf, heq]
    rfl
  have hedges : ∀ a b, (s.draft.nodeFor f v).1.graph.hasEdge a b = s.draft.graph.hasEdge a b := by
    intro a b
    have hgraph : (s.draft.nodeFor f v).1.graph = (s.draft.graph.nodeFor f v).1 := rfl
    rcases s.draft.graph.nodeFor_cases f v with ⟨hsame, _⟩ | ⟨_, n, _, hnew⟩
    · rw [hgraph, hsame]
    · rw [hgraph, hnew, Graph.hasEdge_addNode]
  rw [hstep]
  set made : Feed := { s with draft := (s.draft.nodeFor f v).1 }
  have h : Fills f scope target (· = i) made (made.fromNode i target) :=
    fromNode_fills hready (hnode.live htarget) (hready.live_owner hfind)
  have hfind' := h.adds.owner hfind
  refine ⟨h.ready, hnode.trans h.adds, fun {a b} hab => ?_, fun _ => Or.inr ?_, fun _ => h.fed,
    fun _ hx => hx, fun _ hx => Or.inl hx, fun w hw => ?_⟩
  · refine (h.edge.mp hab).imp (fun hab => ?_) fun ⟨hb, ha⟩ => ?_
    · rwa [hedges] at hab
    · exact ⟨hb, v, List.mem_singleton_self v, .leaf hleaf (ha ▸ hfind')⟩
  · exact ⟨v, List.mem_singleton_self v, i, .leaf hleaf hfind'⟩
  · cases List.mem_singleton.mp hw
    refine ⟨fun _ => ⟨i, hfind', h.found rfl⟩, ?_⟩
    rintro id rfl
    cases hleaf

omit hs htarget in
/-- An instruction that its own nodes produce. -/
theorem Fills.searches (h : Fills f scope target sources (s.visit id) t)
    (hsources : ∀ a, sources a → Produces f t.draft (.result id) a) (hsome : ∃ a, sources a)
    (hid : t.Handles f target id) : Searches f scope target [.result id] s t where
  ready := h.ready
  adds := h.adds
  edge hab := (h.edge.mp hab).imp_right fun ⟨hb, ha⟩ =>
    ⟨hb, _, List.mem_singleton_self _, hsources _ ha⟩
  fed _ := by
    obtain ⟨a, ha⟩ := hsome
    exact Or.inr ⟨_, List.mem_singleton_self _, a, hsources a ha⟩
  still _ := h.fed
  visited x hx := h.visited ▸ List.mem_cons_of_mem id hx
  handled x hx := by
    rw [h.visited] at hx
    rcases List.mem_cons.mp hx with rfl | hx
    · exact Or.inr hid
    · exact Or.inl hx
  met w hw := by
    cases List.mem_singleton.mp hw
    refine ⟨fun hleaf => (by cases hleaf), ?_⟩
    rintro x hx
    cases hx
    exact h.visited ▸ List.mem_cons_self

/-- An instruction with an operator feeds the target from its node. -/
theorem Searches.operator (hi : f.instruction? id = some i) (hsel : i.isSelect = false)
    (hop : s.draft.operator? id = some a) :
    Searches f scope target [.result id] s ((s.visit id).fromNode a target) := by
  have hlive : s.draft.Live a := hs.live_owner (Draft.operator?_eq_some.mp hop).1
  have h : Fills f scope target (· = a) (s.visit id) ((s.visit id).fromNode a target) :=
    fromNode_fills hs htarget hlive
  have hop' := (h.adds.operator? hs id).trans hop
  refine h.searches (by rintro _ rfl; exact .node hop') ⟨a, rfl⟩
    ⟨fun hi' hsel' => ?_, fun hn => ?_, fun _ _ hnone => ?_⟩
  · rw [hi] at hi'
    cases hi'
    rw [hsel] at hsel'
    cases hsel'
  · rw [hop'] at hn
    cases hn
    exact h.found rfl
  · rw [hop'] at hnone
    cases hnone

/-- A select feeds the target from its steers. -/
theorem Searches.select (hi : f.instruction? id = some i) (hsel : i.isSelect = true)
    (hp : s.draft.steers.lookup id = some p) :
    Searches f scope target [.result id] s ((s.visit id).fromSteers p target) := by
  have h : Fills f scope target (fun a => ∃ taken, a = SteerPair.side p taken) (s.visit id)
      ((s.visit id).fromSteers p target) := fromSteers_fills hs htarget hp
  have hp' : ((s.visit id).fromSteers p target).draft.steers.lookup id = some p := hp
  refine h.searches ?_ ⟨_, true, rfl⟩ ⟨fun _ _ hq taken => ?_, fun hn => ?_, fun hi' hsel' => ?_⟩
  · rintro _ ⟨taken, rfl⟩
    exact .steer hi hsel hp'
  · rw [hp'] at hq
    cases hq
    exact h.found ⟨taken, rfl⟩
  · rw [h.ready.operator?_of_isSelect hi hsel] at hn
    cases hn
  · rw [hi] at hi'
    cases hi'
    rw [hsel] at hsel'
    cases hsel'

end Fills

/-- An instruction without an operator lets the search go on to its operands. -/
theorem Searches.open (hs : s.draft.Ready f) (hi : f.instruction? id = some i)
    (hsel : i.isSelect = false) (hop : s.draft.operator? id = none)
    (h : Searches f scope target i.operands (s.visit id) t) :
    Searches f scope target [.result id] s t := by
  have hop' := (h.adds.operator? hs id).trans hop
  have hproduces : ∀ {v a}, v ∈ i.operands → Produces f t.draft v a →
      Produces f t.draft (.result id) a := fun hv ha => .operand hi hsel hop' hv ha
  have hid : t.Handles f target id := by
    refine ⟨fun hi' hsel' => ?_, fun hn => ?_, fun hi' _ _ hv => ?_⟩
    · rw [hi] at hi'
      cases hi'
      rw [hsel] at hsel'
      cases hsel'
    · rw [hop'] at hn
      cases hn
    · rw [hi] at hi'
      cases hi'
      exact h.met _ hv
  refine ⟨h.ready, h.adds, fun hab => ?_, fun ht => ?_, h.still,
    fun x hx => h.visited x (List.mem_cons_of_mem _ hx), fun x hx => ?_, fun w hw => ?_⟩
  · exact (h.edge hab).imp_right fun ⟨hb, v, hv, ha⟩ =>
      ⟨hb, _, List.mem_singleton_self _, hproduces hv ha⟩
  · exact (h.fed ht).imp_right fun ⟨v, hv, a, ha⟩ =>
      ⟨_, List.mem_singleton_self _, a, hproduces hv ha⟩
  · rcases h.handled x hx with hx | hx
    · rcases List.mem_cons.mp hx with rfl | hx
      · exact Or.inr hid
      · exact Or.inl hx
    · exact Or.inr hx
  · cases List.mem_singleton.mp hw
    refine ⟨fun hleaf => (by cases hleaf), ?_⟩
    rintro x hx
    cases hx
    exact h.visited _ List.mem_cons_self

end Feed

/-! ## Searches that end -/

mutual

/-- A search that comes to no select without steers adds what it should. -/
theorem Resolves.searches {f : Function} {scope : Operand → Prop} {v : Operand} {target : NodeId}
    {s t : Feed} (h : Resolves f v target s t) (hv : scope v) (hs : s.draft.Ready f)
    (hscope : s.draft.Scope f scope) (htarget : s.draft.Live target) :
    Feed.Searches f scope target [v] s t :=
  match h with
  | .function => .idle hs ⟨fun hleaf => (by cases hleaf), fun _ hid => (by cases hid)⟩
  | .leaf hleaf _ => .leaf hs htarget hv hleaf
  | .visited hmem =>
      .idle hs ⟨fun hleaf => (by cases hleaf), fun _ hid => (by cases hid; exact hmem)⟩
  | .select _ hi hsel hrun => by
      obtain ⟨q, hq⟩ := hscope.paired hv hi hsel
      cases hrun with
      | known hp => exact .select hs htarget hi hsel hp
      | made hnew =>
          rw [hq] at hnew
          cases hnew
  | .operator _ hi hsel hop => .operator hs htarget hi hsel hop
  | .operands _ hi hsel hop hrun =>
      .open hs hi hsel hop (hrun.searches (fun _ hw => hscope.operand hv hi hsel hop hw) hs hscope
        htarget)

/-- A search along several values is the searches along each, one after another. -/
theorem ResolvesAll.searches {f : Function} {scope : Operand → Prop} {vs : List Operand}
    {target : NodeId} {s t : Feed} (h : ResolvesAll f vs target s t) (hvs : ∀ v ∈ vs, scope v)
    (hs : s.draft.Ready f) (hscope : s.draft.Scope f scope) (htarget : s.draft.Live target) :
    Feed.Searches f scope target vs s t :=
  match h with
  | .nil => .nil hs
  | .cons hfirst hrest => by
      have h₁ := hfirst.searches (hvs _ List.mem_cons_self) hs hscope htarget
      exact h₁.append (hrest.searches (fun v hv => hvs v (List.mem_cons_of_mem _ hv)) h₁.ready
        (hscope.adds hs h₁.adds) (h₁.adds.live htarget))

end

end Dataflow
