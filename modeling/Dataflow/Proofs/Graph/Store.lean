import Dataflow.Proofs.Lowering.Growth
import Mathlib.Data.List.Induction
import Mathlib.Data.List.Perm.Basic

/-!
# Graphs that nodes come to and go from

A `PlainGraph` is a digraph without numbers for its edges or lists of free numbers: which nodes
there are and what they hold, which ordered pairs of nodes are edges, and which node each value
leads to. `Graph.view` forgets the rest of a graph. After any list of edits to the empty graph, the
next edit does to the view what the edit is meant to do (`Graph.simulates_plainGraph`).
`Graph.Slotted` is the invariant that carries this through removals: the lists of free numbers hold
exactly what is free, so a number that is given out again belongs to no node and no edge. A change
of what a node holds may give it another value to stand for, and the map does not follow: then a
value leads to a node that stands for another one, or to none (`Graph.not_faithful_reassigned`).
Where no change does so, a value leads to the node that stands for it (`Graph.Stored`).
-/

namespace Dataflow

/-- A digraph whose nodes hold something, and a map from values to nodes. -/
@[ext] structure PlainGraph where
  /-- What each node holds; a number that is no node holds nothing. -/
  node : NodeId → Option Node
  /-- Whether there is an edge from one node to another. -/
  edge : NodeId → NodeId → Prop
  /-- The node that a value leads to. -/
  owner : Operand → Option NodeId

namespace PlainGraph

variable (p : PlainGraph)

/-- Adds a node. A value that it stands for leads to it from now on. -/
def insert (i : NodeId) (n : Node) : PlainGraph :=
  { p with
    node := fun j => if j = i then some n else p.node j
    owner := fun v => if n.origin = some v then some i else p.owner v }

/-- Adds an edge. -/
def join (a b : NodeId) : PlainGraph :=
  { p with edge := fun x y => p.edge x y ∨ (x = a ∧ y = b) }

/-- Removes a node with its edges. The value that it stands for does not lead to it any more. -/
def erase (i : NodeId) : PlainGraph where
  node j := if j = i then none else p.node j
  edge x y := p.edge x y ∧ x ≠ i ∧ y ≠ i
  owner v := (p.owner v).filter fun j => ¬ ((p.node i).bind (·.origin) = some v ∧ j = i)

/-- Changes what a node holds. -/
def alter (i : NodeId) (change : Node → Node) : PlainGraph :=
  { p with node := fun j => if j = i then (p.node j).map change else p.node j }

end PlainGraph

/-- An edit to a graph. -/
inductive Edit where
  /-- Asks for the node of a value, which is made if there is none. -/
  | ensure (f : Function) (v : Operand)
  /-- Adds a node. -/
  | add (n : Node)
  /-- Adds an edge between two nodes that may be missing. -/
  | connect (a b : Option NodeId)
  /-- Removes a node that may be missing. -/
  | remove (i : Option NodeId)
  /-- Changes what a node holds, the value that it stands for included. -/
  | modify (i : NodeId) (change : Node → Node)

namespace Graph

/-- The graph after an edit. -/
def edit (g : Graph) : Edit → Graph
  | .ensure f v => (g.nodeFor f v).1
  | .add n => (g.addNode n).1
  | .connect a b => (g.connect a b).1
  | .remove i => (g.remove i).graph
  | .modify i change => g.modifyNode i change

/-- The graph after a list of edits to the empty graph. -/
def after (edits : List Edit) : Graph := edits.foldl edit {}

/-- A graph without the numbers of its edges and the lists of free numbers. -/
def view (g : Graph) : PlainGraph where
  node := g.node?
  edge a b := (a, b) ∈ g.edges
  owner := g.find?

variable {g : Graph} {a b i j x y : NodeId} {v w : Operand} {n m : Node}
variable {source target : Option NodeId}

/-! ## Listing edges -/

/-- A link that is inserted is there once more. -/
theorem insertLink_perm (l : Link) (links : List Link) :
    (insertLink l links).Perm (l :: links) := by
  induction links with
  | nil => exact .refl _
  | cons k rest ih =>
      unfold insertLink
      split
      · exact .refl _
      · exact (ih.cons k).trans (.swap l k rest)

/-- Edges are listed each as often as there are links. -/
theorem edges_perm : g.edges.Perm (g.links.map fun l => (l.source, l.target)) := by
  have hfold : ∀ links sorted : List Link,
      (links.foldl (fun sorted l => insertLink l sorted) sorted).Perm (links ++ sorted) := by
    intro links
    induction links with
    | nil => exact fun sorted => .refl _
    | cons l rest ih =>
        intro sorted
        refine (ih (insertLink l sorted)).trans ?_
        exact ((insertLink_perm l sorted).append_left rest).trans List.perm_middle
  have hlinks := (hfold g.links []).map fun l => (l.source, l.target)
  rwa [List.append_nil] at hlinks

/-- The edges of a graph are the pairs of nodes that are joined. -/
theorem mem_edges : (a, b) ∈ g.edges ↔ g.hasEdge a b := by
  rw [edges_perm.mem_iff, hasEdge_iff, List.mem_map]
  simp only [Prod.mk.injEq]

/-! ## What is kept along edits -/

/-- A graph whose map holds a value once, whose lists of free numbers hold exactly what is free, and
whose edges are distinct and join nodes. -/
structure Slotted (g : Graph) : Prop where
  /-- The map holds a value once. -/
  entry : ∀ {v i}, (v, i) ∈ g.owners → g.find? v = some i
  /-- No number is in the list of free node numbers twice. -/
  free : g.freeNodes.Nodup
  /-- The free node numbers are those given out before that are no node now. -/
  vacant : ∀ {i}, i ∈ g.freeNodes ↔ i < g.nodes.length ∧ g.node? i = none
  /-- Edges join nodes. -/
  ends : ∀ {a b}, g.hasEdge a b → g.node? a ≠ none ∧ g.node? b ≠ none
  /-- There is one edge at most from one node to another. -/
  pairs : (g.links.map fun l => (l.source, l.target)).Nodup
  /-- An edge number belongs to one edge, or is free once. -/
  numbers : (g.links.map (·.slot) ++ g.freeLinks).Nodup
  /-- Edge numbers were given out. -/
  bound : ∀ s ∈ g.links.map (·.slot) ++ g.freeLinks, s < g.linkSlots

/-- Such a graph in which a value leads to a node that stands for it. -/
structure Stored (g : Graph) : Prop extends g.Owned, g.Slotted

/-- The empty graph holds nothing that could clash. -/
theorem slotted_empty : ({} : Graph).Slotted where
  entry := full_empty.entry
  free := .nil
  vacant := by simp
  ends h := by simp [hasEdge] at h
  pairs := .nil
  numbers := .nil
  bound := by simp

/-- The empty graph is stored. -/
theorem stored_empty : ({} : Graph).Stored := { full_empty.toOwned, slotted_empty with }

/-! ### Adding a node -/

/-- A number that is given out belongs to no node before and to the new one afterwards. -/
theorem Slotted.node?_addNode (hg : g.Slotted) (n : Node) :
    g.node? (g.addNode n).2 = none ∧
      ∀ j, (g.addNode n).1.node? j = if j = (g.addNode n).2 then some n else g.node? j := by
  cases hfree : g.freeNodes with
  | nil =>
      have hid : (g.addNode n).2 = g.nodes.length := by simp [addNode, hfree]
      have hnodes : (g.addNode n).1.nodes = g.nodes ++ [some n] := by simp [addNode, hfree]
      rw [hid]
      refine ⟨node?_eq_none_of_le (Nat.le_refl _), fun j => ?_⟩
      rw [node?, hnodes, List.getElem?_append]
      rcases Nat.lt_trichotomy j g.nodes.length with hlt | rfl | hgt
      · simp [node?, hlt, Nat.ne_of_lt hlt]
      · simp
      · have hsub : j - g.nodes.length ≠ 0 := Nat.sub_ne_zero_of_lt hgt
        rw [if_neg (Nat.lt_asymm hgt), if_neg (Nat.ne_of_gt hgt),
          node?_eq_none_of_le (Nat.le_of_lt hgt)]
        simp [hsub]
  | cons i rest =>
      obtain ⟨hlt, hnone⟩ := hg.vacant.mp (hfree ▸ List.mem_cons_self : i ∈ g.freeNodes)
      have hid : (g.addNode n).2 = i := by simp [addNode, hfree]
      have hnodes : (g.addNode n).1.nodes = g.nodes.set i (some n) := by simp [addNode, hfree]
      rw [hid]
      refine ⟨hnone, fun j => ?_⟩
      rw [node?, hnodes, List.getElem?_set]
      by_cases hj : i = j
      · subst hj
        simp [hlt]
      · simp [node?, hj, Ne.symm hj]

/-- A new node for a value takes over what the value leads to. -/
theorem owners_addNode_of_some (h : n.origin = some v) :
    (g.addNode n).1.owners = (v, (g.addNode n).2) :: g.owners.filter (·.1 ≠ v) := by
  simp [addNode, h]

/-- A value that a new node stands for leads to it; other values lead where they led. -/
theorem find?_addNode :
    (g.addNode n).1.find? w =
      if n.origin = some w then some (g.addNode n).2 else g.find? w := by
  cases ho : n.origin with
  | none => simpa using find?_addNode_of_none ho
  | some v =>
      rw [find?, owners_addNode_of_some ho, List.lookup_cons]
      by_cases hw : w = v
      · simp [hw]
      · rw [beq_false_of_ne hw, lookup_filter_ne hw, if_neg fun h => hw (Option.some.inj h).symm]
        rfl

/-- The numbers that are free once a node is added. -/
theorem Slotted.mem_freeNodes_addNode (hg : g.Slotted) :
    (g.addNode n).1.freeNodes.Nodup ∧
      ∀ i, i ∈ (g.addNode n).1.freeNodes ↔ i ∈ g.freeNodes ∧ i ≠ (g.addNode n).2 := by
  have hnodup := hg.free
  cases hfree : g.freeNodes with
  | nil => simp [addNode, hfree]
  | cons k rest =>
      rw [hfree, List.nodup_cons] at hnodup
      simp only [addNode, hfree, List.mem_cons]
      refine ⟨hnodup.2, fun i => ⟨fun hi => ⟨.inr hi, ?_⟩, fun h => h.1.resolve_left h.2⟩⟩
      exact fun heq => hnodup.1 (heq ▸ hi)

/-- Besides the numbers that were given out only that of the new node is. -/
theorem length_nodes_addNode (hg : g.Slotted) :
    i < (g.addNode n).1.nodes.length ↔ i < g.nodes.length ∨ i = (g.addNode n).2 := by
  cases hfree : g.freeNodes with
  | nil =>
      simp only [addNode, hfree, List.length_append, List.length_singleton]
      exact Nat.lt_succ_iff_lt_or_eq
  | cons k rest =>
      obtain ⟨hlt, _⟩ := hg.vacant.mp (hfree ▸ List.mem_cons_self : k ∈ g.freeNodes)
      simp only [addNode, hfree, List.length_set]
      exact ⟨.inl, fun h => h.elim id fun heq => heq ▸ hlt⟩

/-- With a new node the map still holds a value once. -/
theorem entry_addNode (hentry : ∀ {w i}, (w, i) ∈ g.owners → g.find? w = some i)
    (hw : (w, i) ∈ (g.addNode n).1.owners) : (g.addNode n).1.find? w = some i := by
  rw [find?_addNode]
  cases ho : n.origin with
  | none =>
      simp only [Graph.addNode, ho] at hw
      simpa using hentry hw
  | some v =>
      rw [owners_addNode_of_some ho, List.mem_cons, List.mem_filter] at hw
      rcases hw with heq | ⟨hmem, hne⟩
      · cases heq
        exact if_pos rfl
      · rw [if_neg fun h => of_decide_eq_true hne (Option.some.inj h).symm, hentry hmem]

/-- A new node may take over the value that it stands for, and no other. -/
theorem Owned.addNode (hg : g.Owned) (hs : g.Slotted) (n : Node) : (g.addNode n).1.Owned where
  entry := entry_addNode hg.entry
  owner {w i} hw := by
    rw [find?_addNode] at hw
    rw [(hs.node?_addNode n).2]
    split at hw
    · rename_i ho
      cases hw
      exact ⟨n, if_pos rfl, ho⟩
    · -- a value that is left alone leads to a node, so not to the number that was free
      obtain ⟨m, hm, hmw⟩ := hg.owner hw
      refine ⟨m, ?_, hmw⟩
      rw [if_neg fun h => ?_, hm]
      rw [h, (hs.node?_addNode n).1] at hm
      cases hm

/-- A new node takes its number from the free ones. -/
theorem Slotted.addNode (hg : g.Slotted) (n : Node) : (g.addNode n).1.Slotted where
  entry := entry_addNode hg.entry
  free := (hg.mem_freeNodes_addNode).1
  vacant {i} := by
    rw [hg.mem_freeNodes_addNode.2, hg.vacant, length_nodes_addNode hg, (hg.node?_addNode n).2]
    by_cases hi : i = (g.addNode n).2 <;> simp [hi]
  ends {a b} hab := by
    have hold : ∀ k, g.node? k ≠ none → (g.addNode n).1.node? k ≠ none := by
      intro k hk
      rw [(hg.node?_addNode n).2]
      split
      · simp
      · exact hk
    rw [hasEdge_addNode] at hab
    exact ⟨hold a (hg.ends hab).1, hold b (hg.ends hab).2⟩
  pairs := hg.pairs
  numbers := hg.numbers
  bound := hg.bound

/-- A new node leaves a stored graph stored. -/
theorem Stored.addNode (hg : g.Stored) (n : Node) : (g.addNode n).1.Stored :=
  { hg.toOwned.addNode hg.toSlotted n, hg.toSlotted.addNode n with }

/-! ### Changing a node -/

/-- A change after which a node stands for the same value leaves the map right. -/
theorem Owned.modifyNode (hg : g.Owned) {change : Node → Node}
    (hkeeps : ∀ n, g.node? i = some n → (change n).origin = n.origin) :
    (g.modifyNode i change).Owned where
  entry := hg.entry
  owner {v j} hv := by
    obtain ⟨m, hm, hmv⟩ := hg.owner hv
    rw [node?_modifyNode, hm]
    by_cases hj : j = i
    · exact ⟨change m, if_pos hj, (hkeeps m (hj ▸ hm)).trans hmv⟩
    · exact ⟨m, if_neg hj, hmv⟩

/-- No change of what a node holds touches a number. -/
theorem Slotted.modifyNode (hg : g.Slotted) (i : NodeId) (change : Node → Node) :
    (g.modifyNode i change).Slotted where
  entry := hg.entry
  free := hg.free
  vacant {j} := by
    have hfree : (g.modifyNode i change).freeNodes = g.freeNodes := rfl
    rw [hfree, length_modifyNode, node?_modifyNode]
    split
    · simpa using hg.vacant
    · exact hg.vacant
  ends {a b} hab := by
    have hsame : ∀ k, g.node? k ≠ none → (g.modifyNode i change).node? k ≠ none := by
      intro k hk
      rw [node?_modifyNode]
      split
      · simpa using hk
      · exact hk
    exact ⟨hsame a (hg.ends hab).1, hsame b (hg.ends hab).2⟩
  pairs := hg.pairs
  numbers := hg.numbers
  bound := hg.bound

/-- A change that keeps what nodes stand for leaves a stored graph stored. -/
theorem Stored.modifyNode (hg : g.Stored) {change : Node → Node}
    (hkeeps : ∀ n, (change n).origin = n.origin) (i : NodeId) : (g.modifyNode i change).Stored :=
  { hg.toOwned.modifyNode fun n _ => hkeeps n, hg.toSlotted.modifyNode i change with }

/-! ### Adding an edge -/

/-- A graph with one more edge, under a number that was free or was never given out. -/
theorem Slotted.withLink (hg : g.Slotted) (ha : g.node? a ≠ none) (hb : g.node? b ≠ none)
    (hab : ¬ g.hasEdge a b) {slot bound : Nat} {rest : List Nat}
    (hnumbers : (slot :: (g.links.map (·.slot) ++ rest)).Nodup)
    (hbound : ∀ s ∈ slot :: (g.links.map (·.slot) ++ rest), s < bound) :
    Slotted { g with links := ⟨slot, a, b⟩ :: g.links, freeLinks := rest, linkSlots := bound } where
  entry := hg.entry
  free := hg.free
  vacant := hg.vacant
  ends {x y} hxy := by
    obtain ⟨l, hl, hx, hy⟩ := hasEdge_iff.mp hxy
    rcases List.mem_cons.mp hl with rfl | hold
    · exact hx ▸ hy ▸ ⟨ha, hb⟩
    · exact hg.ends (hasEdge_iff.mpr ⟨l, hold, hx, hy⟩)
  pairs := by
    rw [List.map_cons, List.nodup_cons, ← edges_perm.mem_iff, mem_edges]
    exact ⟨hab, hg.pairs⟩
  numbers := hnumbers
  bound := hbound

/-- An edge that is new may be added between two nodes. -/
theorem Slotted.addLink (hg : g.Slotted) (ha : g.node? a ≠ none) (hb : g.node? b ≠ none)
    (hab : ¬ g.hasEdge a b) : (g.addLink a b).Slotted := by
  have hnumbers := hg.numbers
  have hbound := hg.bound
  unfold Graph.addLink
  split
  · -- a number that was never given out is above all others
    refine hg.withLink ha hb hab (List.nodup_cons.mpr ⟨fun h => ?_, hnumbers⟩) fun s hs => ?_
    · exact Nat.lt_irrefl _ (hbound _ h)
    · rcases List.mem_cons.mp hs with rfl | hs
      · exact Nat.lt_succ_self _
      · exact Nat.lt_succ_of_lt (hbound s hs)
  · rename_i slot rest hfree
    rw [hfree] at hnumbers hbound
    refine hg.withLink ha hb hab (List.perm_middle.nodup_iff.mp hnumbers) fun s hs => ?_
    exact hbound s (List.perm_middle.mem_iff.mpr hs)

/-- An edge between two nodes is added unless it is there, and nothing is reported. -/
theorem connect_of_live (hi : g.node? i ≠ none) (hj : g.node? j ≠ none) :
    g.connect (some i) (some j) = (if g.hasEdge i j then g else g.addLink i j, none) := by
  have hlive : ¬ ((g.node? i).isNone ∨ (g.node? j).isNone) := by simp [hi, hj]
  simp only [connect, if_neg hlive]
  split <;> rfl

/-- Connecting reports nothing where it is given two nodes that are there. -/
theorem connect_reports_none (a b : Option NodeId) : (g.connect a b).2 = none ↔
    ∃ i j, a = some i ∧ b = some j ∧ g.node? i ≠ none ∧ g.node? j ≠ none := by
  constructor
  · intro h
    unfold connect at h
    split at h
    · rename_i i j
      split at h
      · cases h
      · rename_i hlive
        refine ⟨i, j, rfl, rfl, fun hi => hlive (.inl ?_), fun hj => hlive (.inr ?_)⟩
        · rw [hi, Option.isNone_none]
        · rw [hj, Option.isNone_none]
    · cases h
  · rintro ⟨i, j, rfl, rfl, hi, hj⟩
    rw [connect_of_live hi hj]

/-- Connecting changes nothing where it reports something. -/
theorem connect_of_event (h : (g.connect source target).2 ≠ none) :
    (g.connect source target).1 = g := by
  unfold connect at h ⊢
  split
  · split
    · rfl
    · rename_i hlive
      simp only [if_neg hlive] at h
      split at h <;> exact absurd rfl h
  · rfl

/-- Edges keep the map from values to nodes sound. -/
theorem Owned.connect (hg : g.Owned) (a b : Option NodeId) : (g.connect a b).1.Owned where
  entry {v i} hv := by
    rw [find?_connect]
    exact hg.entry (by rwa [(connect_nodes a b).2.1] at hv)
  owner {v i} hv := by
    rw [find?_connect] at hv
    simpa using hg.owner hv

/-- Whatever is given to it, connecting keeps edges distinct and between nodes. -/
theorem Slotted.connect (hg : g.Slotted) (a b : Option NodeId) : (g.connect a b).1.Slotted := by
  by_cases hreport : (g.connect a b).2 = none
  · obtain ⟨i, j, rfl, rfl, hi, hj⟩ := (connect_reports_none a b).mp hreport
    rw [connect_of_live hi hj]
    dsimp only
    split
    · exact hg
    · rename_i hedge
      exact hg.addLink hi hj hedge
  · rwa [connect_of_event hreport]

/-- An edge leaves a stored graph stored. -/
theorem Stored.connect (hg : g.Stored) (a b : Option NodeId) : (g.connect a b).1.Stored :=
  { hg.toOwned.connect a b, hg.toSlotted.connect a b with }

/-! ### Removing a node -/

/-- Removing a node removes the edges at it and no other. -/
theorem hasEdge_removeNode_iff (hg : g.Slotted) :
    (g.removeNode i).hasEdge x y ↔ g.hasEdge x y ∧ x ≠ i ∧ y ≠ i := by
  cases hi : g.node? i with
  | none =>
      rw [removeNode_of_none hi, iff_self_and]
      intro hxy
      exact ⟨fun h => (hg.ends hxy).1 (h ▸ hi), fun h => (hg.ends hxy).2 (h ▸ hi)⟩
  | some n =>
      simp only [hasEdge_iff, removeNode, hi, List.mem_filter, decide_eq_true_eq]
      constructor
      · rintro ⟨l, ⟨hl, hne⟩, rfl, rfl⟩
        exact ⟨⟨l, hl, rfl, rfl⟩, hne⟩
      · rintro ⟨⟨l, hl, rfl, rfl⟩, hne⟩
        exact ⟨l, ⟨hl, hne⟩, rfl, rfl⟩

/-- The edges that leave a node and those that enter it from another are the edges at it. -/
theorem perm_linksAt (links : List Link) (i : NodeId) :
    (links.filter (·.source = i) ++ links.filter fun l => l.target = i ∧ l.source ≠ i).Perm
      (links.filter fun l => ¬ (l.source ≠ i ∧ l.target ≠ i)) := by
  have hsplit := List.filter_append_perm (fun l : Link => decide (l.source = i))
    (links.filter fun l => ¬ (l.source ≠ i ∧ l.target ≠ i))
  rw [List.filter_filter, List.filter_filter] at hsplit
  refine .trans (.of_eq ?_) hsplit
  congr 1 <;> refine List.filter_congr fun l _ => ?_
  · by_cases hs : l.source = i <;> simp [hs]
  · by_cases hs : l.source = i <;> simp [hs]

/-- Removing a node gives the numbers of its edges to the free ones. -/
theorem numbers_removeNode :
    ((g.removeNode i).links.map (·.slot) ++ (g.removeNode i).freeLinks).Perm
      (g.links.map (·.slot) ++ g.freeLinks) := by
  cases hi : g.node? i with
  | none => rw [removeNode_of_none hi]
  | some n =>
      have hstay := List.filter_append_perm
        (fun l : Link => decide (l.source ≠ i ∧ l.target ≠ i)) g.links
      have hgone := (perm_linksAt g.links i).map (·.slot)
      have hall : ((g.links.filter fun l => l.source ≠ i ∧ l.target ≠ i).map (·.slot) ++
          (g.links.filter fun l => ¬ (l.source ≠ i ∧ l.target ≠ i)).map (·.slot)).Perm
            (g.links.map (·.slot)) := by
        rw [← List.map_append]
        simpa using hstay.map (·.slot)
      simp only [removeNode, hi, ← List.append_assoc]
      refine List.Perm.append_right _ ?_
      exact (((List.reverse_perm _).trans hgone).append_left _).trans hall

/-- A node that is removed gives its number and those of its edges back. -/
theorem Slotted.removeNode (hg : g.Slotted) (i : NodeId) : (g.removeNode i).Slotted where
  entry {v j} hv := by
    refine (find?_removeNode_iff hg.entry).mpr ?_
    cases hi : g.node? i with
    | none =>
        rw [removeNode_of_none hi] at hv
        exact ⟨hg.entry hv, by simp⟩
    | some n =>
        rw [owners_removeNode hi, List.mem_filter] at hv
        exact ⟨hg.entry hv.1, of_decide_eq_true hv.2⟩
  free := by
    cases hi : g.node? i with
    | none =>
        rw [removeNode_of_none hi]
        exact hg.free
    | some n =>
        have hnot : i ∉ g.freeNodes := fun h => by simp [(hg.vacant.mp h).2] at hi
        simpa [Graph.removeNode, hi] using ⟨hnot, hg.free⟩
  vacant {j} := by
    rw [length_removeNode, node?_removeNode]
    cases hi : g.node? i with
    | none =>
        rw [removeNode_of_none hi, hg.vacant]
        by_cases hj : j = i <;> simp [hj, hi]
    | some n =>
        have hfree : (g.removeNode i).freeNodes = i :: g.freeNodes := by simp [Graph.removeNode, hi]
        rw [hfree, List.mem_cons, hg.vacant]
        by_cases hj : j = i
        · simp [hj, lt_length_of_node? hi]
        · simp [hj]
  ends {x y} hxy := by
    obtain ⟨hold, hx, hy⟩ := (hasEdge_removeNode_iff hg).mp hxy
    rw [node?_removeNode, node?_removeNode, if_neg hx, if_neg hy]
    exact hg.ends hold
  pairs := by
    unfold Graph.removeNode
    split
    · exact hg.pairs
    · exact hg.pairs.sublist (List.filter_sublist.map _)
  numbers := numbers_removeNode.nodup_iff.mpr hg.numbers
  bound s hs := by
    have hslots : (g.removeNode i).linkSlots = g.linkSlots := by
      unfold Graph.removeNode
      split <;> rfl
    rw [hslots]
    exact hg.bound s (numbers_removeNode.mem_iff.mp hs)

/-- Removing a node leaves a stored graph stored. -/
theorem Stored.removeNode (hg : g.Stored) (i : NodeId) : (g.removeNode i).Stored :=
  { hg.toOwned.removeNode i, hg.toSlotted.removeNode i with }

/-! ### Any edit -/

/-- A value without a node gets a node that stands for it. -/
theorem nodeFor_of_none (f : Function) (hv : g.find? v = none) (hn : f.newNode? v = some n) :
    g.nodeFor f v = ((g.addNode n).1, some (g.addNode n).2) := by
  simp only [nodeFor, hv, hn]

/-- A value that can have no node gets none. -/
theorem nodeFor_of_refused (f : Function) (hv : g.find? v = none) (hn : f.newNode? v = none) :
    g.nodeFor f v = (g, none) := by
  simp only [nodeFor, hv, hn]

/-- A value that leads to a node already gets that one. -/
theorem nodeFor_of_some (f : Function) (hv : g.find? v = some i) :
    g.nodeFor f v = (g, some i) := by
  simp only [nodeFor, hv]

/-- Every edit keeps numbers and edges in order. -/
theorem Slotted.edit (hg : g.Slotted) (e : Edit) : (g.edit e).Slotted := by
  cases e with
  | ensure f v =>
      show (g.nodeFor f v).1.Slotted
      cases hv : g.find? v with
      | some i => rwa [nodeFor_of_some f hv]
      | none =>
          cases hn : f.newNode? v with
          | none => rwa [nodeFor_of_refused f hv hn]
          | some n =>
              rw [nodeFor_of_none f hv hn]
              exact hg.addNode n
  | add n => exact hg.addNode n
  | connect a b => exact hg.connect a b
  | remove i =>
      cases i with
      | none => exact hg
      | some i => exact hg.removeNode i
  | modify i change => exact hg.modifyNode i change

/-- A further edit is made to the graph after the others. -/
theorem after_append (edits : List Edit) (e : Edit) :
    after (edits ++ [e]) = (after edits).edit e := by
  simp [after]

/-- What holds of the empty graph and is kept by each edit in its turn holds in the end. -/
theorem after_induct {P : Graph → Prop} {edits : List Edit} (hempty : P {})
    (hstep : ∀ k e, edits[k]? = some e → P (after (edits.take k)) →
      P ((after (edits.take k)).edit e)) : P (after edits) := by
  have htake : ∀ k, k ≤ edits.length → P (after (edits.take k)) := by
    intro k
    induction k with
    | zero => exact fun _ => hempty
    | succ k ih =>
        intro hk
        have he : edits[k]? = some edits[k] := List.getElem?_eq_getElem hk
        rw [List.take_add_one, he, Option.toList_some, after_append]
        exact hstep k _ he (ih (Nat.le_of_lt hk))
  have hall := htake edits.length (Nat.le_refl _)
  rwa [List.take_length] at hall

/-- Every graph that edits can make is slotted. -/
theorem slotted_after (edits : List Edit) : (after edits).Slotted :=
  after_induct slotted_empty fun _ e _ hg => hg.edit e

/-! ## What a graph answers -/

/-- A graph whose answers about nodes and edges agree with one another. -/
structure Coherent (g : Graph) : Prop where
  /-- Edges join nodes. -/
  ends : ∀ {a b}, (a, b) ∈ g.edges → g.node? a ≠ none ∧ g.node? b ≠ none
  /-- No edge is listed twice. -/
  once : g.edges.Nodup
  /-- No two edges have one number. -/
  numbers : (g.links.map (·.slot)).Nodup
  /-- The outputs of a node are the targets of its edges. -/
  mem_outputs : ∀ {a b}, b ∈ g.outputs a ↔ (a, b) ∈ g.edges
  /-- The inputs of a node are the sources of the edges into it. -/
  mem_inputs : ∀ {a b}, a ∈ g.inputs b ↔ (a, b) ∈ g.edges
  /-- No output is listed twice. -/
  outputs : ∀ a, (g.outputs a).Nodup
  /-- No input is listed twice. -/
  inputs : ∀ b, (g.inputs b).Nodup
  /-- The degree of a node counts its inputs and its outputs. -/
  degree : ∀ a, g.degree a = (g.inputs a).length + (g.outputs a).length

/-- The edges of a graph are distinct. -/
theorem Slotted.nodup_edges (hg : g.Slotted) : g.edges.Nodup := edges_perm.nodup_iff.mpr hg.pairs

/-- The inputs of a node are the sources of its edges. -/
theorem Slotted.mem_inputs_iff (hg : g.Slotted) : a ∈ g.inputs b ↔ (a, b) ∈ g.edges := by
  rw [mem_edges, mem_inputs, and_iff_right_iff_imp]
  intro hab
  obtain ⟨n, hn⟩ := Option.ne_none_iff_exists'.mp (hg.ends hab).1
  exact lt_length_of_node? hn

/-- The outputs of a node are the targets of its edges. -/
theorem Slotted.mem_outputs_iff (hg : g.Slotted) : b ∈ g.outputs a ↔ (a, b) ∈ g.edges := by
  rw [mem_edges, outputs, List.mem_filter, List.mem_range, and_iff_right_iff_imp]
  intro hab
  obtain ⟨n, hn⟩ := Option.ne_none_iff_exists'.mp (hg.ends hab).2
  exact lt_length_of_node? hn

/-- Each input is listed once. -/
theorem nodup_inputs (b : NodeId) : (g.inputs b).Nodup := List.nodup_range.filter _

/-- Each output is listed once. -/
theorem nodup_outputs (a : NodeId) : (g.outputs a).Nodup := List.nodup_range.filter _

/-- As many links enter a node as it has inputs. -/
theorem Slotted.length_inputs (hg : g.Slotted) (b : NodeId) :
    (g.inputs b).length = g.links.countP (·.target = b) := by
  have hnodup : ((g.edges.filter (·.2 = b)).map (·.1)).Nodup := by
    refine List.Nodup.map_on ?_ (hg.nodup_edges.filter _)
    rintro ⟨x, z⟩ hx ⟨y, w⟩ hy rfl
    rw [List.mem_filter, decide_eq_true_eq] at hx hy
    rw [Prod.mk.injEq]
    exact ⟨rfl, hx.2.trans hy.2.symm⟩
  have hperm : (g.inputs b).Perm ((g.edges.filter (·.2 = b)).map (·.1)) := by
    refine (List.perm_ext_iff_of_nodup (nodup_inputs b) hnodup).mpr fun a => ?_
    simp [hg.mem_inputs_iff]
  rw [hperm.length_eq, List.length_map, ← List.countP_eq_length_filter, edges_perm.countP_eq,
    List.countP_map]
  rfl

/-- As many links leave a node as it has outputs. -/
theorem Slotted.length_outputs (hg : g.Slotted) (a : NodeId) :
    (g.outputs a).length = g.links.countP (·.source = a) := by
  have hnodup : ((g.edges.filter (·.1 = a)).map (·.2)).Nodup := by
    refine List.Nodup.map_on ?_ (hg.nodup_edges.filter _)
    rintro ⟨x, z⟩ hx ⟨y, w⟩ hy rfl
    rw [List.mem_filter, decide_eq_true_eq] at hx hy
    rw [Prod.mk.injEq]
    exact ⟨hx.2.trans hy.2.symm, rfl⟩
  have hperm : (g.outputs a).Perm ((g.edges.filter (·.1 = a)).map (·.2)) := by
    refine (List.perm_ext_iff_of_nodup (nodup_outputs a) hnodup).mpr fun b => ?_
    simp [hg.mem_outputs_iff]
  rw [hperm.length_eq, List.length_map, ← List.countP_eq_length_filter, edges_perm.countP_eq,
    List.countP_map]
  rfl

/-- A slotted graph answers alike about edges from both ends. -/
theorem Slotted.coherent (hg : g.Slotted) : g.Coherent where
  ends h := hg.ends (mem_edges.mp h)
  once := hg.nodup_edges
  numbers := (List.nodup_append.mp hg.numbers).1
  mem_outputs := hg.mem_outputs_iff
  mem_inputs := hg.mem_inputs_iff
  outputs := nodup_outputs
  inputs := nodup_inputs
  degree a := by rw [degree, hg.length_inputs, hg.length_outputs]

/-! ## What an edit does to the view -/

/-- Seen without edge numbers, a new node is inserted. -/
theorem Slotted.view_addNode (hg : g.Slotted) (n : Node) :
    (g.addNode n).1.view = g.view.insert (g.addNode n).2 n := by
  ext1
  · exact funext (hg.node?_addNode n).2
  · funext a b
    exact propext (mem_edges.trans (mem_edges (g := g)).symm)
  · exact funext fun w => find?_addNode

/-- Seen without edge numbers, an edge joins two nodes. -/
theorem view_connect (hi : g.node? i ≠ none) (hj : g.node? j ≠ none) :
    (g.connect (some i) (some j)).1.view = g.view.join i j := by
  ext1
  · exact funext fun k => node?_connect (some i) (some j)
  · funext a b
    refine propext (mem_edges.trans ?_)
    rw [hasEdge_connect (Option.ne_none_iff_exists'.mp hi) (Option.ne_none_iff_exists'.mp hj)]
    exact or_congr_left mem_edges.symm
  · exact funext fun v => find?_connect (some i) (some j)

/-- Seen without edge numbers, a node is removed with its edges. -/
theorem Slotted.view_removeNode (hg : g.Slotted) : (g.removeNode i).view = g.view.erase i := by
  ext1
  · exact funext fun j => node?_removeNode
  · funext a b
    refine propext (mem_edges.trans ((hasEdge_removeNode_iff hg).trans ?_))
    exact and_congr_left fun _ => mem_edges.symm
  · funext v
    show (g.removeNode i).find? v = (g.find? v).filter _
    ext j
    rw [find?_removeNode_iff hg.entry, Option.filter_eq_some_iff, decide_eq_true_eq]
    rfl

/-- Seen without edge numbers, a node is altered. -/
theorem view_modifyNode (change : Node → Node) :
    (g.modifyNode i change).view = g.view.alter i change := by
  ext1
  · exact funext fun j => node?_modifyNode change
  · rfl
  · rfl

/-- A graph to which each edit does what it is meant to do, and that says so. -/
structure Simulates (g : Graph) : Prop where
  /-- A value that has a node keeps it. -/
  found : ∀ {f v i}, g.find? v = some i → g.nodeFor f v = (g, some i)
  /-- A value that can have no node gets none. -/
  refused : ∀ {f v}, g.find? v = none → Function.newNode? f v = none → g.nodeFor f v = (g, none)
  /-- A value that can have a node and has none gets one that stands for it. -/
  made : ∀ {f v n}, g.find? v = none → Function.newNode? f v = some n →
    n.origin = some v ∧ g.nodeFor f v = ((g.addNode n).1, some (g.addNode n).2)
  /-- A new node takes a number that is no node, and nothing else changes. -/
  added : ∀ n, g.node? (g.addNode n).2 = none ∧
    (g.addNode n).1.view = g.view.insert (g.addNode n).2 n
  /-- Connecting succeeds where it is given two nodes. -/
  connects : ∀ a b, (g.connect a b).2 = none ↔
    ∃ i j, a = some i ∧ b = some j ∧ g.node? i ≠ none ∧ g.node? j ≠ none
  /-- Connecting two nodes adds the edge between them and changes nothing else. -/
  joined : ∀ {i j}, g.node? i ≠ none → g.node? j ≠ none →
    (g.connect (some i) (some j)).1.view = g.view.join i j
  /-- Connecting changes nothing where it does not succeed. -/
  unjoined : ∀ {a b}, (g.connect a b).2 ≠ none → (g.connect a b).1 = g
  /-- Removing a node gives what it held; its edges go, and so does what leads to it from the value
  that it stands for. -/
  removed : ∀ i, (g.remove (some i)).removed = g.node? i ∧
    (g.remove (some i)).graph.view = g.view.erase i
  /-- Removing nothing, or a number that is no node, changes nothing. -/
  spared : ∀ i : Option NodeId, (∀ j, i = some j → g.node? j = none) →
    (g.remove i).removed = none ∧ (g.remove i).graph = g
  /-- Changing what a node holds changes nothing else. -/
  modified : ∀ i change, (g.modifyNode i change).view = g.view.alter i change

/-- Every edit of a slotted graph does what it is meant to do. -/
theorem Slotted.simulates (hg : g.Slotted) : g.Simulates where
  found := nodeFor_of_some _
  refused := nodeFor_of_refused _
  made hv hn := ⟨(Draft.newNode?_eq_some hn).1, nodeFor_of_none _ hv hn⟩
  added n := ⟨(hg.node?_addNode n).1, hg.view_addNode n⟩
  connects := connect_reports_none
  joined := view_connect
  unjoined := connect_of_event
  removed _ := ⟨rfl, hg.view_removeNode⟩
  spared i hi := by
    cases i with
    | none => exact ⟨rfl, rfl⟩
    | some j => exact ⟨hi j rfl, removeNode_of_none (hi j rfl)⟩
  modified _ := view_modifyNode

/-! ## One node for a value -/

/-- No change gives a node another value to stand for. -/
def KeepsOrigins (edits : List Edit) : Prop :=
  ∀ k i change n, edits[k]? = some (.modify i change) →
    (after (edits.take k)).node? i = some n → (change n).origin = n.origin

/-- No node is added for a value that leads to a node already. -/
def NewOrigins (edits : List Edit) : Prop :=
  ∀ k n v, edits[k]? = some (.add n) → n.origin = some v →
    (after (edits.take k)).find? v = none

/-- A graph whose values lead to the nodes that stand for them, as long as there are such nodes. -/
structure Faithful (g : Graph) : Prop where
  /-- A value leads to a node that stands for it. -/
  owner : ∀ {v i}, g.find? v = some i → ∃ n, g.node? i = some n ∧ n.origin = some v
  /-- No value leads to a node that was removed. -/
  freed : ∀ i v, (g.remove (some i)).graph.find? v ≠ some i

/-- In a graph with a sound map a value leads to its node. -/
theorem Owned.faithful (hg : g.Owned) : g.Faithful :=
  ⟨hg.owner, fun _ _ hv => ((find?_removeNode hg).mp hv).2 rfl⟩

/-- An edit keeps the map right, if no node stands for another value afterwards. -/
theorem Owned.edit (hg : g.Owned) (hs : g.Slotted) (e : Edit)
    (hkeeps : ∀ i change n, e = .modify i change → g.node? i = some n →
      (change n).origin = n.origin) : (g.edit e).Owned := by
  cases e with
  | ensure f v =>
      show (g.nodeFor f v).1.Owned
      cases hv : g.find? v with
      | some i => rwa [nodeFor_of_some f hv]
      | none =>
          cases hn : f.newNode? v with
          | none => rwa [nodeFor_of_refused f hv hn]
          | some n =>
              rw [nodeFor_of_none f hv hn]
              exact hg.addNode hs n
  | add n => exact hg.addNode hs n
  | connect a b => exact hg.connect a b
  | remove i =>
      cases i with
      | none => exact hg
      | some i => exact hg.removeNode i
  | modify i change => exact hg.modifyNode fun n => hkeeps i change n rfl

/-- Edits that keep what nodes stand for keep the map sound. -/
theorem owned_after {edits : List Edit} (hkeeps : KeepsOrigins edits) : (after edits).Owned :=
  after_induct full_empty.toOwned fun k e he hg =>
    hg.edit (slotted_after _) e fun i change n heq => hkeeps k i change n (heq ▸ he)

/-- A graph whose nodes are those that their values lead to. -/
def Mapped (g : Graph) : Prop :=
  ∀ i n v, g.node? i = some n → n.origin = some v → g.find? v = some i

/-- A new node for a value that led nowhere is the one that the value leads to. -/
theorem Mapped.addNode (hg : g.Slotted) (hm : g.Mapped)
    (hnew : ∀ v, n.origin = some v → g.find? v = none) : (g.addNode n).1.Mapped := by
  intro i m v hi hv
  rw [(hg.node?_addNode n).2] at hi
  rw [find?_addNode]
  split at hi
  · rename_i heq
    cases hi
    rw [if_pos hv, heq]
  · have hfind := hm i m v hi hv
    rw [if_neg fun h => ?_, hfind]
    rw [hnew v h] at hfind
    cases hfind

/-- An edit keeps a node to be the one that its value leads to, if it adds no second node for a
value and makes no node stand for another one. -/
theorem Mapped.edit (hg : g.Stored) (hm : g.Mapped) (e : Edit)
    (hkeeps : ∀ i change n, e = .modify i change → g.node? i = some n →
      (change n).origin = n.origin)
    (hnew : ∀ n, e = .add n → ∀ v, n.origin = some v → g.find? v = none) :
    (g.edit e).Mapped := by
  cases e with
  | ensure f v =>
      show (g.nodeFor f v).1.Mapped
      cases hv : g.find? v with
      | some i => rwa [nodeFor_of_some f hv]
      | none =>
          cases hn : f.newNode? v with
          | none => rwa [nodeFor_of_refused f hv hn]
          | some n =>
              rw [nodeFor_of_none f hv hn]
              refine hm.addNode hg.toSlotted fun w hw => ?_
              rw [(Draft.newNode?_eq_some hn).1] at hw
              cases hw
              exact hv
  | add n => exact hm.addNode hg.toSlotted (hnew n rfl)
  | connect a b =>
      intro i n v hi hv
      rw [Graph.edit, node?_connect] at hi
      rw [Graph.edit, find?_connect]
      exact hm i n v hi hv
  | remove i =>
      cases i with
      | none => exact hm
      | some j =>
          intro i n v hi hv
          replace hi : (g.removeNode j).node? i = some n := hi
          rw [node?_removeNode] at hi
          split at hi
          · cases hi
          · rename_i hne
            exact (find?_removeNode hg.toOwned).mpr ⟨hm i n v hi hv, hne⟩
  | modify j change =>
      intro i n v hi hv
      replace hi : (g.modifyNode j change).node? i = some n := hi
      rw [node?_modifyNode] at hi
      split at hi
      · rename_i heq
        obtain ⟨m, hm', rfl⟩ := Option.map_eq_some_iff.mp hi
        exact hm i m v hm' ((hkeeps j change m rfl (heq ▸ hm')).symm.trans hv)
      · exact hm i n v hi hv

/-- When each value gets one node only, the nodes are those their values lead to. -/
theorem mapped_after {edits : List Edit} (hkeeps : KeepsOrigins edits)
    (hnew : NewOrigins edits) : (after edits).Mapped := by
  have hboth : (after edits).Owned ∧ (after edits).Mapped := by
    refine after_induct (P := fun g => g.Owned ∧ g.Mapped)
      ⟨full_empty.toOwned, fun i n v hi => by simp [node?] at hi⟩ fun k e he hg => ?_
    have hstored : (after (edits.take k)).Stored := { hg.1, slotted_after (edits.take k) with }
    have hkeeps' : ∀ i change n, e = .modify i change →
        (after (edits.take k)).node? i = some n → (change n).origin = n.origin :=
      fun i change n heq => hkeeps k i change n (heq ▸ he)
    exact ⟨hg.1.edit (slotted_after _) e hkeeps',
      hg.2.edit hstored e hkeeps' fun n heq v => hnew k n v (heq ▸ he)⟩
  exact hboth.2

/-- After any edits to the empty graph, its answers agree with one another, and the next edit does
what it is meant to do to a digraph with a map from values to nodes. If no change gave a node
another value to stand for, values lead to the nodes that stand for them; and if no node was added
for a value that led to a node already, no two nodes stand for one value. -/
theorem simulates_plainGraph (edits : List Edit) :
    (after edits).Coherent ∧ (after edits).Simulates ∧
      (KeepsOrigins edits → (after edits).Faithful ∧
        (NewOrigins edits → ∀ {i j n m v}, (after edits).node? i = some n →
          (after edits).node? j = some m → n.origin = some v → m.origin = some v → i = j)) := by
  have hg := slotted_after edits
  refine ⟨hg.coherent, hg.simulates, fun hkeeps => ⟨(owned_after hkeeps).faithful,
    fun hnew i j n m v hi hj hn hm => ?_⟩⟩
  have hmapped := mapped_after hkeeps hnew
  exact Option.some.inj ((hmapped i n v hi hn).symm.trans (hmapped j m v hj hm))

/-- A node with an edge to itself is changed and removed, and its number is given to another node
for the same value. -/
def recycling : List Edit :=
  [.add { kind := .functionInput, origin := some (.param 0), label := "i32 %a" },
    .add { kind := .constant, origin := some (.global "g"), label := "@g" },
    .connect (some 0) (some 1), .connect (some 1) (some 1), .connect (some 1) (some 0),
    .modify 1 fun n => { n with kind := .load, symbol := "ld" },
    .remove (some 1),
    .add { kind := .constant, origin := some (.global "g"), label := "@g again" },
    .connect (some 0) (some 1), .connect (some 0) (some 1), .connect (some 0) (some 2)]

/-- The edits give each value one node. -/
theorem newOrigins_recycling : NewOrigins recycling := by
  intro k n v hk hv
  match k with
  | 0 | 1 | 7 =>
      cases hk
      cases hv
      rfl
  | 2 | 3 | 4 | 5 | 6 | 8 | 9 | 10 => cases hk
  | k + 11 => cases hk

/-- The edits keep what nodes stand for. -/
theorem keepsOrigins_recycling : KeepsOrigins recycling := by
  intro k i change n hk _
  match k with
  | 5 =>
      cases hk
      rfl
  | 0 | 1 | 2 | 3 | 4 | 6 | 7 | 8 | 9 | 10 => cases hk
  | k + 11 => cases hk

/-- A number that was freed is given out again, to a node with its own edges. -/
theorem simulates_plainGraph_recycling :
    KeepsOrigins recycling ∧ NewOrigins recycling ∧ (after recycling).edges = [(0, 1)] ∧
      (after recycling).find? (.global "g") = some 1 ∧ (after recycling).Coherent ∧
      (after recycling).Simulates ∧ (after recycling).Faithful ∧
      ∀ {i j n m v}, (after recycling).node? i = some n → (after recycling).node? j = some m →
        n.origin = some v → m.origin = some v → i = j := by
  obtain ⟨hcoherent, hsimulates, hkept⟩ := simulates_plainGraph recycling
  obtain ⟨hfaithful, hone⟩ := hkept keepsOrigins_recycling
  exact ⟨keepsOrigins_recycling, newOrigins_recycling, by decide, by decide, hcoherent, hsimulates,
    hfaithful, hone newOrigins_recycling⟩

/-- The node of one parameter is made to stand for another one, which then gets a node of its
own. -/
def reassigned : List Edit :=
  [.add { kind := .functionInput, origin := some (.param 0), label := "i32 %a" },
    .modify 0 fun n => { n with origin := some (.param 1) },
    .add { kind := .functionInput, origin := some (.param 1), label := "i32 %b" }]

/-- The map does not follow the change: parameter 0 still leads to the node, which stands for
parameter 1, and to its number once it is removed. Parameter 1 led nowhere when it got a node, and
yet two nodes stand for it. -/
theorem not_faithful_reassigned : ¬ (after reassigned).Faithful ∧
    (after (reassigned ++ [.remove (some 0)])).find? (.param 0) = some 0 ∧
    (after (reassigned ++ [.remove (some 0)])).node? 0 = none ∧ NewOrigins reassigned ∧
    ∃ n m, (after reassigned).node? 0 = some n ∧ (after reassigned).node? 1 = some m ∧
      n.origin = some (.param 1) ∧ m.origin = some (.param 1) := by
  refine ⟨fun h => ?_, by decide, by decide, fun k n v hk hv => ?_, _, _, rfl, rfl, rfl, rfl⟩
  · obtain ⟨n, hn, horigin⟩ := h.owner (v := .param 0) (i := 0) (by decide)
    cases hn
    cases horigin
  · match k with
    | 0 | 2 =>
        cases hk
        cases hv
        rfl
    | 1 => cases hk
    | k + 3 => cases hk

end Graph

end Dataflow
