import Dataflow.Graph.Producer
import Mathlib.Data.List.Basic

/-!
# What an operation on a graph changes

For each operation on a graph, its nodes, edges and value map afterwards. `Graph.Full` describes a
graph from which nothing was removed: its nodes have the numbers below the number of nodes, edges
join nodes, and a value leads to a node that stands for it. Every operation but a removal keeps it.
-/

namespace Dataflow

theorem lookup_filter_ne {α β : Type} [DecidableEq α] {a b : α} (hne : b ≠ a)
    (l : List (α × β)) : (l.filter (·.1 ≠ a)).lookup b = l.lookup b := by
  induction l with
  | nil => rfl
  | cons p l ih =>
      obtain ⟨c, x⟩ := p
      by_cases hc : c = a
      · subst hc
        simp only [ne_eq, not_true_eq_false, decide_false, Bool.false_eq_true, not_false_eq_true,
          List.filter_cons_of_neg, List.lookup_cons, beq_false_of_ne hne]
        exact ih
      · simp only [ne_eq, hc, not_false_eq_true, decide_true, List.filter_cons_of_pos,
          List.lookup_cons]
        rw [ih]

/-- What is looked up is in the list. -/
theorem mem_of_lookup_eq_some {α β : Type} [DecidableEq α] {l : List (α × β)} {a : α} {b : β}
    (h : l.lookup a = some b) : (a, b) ∈ l := by
  obtain ⟨front, rest, rfl, _⟩ := List.lookup_eq_some_iff.mp h
  simp

/-- What a list holds once it finds again in what is left of it. -/
theorem lookup_filter_eq_some {α β : Type} [DecidableEq α] {l : List (α × β)} {p : α × β → Bool}
    (hl : ∀ a b, (a, b) ∈ l → l.lookup a = some b) {a : α} {b : β} :
    (l.filter p).lookup a = some b ↔ l.lookup a = some b ∧ p (a, b) = true := by
  constructor
  · intro h
    obtain ⟨hmem, hp⟩ := List.mem_filter.mp (mem_of_lookup_eq_some h)
    exact ⟨hl a b hmem, hp⟩
  · intro hex
    obtain ⟨h, hp⟩ := hex
    have hmem := List.mem_filter.mpr ⟨mem_of_lookup_eq_some h, hp⟩
    cases hfound : (l.filter p).lookup a with
    | none => simpa using List.lookup_eq_none_iff.mp hfound _ hmem
    | some c =>
        have hc := hl a c (List.mem_filter.mp (mem_of_lookup_eq_some hfound)).1
        rw [h] at hc
        exact hc.symm

namespace Graph

variable {g : Graph} {a b i j x y : NodeId} {v w : Operand} {n : Node}

/-- A number past the last leads to no node. -/
theorem node?_eq_none_of_le (h : g.nodes.length ≤ i) : g.node? i = none := by
  simp [node?, List.getElem?_eq_none h]

/-- A node has a number that was given out. -/
theorem lt_length_of_node? (h : g.node? i = some n) : i < g.nodes.length := by
  by_contra hle
  rw [node?_eq_none_of_le (Nat.le_of_not_lt hle)] at h
  cases h

/-- Nodes are joined by an edge when a link goes from one to the other. -/
theorem hasEdge_iff : g.hasEdge a b ↔ ∃ l ∈ g.links, l.source = a ∧ l.target = b := by
  simp [hasEdge]

/-- The inputs of a node are the nodes that an edge joins to it. -/
theorem mem_inputs : a ∈ g.inputs b ↔ a < g.nodes.length ∧ g.hasEdge a b := by
  simp [inputs]

/-- A graph whose map from values to nodes is sound. -/
structure Owned (g : Graph) : Prop where
  /-- The map holds a value once. -/
  entry : ∀ {v i}, (v, i) ∈ g.owners → g.find? v = some i
  /-- A value leads to a node that stands for it. -/
  owner : ∀ {v i}, g.find? v = some i → ∃ n, g.node? i = some n ∧ n.origin = some v

/-- A graph from which nothing was removed. -/
structure Full (g : Graph) : Prop extends g.Owned where
  /-- No number is free. -/
  free : g.freeNodes = []
  /-- Every number given out leads to a node. -/
  node : ∀ {i}, i < g.nodes.length → ∃ n, g.node? i = some n
  /-- A node that stands for a value is the one that the value leads to. -/
  origin : ∀ {i n v}, g.node? i = some n → n.origin = some v → g.find? v = some i
  /-- Edges join nodes. -/
  edge : ∀ {a b}, g.hasEdge a b → a < g.nodes.length ∧ b < g.nodes.length

/-- Nothing was removed from the empty graph. -/
theorem full_empty : ({} : Graph).Full where
  entry h := by simp at h
  owner h := by simp [find?] at h
  free := rfl
  node h := absurd h (Nat.not_lt_zero _)
  origin h := by simp [node?] at h
  edge h := by simp [hasEdge] at h

/-- No two values share a node. -/
theorem Full.owner_unique (hg : g.Full) (hv : g.find? v = some i) (hw : g.find? w = some i) :
    v = w := by
  obtain ⟨n, hn, hnv⟩ := hg.owner hv
  obtain ⟨m, hm, hmw⟩ := hg.owner hw
  rw [hn] at hm
  cases hm
  rw [hnv] at hmw
  exact Option.some.inj hmw

/-- A value leads to a number that was given out. -/
theorem Full.lt_of_find? (hg : g.Full) (hv : g.find? v = some i) : i < g.nodes.length := by
  obtain ⟨n, hn, _⟩ := hg.owner hv
  exact lt_length_of_node? hn

/-! ## Adding a node -/

section Adding

variable (hg : g.Full)

include hg

/-- Where nothing was removed a new node takes the next number. -/
theorem addNode_id : (g.addNode n).2 = g.nodes.length := by
  simp [addNode, hg.free]

/-- It comes after all others. -/
theorem nodes_addNode : (g.addNode n).1.nodes = g.nodes ++ [some n] := by
  simp [addNode, hg.free]

theorem length_addNode : (g.addNode n).1.nodes.length = g.nodes.length + 1 := by
  simp [nodes_addNode hg]

/-- The new node is found under its number, and every other where it was. -/
theorem node?_addNode :
    (g.addNode n).1.node? i = if i = g.nodes.length then some n else g.node? i := by
  rw [node?, nodes_addNode hg]
  rcases Nat.lt_trichotomy i g.nodes.length with hlt | rfl | hgt
  · simp [node?, List.getElem?_append_left hlt, Nat.ne_of_lt hlt]
  · simp
  · have hnone : (g.nodes ++ [some n])[i]? = none :=
      List.getElem?_eq_none (by rw [List.length_append]; exact hgt)
    simp [node?, hnone, Nat.le_of_lt hgt, Nat.ne_of_gt hgt]

omit hg in
/-- A new node that stands for no value changes nothing that a value leads to. -/
theorem find?_addNode_of_none (h : n.origin = none) : (g.addNode n).1.find? w = g.find? w := by
  simp [addNode, find?, h]

/-- A node that stands for a value is what this value leads to. -/
theorem find?_addNode_of_some (h : n.origin = some v) :
    (g.addNode n).1.find? w = if w = v then some g.nodes.length else g.find? w := by
  simp only [addNode, hg.free, find?, h, List.lookup_cons]
  by_cases hw : w = v
  · simp [hw]
  · rw [beq_false_of_ne hw, lookup_filter_ne hw, if_neg hw]

omit hg in
/-- A new node has no edge. -/
@[simp] theorem hasEdge_addNode : (g.addNode n).1.hasEdge a b = g.hasEdge a b := rfl

/-- A node for a value that has none yet leaves the graph full. -/
theorem full_addNode (hn : ∀ v, n.origin = some v → g.find? v = none) : (g.addNode n).1.Full where
  entry {w i} hw := by
    cases ho : n.origin with
    | none =>
        rw [find?_addNode_of_none ho]
        simp only [addNode, ho] at hw
        exact hg.entry hw
    | some v =>
        rw [find?_addNode_of_some hg ho]
        simp only [addNode, ho, hg.free, List.mem_cons, Prod.mk.injEq, List.mem_filter,
          decide_eq_true_eq] at hw
        rcases hw with ⟨rfl, rfl⟩ | ⟨hmem, hne⟩
        · rw [if_pos rfl]
        · rw [if_neg hne, hg.entry hmem]
  owner {w i} hw := by
    -- what was there keeps its number, so an older value leads where it led
    have hold : g.find? w = some i →
        ∃ m, (g.addNode n).1.node? i = some m ∧ m.origin = some w := by
      intro hw
      rw [node?_addNode hg, if_neg (Nat.ne_of_lt (hg.lt_of_find? hw))]
      exact hg.owner hw
    cases ho : n.origin with
    | none => exact hold (by rwa [find?_addNode_of_none ho] at hw)
    | some v =>
        rw [find?_addNode_of_some hg ho] at hw
        split at hw
        · rename_i hwv
          cases hw
          exact ⟨n, by rw [node?_addNode hg, if_pos rfl], by rw [ho, hwv]⟩
        · exact hold hw
  free := by simp [addNode, hg.free]
  node {i} hi := by
    rw [node?_addNode hg]
    by_cases heq : i = g.nodes.length
    · exact ⟨n, if_pos heq⟩
    · rw [if_neg heq]
      rw [length_addNode hg] at hi
      exact hg.node (by omega)
  origin {i m w} hi hw := by
    rw [node?_addNode hg] at hi
    split at hi
    · rename_i heq
      cases hi
      rw [find?_addNode_of_some hg hw, if_pos rfl, heq]
    · -- an older node keeps its value, as the new one stands for a value without a node
      have hfind := hg.origin hi hw
      cases ho : n.origin with
      | none => rwa [find?_addNode_of_none ho]
      | some v =>
          have hne : w ≠ v := by
            intro heq
            subst heq
            rw [hn w ho] at hfind
            cases hfind
          rwa [find?_addNode_of_some hg ho, if_neg hne]
  edge {a b} hab := by
    rw [hasEdge_addNode] at hab
    rw [length_addNode hg]
    exact ⟨Nat.lt_succ_of_lt (hg.edge hab).1, Nat.lt_succ_of_lt (hg.edge hab).2⟩

end Adding

/-! ## Changing a node -/

@[simp] theorem length_modifyNode (change : Node → Node) :
    (g.modifyNode i change).nodes.length = g.nodes.length := by
  simp [modifyNode]

/-- A change is made to the one node. -/
theorem node?_modifyNode (change : Node → Node) :
    (g.modifyNode i change).node? j = if j = i then (g.node? j).map change else g.node? j := by
  simp only [modifyNode, node?, List.getElem?_modify]
  by_cases hj : i = j
  · subst hj
    cases g.nodes[i]? <;> simp
  · simp [hj, Ne.symm hj]

@[simp] theorem find?_modifyNode (change : Node → Node) :
    (g.modifyNode i change).find? v = g.find? v := rfl

/-- A change that keeps what nodes stand for leaves the graph full. -/
theorem full_modifyNode (hg : g.Full) {change : Node → Node}
    (hchange : ∀ n, (change n).origin = n.origin) : (g.modifyNode i change).Full := by
  have hnode : ∀ {j m}, (g.modifyNode i change).node? j = some m →
      ∃ n, g.node? j = some n ∧ n.origin = m.origin := by
    intro j m hm
    rw [node?_modifyNode] at hm
    split at hm
    · obtain ⟨n, hn, rfl⟩ := Option.map_eq_some_iff.mp hm
      exact ⟨n, hn, (hchange n).symm⟩
    · exact ⟨m, hm, rfl⟩
  have hback : ∀ {j n}, g.node? j = some n →
      ∃ m, (g.modifyNode i change).node? j = some m ∧ m.origin = n.origin := by
    intro j n hn
    rw [node?_modifyNode, hn]
    split
    · exact ⟨change n, rfl, hchange n⟩
    · exact ⟨n, rfl, rfl⟩
  refine ⟨⟨fun hv => hg.entry hv, fun {v j} hv => ?_⟩, hg.free, fun {j} hj => ?_,
    fun {j m v} hm hv => ?_, fun {a b} hab => by simpa using hg.edge hab⟩
  · obtain ⟨n, hn, hnv⟩ := hg.owner hv
    obtain ⟨m, hm, hmn⟩ := hback hn
    exact ⟨m, hm, hmn.trans hnv⟩
  · obtain ⟨n, hn⟩ := hg.node (by simpa using hj)
    obtain ⟨m, hm, _⟩ := hback hn
    exact ⟨m, hm⟩
  · obtain ⟨n, hn, hnm⟩ := hnode hm
    exact hg.origin hn (hnm.trans hv)

/-! ## Adding an edge -/

/-- An added edge is there, besides those that were. -/
theorem hasEdge_addLink : (g.addLink a b).hasEdge x y ↔ g.hasEdge x y ∨ (x = a ∧ y = b) := by
  have hcons : ∀ slot, (∃ l ∈ (⟨slot, a, b⟩ : Link) :: g.links, l.source = x ∧ l.target = y) ↔
      (∃ l ∈ g.links, l.source = x ∧ l.target = y) ∨ (x = a ∧ y = b) := by
    intro slot
    rw [List.exists_mem_cons_iff, or_comm, eq_comm (a := x), eq_comm (a := y)]
  unfold addLink
  split <;> simp only [hasEdge_iff] <;> exact hcons _

@[simp] theorem nodes_addLink : (g.addLink a b).nodes = g.nodes := by
  unfold addLink
  split <;> rfl

@[simp] theorem owners_addLink : (g.addLink a b).owners = g.owners := by
  unfold addLink
  split <;> rfl

@[simp] theorem freeNodes_addLink : (g.addLink a b).freeNodes = g.freeNodes := by
  unfold addLink
  split <;> rfl

/-- Connecting changes neither nodes nor the value map. -/
theorem connect_nodes (a b : Option NodeId) :
    (g.connect a b).1.nodes = g.nodes ∧ (g.connect a b).1.owners = g.owners ∧
      (g.connect a b).1.freeNodes = g.freeNodes := by
  unfold connect
  split
  · split
    · exact ⟨rfl, rfl, rfl⟩
    · split <;> simp
  · exact ⟨rfl, rfl, rfl⟩

/-- An edge changes no node. -/
@[simp] theorem node?_connect (a b : Option NodeId) : (g.connect a b).1.node? i = g.node? i := by
  rw [node?, node?, (connect_nodes a b).1]

/-- An edge changes nothing that a value leads to. -/
@[simp] theorem find?_connect (a b : Option NodeId) : (g.connect a b).1.find? v = g.find? v := by
  rw [find?, find?, (connect_nodes a b).2.1]

/-- Connecting two nodes adds the edge between them and no other. -/
theorem hasEdge_connect (ha : ∃ n, g.node? a = some n) (hb : ∃ n, g.node? b = some n) :
    (g.connect (some a) (some b)).1.hasEdge x y ↔ g.hasEdge x y ∨ (x = a ∧ y = b) := by
  obtain ⟨n, hn⟩ := ha
  obtain ⟨m, hm⟩ := hb
  simp only [connect, hn, hm]
  by_cases hedge : g.hasEdge a b
  · rw [if_neg (by simp), if_pos hedge]
    exact ⟨Or.inl, fun h => h.elim id fun ⟨hx, hy⟩ => by rwa [hx, hy]⟩
  · rw [if_neg (by simp), if_neg hedge]
    exact hasEdge_addLink

/-- An edge between two nodes leaves the graph full. -/
theorem full_connect (hg : g.Full) (ha : ∃ n, g.node? a = some n) (hb : ∃ n, g.node? b = some n) :
    (g.connect (some a) (some b)).1.Full := by
  obtain ⟨hnodes, howners, hfree⟩ := connect_nodes (g := g) (some a) (some b)
  refine ⟨⟨fun {v i} hv => ?_, fun {v i} hv => ?_⟩, hfree.trans hg.free, fun {i} hi => ?_,
    fun {i n v} hn hv => ?_, fun {x y} hxy => ?_⟩
  · rw [find?_connect]
    exact hg.entry (by rwa [howners] at hv)
  · rw [find?_connect] at hv
    simpa using hg.owner hv
  · rw [hnodes] at hi
    simpa using hg.node hi
  · rw [node?_connect] at hn
    simpa using hg.origin hn hv
  · rw [hnodes]
    rcases (hasEdge_connect ha hb).mp hxy with hold | ⟨rfl, rfl⟩
    · exact hg.edge hold
    · obtain ⟨n, hn⟩ := ha
      obtain ⟨m, hm⟩ := hb
      exact ⟨lt_length_of_node? hn, lt_length_of_node? hm⟩

/-! ## Removing nodes -/

/-- A removed node leaves its number empty. -/
theorem nodes_removeNode (hi : g.node? i = some n) :
    (g.removeNode i).nodes = g.nodes.set i none := by
  simp [removeNode, hi]

/-- A removed node is no longer what its value leads to. -/
theorem owners_removeNode (hi : g.node? i = some n) : (g.removeNode i).owners =
    g.owners.filter fun (v, j) => ¬ (n.origin = some v ∧ j = i) := by
  simp [removeNode, hi]

/-- There is nothing to remove where there is no node. -/
theorem removeNode_of_none (hi : g.node? i = none) : g.removeNode i = g := by
  simp [removeNode, hi]

/-- Every other node stays under its number. -/
theorem node?_removeNode : (g.removeNode i).node? j = if j = i then none else g.node? j := by
  cases hi : g.node? i with
  | none =>
      rw [removeNode_of_none hi]
      split
      · rename_i hj
        rw [hj, hi]
      · rfl
  | some n =>
      rw [node?, nodes_removeNode hi, List.getElem?_set]
      by_cases hj : i = j
      · subst hj
        simp [lt_length_of_node? hi]
      · rw [if_neg hj, if_neg (Ne.symm hj), node?]

@[simp] theorem length_removeNode : (g.removeNode i).nodes.length = g.nodes.length := by
  unfold removeNode
  split <;> simp

/-- A node without edges takes none away. -/
theorem hasEdge_removeNode (hi : ∀ a, ¬ g.hasEdge a i ∧ ¬ g.hasEdge i a) :
    (g.removeNode i).hasEdge a b = g.hasEdge a b := by
  rw [Bool.eq_iff_iff, hasEdge_iff, hasEdge_iff]
  cases hn : g.node? i with
  | none => simp only [removeNode, hn]
  | some n =>
      simp only [removeNode, hn, List.mem_filter]
      refine exists_congr fun l => and_congr_left fun _ => ⟨And.left, fun hl => ⟨hl, ?_⟩⟩
      have hsource : l.source ≠ i := fun h => (hi l.target).2 (hasEdge_iff.mpr ⟨l, hl, h, rfl⟩)
      have htarget : l.target ≠ i := fun h => (hi l.source).1 (hasEdge_iff.mpr ⟨l, hl, rfl, h⟩)
      simp [hsource, htarget]

/-- Removing a node takes away what leads to it from the value that it stands for. -/
theorem find?_removeNode_iff (hentry : ∀ {v j}, (v, j) ∈ g.owners → g.find? v = some j) :
    (g.removeNode i).find? v = some j ↔
      g.find? v = some j ∧ ¬ ((g.node? i).bind (·.origin) = some v ∧ j = i) := by
  cases hi : g.node? i with
  | none => simp [removeNode_of_none hi]
  | some n =>
      rw [find?, owners_removeNode hi, lookup_filter_eq_some fun _ _ hmem => hentry hmem,
        decide_eq_true_eq]
      rfl

/-- Where values lead to nodes that stand for them, none leads to a node that was removed. -/
theorem find?_removeNode (hg : g.Owned) :
    (g.removeNode i).find? v = some j ↔ g.find? v = some j ∧ j ≠ i := by
  rw [find?_removeNode_iff hg.entry]
  refine and_congr_right fun hv => not_congr (and_iff_right_of_imp fun hj => ?_)
  obtain ⟨m, hm, ho⟩ := hg.owner hv
  rw [← hj, hm]
  exact ho

/-- Removing a node keeps the map from values to nodes sound. -/
theorem Owned.removeNode (hg : g.Owned) (i : NodeId) : (g.removeNode i).Owned where
  entry {v j} hmem := by
    cases hi : g.node? i with
    | none =>
        rw [removeNode_of_none hi] at hmem ⊢
        exact hg.entry hmem
    | some n =>
        rw [owners_removeNode hi, List.mem_filter] at hmem
        rw [find?_removeNode hg]
        refine ⟨hg.entry hmem.1, ?_⟩
        intro heq
        subst heq
        obtain ⟨m, hm, ho⟩ := hg.owner (hg.entry hmem.1)
        rw [hi] at hm
        cases hm
        simp [ho] at hmem
  owner {v j} hv := by
    obtain ⟨hv, hne⟩ := (find?_removeNode hg).mp hv
    rw [node?_removeNode, if_neg hne]
    exact hg.owner hv

/-- Values keep their node when others go. -/
theorem find?_foldl_removeNode {l : List NodeId} (hg : g.Owned) :
    (l.foldl Graph.removeNode g).find? v = some j ↔ g.find? v = some j ∧ j ∉ l := by
  induction l generalizing g with
  | nil => simp
  | cons i l ih =>
      rw [List.foldl_cons, ih (hg.removeNode i), find?_removeNode hg, List.mem_cons, not_or,
        and_assoc]

/-- Nodes stay as they are when others go. -/
theorem node?_foldl_removeNode {l : List NodeId} :
    (l.foldl Graph.removeNode g).node? j = if j ∈ l then none else g.node? j := by
  induction l generalizing g with
  | nil => simp
  | cons i l ih =>
      rw [List.foldl_cons, ih, node?_removeNode]
      by_cases hj : j = i <;> simp [hj]

/-- Removing nodes adds no edge. -/
theorem hasEdge_of_foldl_removeNode {l : List NodeId}
    (hab : (l.foldl Graph.removeNode g).hasEdge a b) : g.hasEdge a b := by
  induction l generalizing g with
  | nil => exact hab
  | cons i l ih =>
      obtain ⟨k, hk, hends⟩ := hasEdge_iff.mp (ih hab)
      refine hasEdge_iff.mpr ⟨k, ?_, hends⟩
      unfold removeNode at hk
      split at hk
      · exact hk
      · exact (List.mem_filter.mp hk).1

/-- Removing nodes without edges. -/
theorem foldl_removeNode {l : List NodeId} (hg : g.Owned)
    (hl : ∀ i ∈ l, ∀ a, ¬ g.hasEdge a i ∧ ¬ g.hasEdge i a) :
    (∀ v j, (l.foldl Graph.removeNode g).find? v = some j ↔ g.find? v = some j ∧ j ∉ l) ∧
      (∀ a b, (l.foldl Graph.removeNode g).hasEdge a b = g.hasEdge a b) ∧
      (l.foldl Graph.removeNode g).nodes.length = g.nodes.length := by
  refine ⟨fun v j => find?_foldl_removeNode hg, ?_⟩
  induction l generalizing g with
  | nil => simp
  | cons i l ih =>
      have hedge : ∀ a b, (g.removeNode i).hasEdge a b = g.hasEdge a b :=
        fun a b => hasEdge_removeNode (hl i (by simp))
      obtain ⟨hedge', hlength⟩ := ih (hg.removeNode i) fun j hj a => by
        rw [hedge, hedge]
        exact hl j (by simp [hj]) a
      exact ⟨fun a b => (hedge' a b).trans (hedge a b), hlength.trans length_removeNode⟩

/-! ## Questions about all nodes -/

/-- The entries of a graph are its nodes with their numbers. -/
theorem mem_entries : (i, n) ∈ g.entries ↔ g.node? i = some n := by
  simp only [entries, List.mem_filterMap, Prod.exists, List.mem_zipIdx_iff_getElem?, node?,
    Option.map_eq_some_iff, Prod.mk.injEq, Option.join_eq_some_iff]
  constructor
  · intro hex
    obtain ⟨o, k, hk, m, hm, rfl, rfl⟩ := hex
    rw [hk, hm]
  · intro h
    exact ⟨some n, i, h, n, rfl, rfl, rfl⟩

/-- The nodes of a kind are those that have it. -/
theorem mem_ofKind {kind : Operator} :
    i ∈ g.ofKind kind ↔ ∃ n, g.node? i = some n ∧ n.kind = kind := by
  simp [ofKind, mem_entries]

/-- Nodes are listed by their numbers. -/
theorem ascending_entries (g : Graph) : (g.entries.map (·.1)).Pairwise (· < ·) := by
  have hnumbers : (g.nodes.zipIdx.map Prod.snd).Pairwise (· < ·) := by
    rw [List.zipIdx_map_snd]
    exact List.pairwise_lt_range'
  rw [List.pairwise_map] at hnumbers ⊢
  refine List.Pairwise.filterMap _ (fun x y hlt entry hx entry' hy => ?_) hnumbers
  obtain ⟨_, _, rfl⟩ := Option.map_eq_some_iff.mp hx
  obtain ⟨_, _, rfl⟩ := Option.map_eq_some_iff.mp hy
  exact hlt

/-- The nodes of a graph have different numbers. -/
theorem nodup_entries (g : Graph) : (g.entries.map (·.1)).Nodup :=
  g.ascending_entries.imp Nat.ne_of_lt

/-- Each of them is listed once. -/
theorem nodup_ofKind (g : Graph) (kind : Operator) : (g.ofKind kind).Nodup :=
  g.nodup_entries.sublist (List.filter_sublist.map _)

end Graph

end Dataflow
