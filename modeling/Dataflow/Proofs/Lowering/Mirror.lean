import Dataflow.Proofs.Lowering.Operands
import Mathlib.Order.Monotone.Basic

/-!
# Two runs side by side

What an option of lowering changes is told by two runs, with and without it. `Graph.Shows` says how
the graph of one run shows in the other: the nodes are the same but for the numbers, which go up by
one from a node on that only the other run has, and but for the nodes of phis; the edges are the
same but for those that enter certain nodes. `Draft.Mirrors` is this for two drafts on the way. It
is kept by every step that both runs take (`feed_mirrors`, `Draft.Mirrors.openSteers`), since a step
decides by values, operators and pairs of steers alone, and these are the same in both.
-/

namespace Dataflow

/-! ## Numbers and nodes in both runs -/

/-- The number of a node once the numbers from `gap` on have gone up by one. -/
def renumber (gap : Option Nat) (n : Nat) : Nat := if gap.any (· ≤ n) then n + 1 else n

/-- A pair of steers by its later numbers. -/
def SteerPair.renumber (gap : Option NodeId) (p : SteerPair) : SteerPair :=
  ⟨Dataflow.renumber gap p.onTrue, Dataflow.renumber gap p.onFalse⟩

/-- A node looks like that of a phi: it is a merge or a carry and labelled as one. -/
def Node.Joins (n : Node) : Prop :=
  n.symbol = "" ∧ (n.kind = .merge ∧ n.label = "M" ∨ n.kind = .carry ∧ n.label = "C")

/-- Graph `h` shows graph `g`: the same nodes under later numbers, except that nodes in `joins` are
phis which may differ in being a merge or a carry, the same values, and the same edges except those
into nodes in `into`. -/
structure Graph.Shows (gap : Option NodeId) (joins into : NodeId → Prop) (g h : Graph) : Prop where
  node : ∀ {n}, ¬ joins n → h.node? (renumber gap n) = g.node? n
  join : ∀ {n}, joins n → ∃ a b, g.node? n = some a ∧ h.node? (renumber gap n) = some b ∧
    a.Joins ∧ b.Joins ∧ a.origin = b.origin
  value : ∀ v, h.find? v = (g.find? v).map (renumber gap)
  edge : ∀ {a b}, ¬ into b → h.hasEdge (renumber gap a) (renumber gap b) = g.hasEdge a b

variable {gap : Option NodeId} {joins into : NodeId → Prop} {a b k n : Nat}

/-- Without a gap every number stays. -/
@[simp] theorem renumber_none : renumber none n = n := rfl

@[simp] theorem map_renumber_none (o : Option NodeId) : o.map (renumber none) = o := Option.map_id'

/-- The number from which on all go up is the gap. -/
theorem renumber_some : renumber (some k) n = if k ≤ n then n + 1 else n := by
  simp [renumber]

/-- Renumbering keeps the order. -/
theorem renumber_strictMono (gap : Option Nat) : StrictMono (renumber gap) := by
  intro a b hab
  cases gap with
  | none => exact hab
  | some k =>
      rw [renumber_some, renumber_some]
      split <;> split <;> omega

/-- Different nodes have different later numbers. -/
@[simp] theorem renumber_inj : renumber gap a = renumber gap b ↔ a = b :=
  (renumber_strictMono gap).injective.eq_iff

/-- The number in between is left out. -/
theorem renumber_ne : renumber (some k) n ≠ k := by
  rw [renumber_some]
  split <;> omega

/-- A later number comes from the number it stands for. -/
@[simp] theorem map_renumber_eq_some {o : Option NodeId} :
    o.map (renumber gap) = some (renumber gap n) ↔ o = some n := by
  cases o <;> simp

/-- The sides of a pair are renumbered each. -/
@[simp] theorem SteerPair.side_renumber (p : SteerPair) (taken : Bool) :
    (p.renumber gap).side taken = Dataflow.renumber gap (p.side taken) := by
  cases taken <;> rfl

@[simp] theorem SteerPair.renumber_none (p : SteerPair) : p.renumber none = p := rfl

@[simp] theorem SteerPair.map_renumber_none (o : Option SteerPair) :
    o.map (·.renumber none) = o := Option.map_id'

/-- Below the node in between nothing is renumbered. -/
theorem renumber_of_lt (hn : n < k) : renumber (some k) n = n := by
  rw [renumber_some, if_neg (Nat.not_le.mpr hn)]

/-- A number below the gap stays, and no later one falls below it. -/
theorem renumber_cases (k n : Nat) :
    renumber (some k) n = n ∨ k ≤ renumber (some k) n ∧ k ≤ n := by
  rcases Nat.lt_or_ge n k with hlt | hge
  · exact Or.inl (renumber_of_lt hlt)
  · rw [renumber_some, if_pos hge]
    exact Or.inr ⟨Nat.le_succ_of_le hge, hge⟩

/-- A pair of steers below the gap stays. -/
theorem SteerPair.renumber_of_lt {p : SteerPair} (hp : ∀ taken, p.side taken < k) :
    p.renumber (some k) = p :=
  congrArg₂ SteerPair.mk (Dataflow.renumber_of_lt (hp true)) (Dataflow.renumber_of_lt (hp false))

namespace Node.Joins

variable {m : Node}

/-- A merge or a carry is no load, no store and has an operator. -/
theorem kind_ne (hm : m.Joins) : m.kind ≠ .unknown ∧ m.kind ≠ .load ∧ m.kind ≠ .store := by
  obtain ⟨_, ⟨hkind, _⟩ | ⟨hkind, _⟩⟩ := hm <;> simp [hkind]

end Node.Joins

namespace Graph

variable {g h : Graph} {x y : Option NodeId} {kind : Operator}

/-- Connecting adds the edge just if both ends are there. -/
theorem hasEdge_connect_iff : (g.connect x y).1.hasEdge a b ↔ g.hasEdge a b ∨
    x = some a ∧ y = some b ∧ (∃ m, g.node? a = some m) ∧ ∃ m, g.node? b = some m := by
  cases x with
  | none => simp [connect]
  | some s =>
      cases y with
      | none => simp [connect]
      | some t =>
          by_cases hs : ∃ m, g.node? s = some m
          · by_cases ht : ∃ m, g.node? t = some m
            · rw [hasEdge_connect hs ht]
              refine or_congr_right ⟨fun hex => ?_, fun hex => ?_⟩
              · obtain ⟨rfl, rfl⟩ := hex
                exact ⟨rfl, rfl, hs, ht⟩
              · exact ⟨(Option.some.inj hex.1).symm, (Option.some.inj hex.2.1).symm⟩
            · have hnone : g.node? t = none := Option.eq_none_iff_forall_ne_some.mpr
                fun m hm => ht ⟨m, hm⟩
              simp only [connect, hnone, Option.isNone_none, or_true, if_true]
              refine (or_iff_left fun hex => ht ?_).symm
              rw [Option.some.inj hex.2.1]
              exact hex.2.2.2
          · have hnone : g.node? s = none := Option.eq_none_iff_forall_ne_some.mpr
              fun m hm => hs ⟨m, hm⟩
            simp only [connect, hnone, Option.isNone_none, true_or, if_true]
            refine (or_iff_left fun hex => hs ?_).symm
            rw [Option.some.inj hex.1]
            exact hex.2.2.1

/-- Connecting reports nothing just if both ends are there. -/
theorem isNone_connect_iff : (g.connect x y).2.isNone ↔
    ∃ a b, x = some a ∧ y = some b ∧ (∃ m, g.node? a = some m) ∧ ∃ m, g.node? b = some m := by
  cases x with
  | none => simp [connect]
  | some s =>
      cases y with
      | none => simp [connect]
      | some t =>
          simp only [connect]
          cases hs : g.node? s with
          | none => simp [hs]
          | some m =>
              cases ht : g.node? t with
              | none => simp [ht]
              | some m' =>
                  rw [if_neg (by simp)]
                  split <;> simp [hs, ht]

/-- Numbers from the next one on lead nowhere yet, so a node that gets it moves none. -/
theorem Full.node?_addNode_renumber (hg : g.Full) (m : Node) (n : NodeId) :
    (g.addNode m).1.node? (renumber (some g.nodes.length) n) = g.node? n := by
  rw [node?_addNode hg, if_neg renumber_ne]
  rcases renumber_cases g.nodes.length n with hsame | ⟨hge, hge'⟩
  · rw [hsame]
  · rw [node?_eq_none_of_le hge, node?_eq_none_of_le hge']

/-- Edges are the same under the numbers that leave the next one free. -/
theorem Full.hasEdge_renumber (hg : g.Full) (a b : NodeId) :
    g.hasEdge (renumber (some g.nodes.length) a) (renumber (some g.nodes.length) b) =
      g.hasEdge a b := by
  have hout : ∀ {x y}, g.nodes.length ≤ x ∨ g.nodes.length ≤ y → g.hasEdge x y = false := by
    intro x y hxy
    rw [← Bool.not_eq_true]
    intro hedge
    exact hxy.elim (Nat.not_le.mpr (hg.edge hedge).1) (Nat.not_le.mpr (hg.edge hedge).2)
  rcases renumber_cases g.nodes.length a with ha | ⟨ha, ha'⟩
  · rcases renumber_cases g.nodes.length b with hb | ⟨hb, hb'⟩
    · rw [ha, hb]
    · rw [hout (Or.inr hb), hout (Or.inr hb')]
  · rw [hout (Or.inl ha), hout (Or.inl ha')]

namespace Shows

variable (hs : g.Shows gap joins into h)

include hs

/-- A node is there when it is there under its later number. -/
theorem exists_node_iff :
    (∃ m, h.node? (renumber gap n) = some m) ↔ ∃ m, g.node? n = some m := by
  by_cases hn : joins n
  · obtain ⟨m, m', hm, hm', _⟩ := hs.join hn
    exact ⟨fun _ => ⟨m, hm⟩, fun _ => ⟨m', hm'⟩⟩
  · rw [hs.node hn]

/-- Nodes that are no phis have the same operator. -/
theorem kind?_iff (hmerge : kind ≠ .merge) (hcarry : kind ≠ .carry) :
    h.kind? (renumber gap n) = some kind ↔ g.kind? n = some kind := by
  by_cases hn : joins n
  · obtain ⟨m, m', hm, hm', ⟨_, hjoin⟩, ⟨_, hjoin'⟩, _⟩ := hs.join hn
    rw [kind?, kind?, hm, hm']
    rcases hjoin with ⟨hk, _⟩ | ⟨hk, _⟩ <;> rcases hjoin' with ⟨hk', _⟩ | ⟨hk', _⟩ <;>
      simp [hk, hk', hmerge.symm, hcarry.symm]
  · rw [kind?, kind?, hs.node hn]

end Shows

end Graph

/-! ## Drafts side by side -/

namespace Draft

/-- Draft `e` shows draft `d`. What is more, both go on alike: nothing was removed, the next node
gets the same number but for `gap`, pairs of steers are the same, and only `e` may have a stream
more, which then is the node in between. -/
structure Mirrors (gap : Option NodeId) (joins into : NodeId → Prop) (d e : Draft) : Prop
    extends d.graph.Shows gap joins into e.graph where
  full : d.graph.Full
  full' : e.graph.Full
  next : e.graph.nodes.length = renumber gap d.graph.nodes.length
  after : ∀ k ∈ gap, k ≤ d.graph.nodes.length
  steers : ∀ id, e.steers.lookup id = (d.steers.lookup id).map (·.renumber gap)
  sides : ∀ {id p}, d.steers.lookup id = some p → ∀ taken, p.side taken < d.graph.nodes.length
  stream : e.stream = gap.or d.stream

variable {f : Function} {d d' e e' g : Draft} {v : Operand} {id : InstId} {p : SteerPair}
  {target : NodeId}

namespace Mirrors

/-- Edges may be added on both sides where they show, or where they need not. -/
theorem feedsInto {T U : NodeId → Prop} (h : Mirrors gap joins into d e) (hd : FeedsInto T d d')
    (he : FeedsInto U e e') (hedge : ∀ {a b}, ¬ into b →
      e'.graph.hasEdge (renumber gap a) (renumber gap b) = d'.graph.hasEdge a b) :
    Mirrors gap joins into d' e' where
  node hn := by rw [he.node?, hd.node?, h.node hn]
  join hn := by simpa only [he.node?, hd.node?] using h.join hn
  value v := by rw [he.find?, hd.find?, h.value]
  edge := hedge
  full := hd.full h.full
  full' := he.full h.full'
  next := by rw [he.nodes, hd.nodes, h.next]
  after := by
    rw [hd.nodes]
    exact h.after
  steers id := by rw [he.steers, hd.steers, h.steers]
  sides := by
    rw [hd.steers, hd.nodes]
    exact h.sides
  stream := by rw [he.stream, hd.stream, h.stream]

/-! ### Showing each other -/

/-- A draft shows itself if the nodes that may differ are those of phis. -/
theorem refl (hd : Sound f d) (hjoins : ∀ {n}, joins n → ∃ m, d.graph.node? n = some m ∧ m.Joins) :
    Mirrors none joins into d d where
  node _ := rfl
  join hn := by
    obtain ⟨m, hm, hjoin⟩ := hjoins hn
    exact ⟨m, m, hm, hm, hjoin, hjoin, rfl⟩
  value v := (map_renumber_none _).symm
  edge _ := rfl
  full := hd.full
  full' := hd.full
  next := rfl
  after := by simp
  steers id := (SteerPair.map_renumber_none _).symm
  sides hp taken := by
    obtain ⟨_, hm, _⟩ := hd.side hp taken
    exact Graph.lt_length_of_node? hm
  stream := rfl

/-- Without a gap either draft shows the other. -/
theorem symm (h : Mirrors none joins into d e) : Mirrors none joins into e d where
  node hn := (h.node hn).symm
  join hn := by
    obtain ⟨a, b, ha, hb, hja, hjb, hab⟩ := h.join hn
    exact ⟨b, a, hb, ha, hjb, hja, hab.symm⟩
  value v := by rw [h.value, map_renumber_none, map_renumber_none]
  edge hb := (h.edge hb).symm
  full := h.full'
  full' := h.full
  next := h.next.symm
  after := by simp
  steers id := by rw [h.steers, SteerPair.map_renumber_none, SteerPair.map_renumber_none]
  sides := by
    intro id p hp taken
    have hlength : e.graph.nodes.length = d.graph.nodes.length := h.next
    rw [h.steers] at hp
    obtain ⟨q, hq, rfl⟩ := Option.map_eq_some_iff.mp hp
    rw [hlength]
    exact h.sides hq taken
  stream := h.stream.symm

/-- Without a gap showing is transitive. -/
theorem trans (hde : Mirrors none joins into d e) (heg : Mirrors none joins into e g) :
    Mirrors none joins into d g where
  node hn := (heg.node hn).trans (hde.node hn)
  join hn := by
    obtain ⟨a, b, ha, hb, hja, _, hab⟩ := hde.join hn
    obtain ⟨b', c, hb', hc, _, hjc, hbc⟩ := heg.join hn
    rw [renumber_none, hb', Option.some.injEq] at hb
    subst hb
    exact ⟨a, c, ha, hc, hja, hjc, hab.trans hbc⟩
  value v := by rw [heg.value, map_renumber_none, hde.value]
  edge hb := (heg.edge hb).trans (hde.edge hb)
  full := hde.full
  full' := heg.full'
  next := heg.next.trans hde.next
  after := by simp
  steers id := by rw [heg.steers, SteerPair.map_renumber_none, hde.steers]
  sides := hde.sides
  stream := heg.stream.trans hde.stream

/-- Edges into some nodes do not show. -/
theorem of_feedsInto (h : Mirrors none joins into d d) (he : FeedsInto into d e) :
    Mirrors none joins into d e :=
  h.feedsInto (T := into) (.refl d) he fun hb => by
    rw [Bool.eq_iff_iff]
    exact ⟨fun hab => (he.edge hab).resolve_right hb, he.kept⟩

/-! ### Edges -/

variable (h : Mirrors gap joins into d e)

include h

/-- Reports do not count. -/
theorem report (x y : Event) : Mirrors gap joins into (d.report x) (e.report y) :=
  h.feedsInto (T := fun _ => True) (U := fun _ => True) (.report d x) (.report e y) h.edge

/-- The same edge keeps the drafts alike, and is found on both sides or on neither. -/
theorem connect (x y : Option NodeId) :
    Mirrors gap joins into (d.connect x y).1
        (e.connect (x.map (renumber gap)) (y.map (renumber gap))).1 ∧
      (e.connect (x.map (renumber gap)) (y.map (renumber gap))).2 = (d.connect x y).2 := by
  constructor
  · refine h.feedsInto (connect_feedsInto (T := fun _ => True) fun _ _ => trivial)
      (connect_feedsInto (T := fun _ => True) fun _ _ => trivial) fun {a b} hb => ?_
    have hd : (d.connect x y).1.graph = (d.graph.connect x y).1 := rfl
    have he : (e.connect (x.map (renumber gap)) (y.map (renumber gap))).1.graph =
        (e.graph.connect (x.map (renumber gap)) (y.map (renumber gap))).1 := rfl
    rw [Bool.eq_iff_iff, hd, he, Graph.hasEdge_connect_iff, Graph.hasEdge_connect_iff, h.edge hb,
      h.exists_node_iff, h.exists_node_iff, map_renumber_eq_some, map_renumber_eq_some]
  · have hd : (d.connect x y).2 = (d.graph.connect x y).2.isNone := rfl
    have he : (e.connect (x.map (renumber gap)) (y.map (renumber gap))).2 =
        (e.graph.connect (x.map (renumber gap)) (y.map (renumber gap))).2.isNone := rfl
    rw [Bool.eq_iff_iff, hd, he, Graph.isNone_connect_iff, Graph.isNone_connect_iff]
    constructor
    · intro hex
      obtain ⟨a, b, ha, hb, hna, hnb⟩ := hex
      obtain ⟨a, hx, rfl⟩ := Option.map_eq_some_iff.mp ha
      obtain ⟨b, hy, rfl⟩ := Option.map_eq_some_iff.mp hb
      exact ⟨a, b, hx, hy, h.exists_node_iff.mp hna, h.exists_node_iff.mp hnb⟩
    · intro hex
      obtain ⟨a, b, rfl, rfl, hna, hnb⟩ := hex
      exact ⟨_, _, rfl, rfl, h.exists_node_iff.mpr hna, h.exists_node_iff.mpr hnb⟩

/-- So does the same edge between two nodes. -/
theorem link (a b : NodeId) : Mirrors gap joins into (d.link a b)
    (e.link (renumber gap a) (renumber gap b)) := (h.connect (some a) (some b)).1

/-- So do the edges from the same pair of steers. -/
theorem linkPair (p : SteerPair) (target : NodeId) : Mirrors gap joins into (d.linkPair p target)
    (e.linkPair (p.renumber gap) (renumber gap target)) := (h.link _ _).link _ _

/-- An operator in one run is one in the other. -/
theorem operator? (id : InstId) : e.operator? id = (d.operator? id).map (renumber gap) := by
  rw [Draft.operator?, Draft.operator?, h.value]
  cases d.graph.find? (.result id) with
  | none => rfl
  | some n =>
      rw [Option.map_some, Option.filter_some, Option.filter_some]
      by_cases hn : joins n
      · obtain ⟨m, m', hm, hm', hjoin, hjoin', _⟩ := h.join hn
        simp [Graph.kind?, hm, hm', hjoin.kind_ne, hjoin'.kind_ne]
      · rw [Graph.kind?, Graph.kind?, h.node hn]
        split <;> rfl

/-! ### New nodes -/

/-- The next node is none of the joins. -/
theorem not_joins_length : ¬ joins d.graph.nodes.length := by
  intro hn
  obtain ⟨m, _, hm, _⟩ := h.join hn
  exact absurd (Graph.lt_length_of_node? hm) (Nat.lt_irrefl _)

/-- The node after the next has the number after it on both sides. -/
theorem renumber_length : renumber gap (d.graph.nodes.length + 1) = e.graph.nodes.length + 1 := by
  rw [h.next]
  cases gap with
  | none => rfl
  | some k =>
      have hk := h.after k rfl
      rw [renumber_some, renumber_some, if_pos hk, if_pos (Nat.le_succ_of_le hk)]

/-- The same new node keeps the drafts alike, under its later number. -/
theorem addNode (m : Node) (hm : ∀ v, m.origin = some v → d.graph.find? v = none) :
    Mirrors gap joins into (d.addNode m).1 (e.addNode m).1 ∧
      (e.addNode m).2 = renumber gap (d.addNode m).2 := by
  have hm' : ∀ v, m.origin = some v → e.graph.find? v = none := fun v hv => by
    rw [h.value, hm v hv, Option.map_none]
  have hd : (d.addNode m).1.graph = (d.graph.addNode m).1 := rfl
  have he : (e.addNode m).1.graph = (e.graph.addNode m).1 := rfl
  refine ⟨⟨⟨fun {n} hn => ?_, fun {n} hn => ?_, fun v => ?_, h.edge⟩,
    Graph.full_addNode h.full hm, Graph.full_addNode h.full' hm', ?_, fun k hk => ?_, h.steers,
    fun hp taken => ?_, h.stream⟩, ?_⟩
  · simp only [hd, he, Graph.node?_addNode h.full, Graph.node?_addNode h.full', h.next, h.node hn,
      renumber_inj]
  · have hne : n ≠ d.graph.nodes.length := fun heq => h.not_joins_length (heq ▸ hn)
    simp only [hd, he, Graph.node?_addNode h.full, Graph.node?_addNode h.full', h.next,
      renumber_inj, if_neg hne]
    exact h.join hn
  · rw [hd, he]
    cases ho : m.origin with
    | none => rw [Graph.find?_addNode_of_none ho, Graph.find?_addNode_of_none ho, h.value]
    | some w =>
        rw [Graph.find?_addNode_of_some h.full ho, Graph.find?_addNode_of_some h.full' ho, h.value,
          h.next]
        split <;> rfl
  · rw [hd, he, Graph.length_addNode h.full, Graph.length_addNode h.full', h.renumber_length]
  · rw [hd, Graph.length_addNode h.full]
    exact Nat.le_succ_of_le (h.after k hk)
  · rw [hd, Graph.length_addNode h.full]
    exact Nat.lt_succ_of_lt (h.sides hp taken)
  · have hid : (d.addNode m).2 = d.graph.nodes.length := Graph.addNode_id h.full
    have hid' : (e.addNode m).2 = e.graph.nodes.length := Graph.addNode_id h.full'
    rw [hid, hid', h.next]

/-- So does the node of the same value. -/
theorem nodeFor (f : Function) (v : Operand) :
    Mirrors gap joins into (d.nodeFor f v).1 (e.nodeFor f v).1 ∧
      (e.nodeFor f v).2 = (d.nodeFor f v).2.map (renumber gap) := by
  have hvalue := h.value v
  simp only [Draft.nodeFor, Graph.nodeFor]
  cases hfind : d.graph.find? v with
  | some i =>
      rw [hfind, Option.map_some] at hvalue
      simp only [hvalue]
      exact ⟨h, rfl⟩
  | none =>
      rw [hfind, Option.map_none] at hvalue
      simp only [hvalue]
      cases hnew : f.newNode? v with
      | none => exact ⟨h, rfl⟩
      | some m =>
          obtain ⟨hadd, hid⟩ := h.addNode m fun w hw => by
            rw [(newNode?_eq_some hnew).1] at hw
            cases hw
            exact hfind
          exact ⟨hadd, congrArg some hid⟩

/-- A change of a node on both sides. -/
theorem modifyNode (n : NodeId) {change : Node → Node}
    (horigin : ∀ m, (change m).origin = m.origin) (hjoins : ∀ m, m.Joins → (change m).Joins) :
    Mirrors gap joins into { d with graph := d.graph.modifyNode n change }
      { e with graph := e.graph.modifyNode (renumber gap n) change } where
  node {m} hm := by
    simp only [Graph.node?_modifyNode, renumber_inj, h.node hm]
  join {m} hm := by
    obtain ⟨x, y, hx, hy, hxj, hyj, hxy⟩ := h.join hm
    simp only [Graph.node?_modifyNode, renumber_inj, hx, hy]
    split
    · exact ⟨_, _, rfl, rfl, hjoins x hxj, hjoins y hyj, by rw [horigin, horigin, hxy]⟩
    · exact ⟨x, y, rfl, rfl, hxj, hyj, hxy⟩
  value := h.value
  edge := h.edge
  full := Graph.full_modifyNode h.full horigin
  full' := Graph.full_modifyNode h.full' horigin
  next := by simpa using h.next
  after := by simpa using h.after
  steers := h.steers
  sides hp taken := by simpa using h.sides hp taken
  stream := h.stream

/-- So does the operator that the same condition gets. -/
theorem promote (f : Function) (v : Operand) :
    Mirrors gap joins into (d.promote f v) (e.promote f v) := by
  obtain ⟨hnode, hid⟩ := h.nodeFor f v
  unfold Draft.promote
  cases hd : d.nodeFor f v with
  | mk d₁ i =>
      cases he : e.nodeFor f v with
      | mk e₁ j =>
          rw [hd, he] at hnode hid
          simp only at hid
          subst hid
          cases i with
          | none => exact hnode
          | some i =>
              refine hnode.modifyNode i (fun m => ?_) fun m hm => ?_
              · split <;> rfl
              · rwa [if_neg hm.kind_ne.1]

/-- So does the same new pair of steers. -/
theorem newPair (id : InstId) :
    Mirrors gap joins into (d.newPair id).1 (e.newPair id).1 ∧
      (e.newPair id).2 = (d.newPair id).2.renumber gap := by
  obtain ⟨htrue, hid⟩ := h.addNode { kind := .trueSteer, label := "T" } (by simp)
  obtain ⟨hfalse, hid'⟩ := htrue.addNode { kind := .falseSteer, label := "F" } (by simp)
  have hpair : (e.newPair id).2 = (d.newPair id).2.renumber gap :=
    congrArg₂ SteerPair.mk hid hid'
  have hlength : (d.newPair id).1.graph.nodes.length = d.graph.nodes.length + 1 + 1 :=
    (Graph.length_addNode htrue.full).trans (congrArg (· + 1) (Graph.length_addNode h.full))
  refine ⟨{ hfalse with steers := fun x => ?_, sides := fun {x p} hp taken => ?_ }, hpair⟩
  · rw [lookup_newPair, lookup_newPair, hpair, h.steers]
    split <;> rfl
  · rw [hlength]
    rw [lookup_newPair] at hp
    split at hp
    · rw [← Option.some.inj hp, newPair_side h.full]
      cases taken
      · exact Nat.lt_succ_self _
      · exact Nat.lt_succ_of_lt (Nat.lt_succ_self _)
    · exact Nat.lt_succ_of_lt (Nat.lt_succ_of_lt (h.sides hp taken))

end Mirrors

/-! ### Pairs of steers -/

/-- A way to wire does the same in both runs. -/
def WireMirrors (gap : Option NodeId) (joins into : NodeId → Prop)
    (wire : Operand → NodeId → Draft → Draft) : Prop :=
  ∀ v target d e, Mirrors gap joins into d e →
    Mirrors gap joins into (wire v target d) (wire v (renumber gap target) e)

namespace Mirrors

variable (h : Mirrors gap joins into d e)

include h

/-- Feeding the same user keeps the drafts alike. -/
theorem feedUser (f : Function) (p : SteerPair) (user : InstId) :
    Mirrors gap joins into (d.feedUser f p user) (e.feedUser f (p.renumber gap) user) := by
  unfold Draft.feedUser
  rw [h.operator?]
  split
  · exact h
  · cases d.operator? user with
    | none => exact h
    | some n => exact h.linkPair p n

section Steers

variable {wire : Operand → NodeId → Draft → Draft} (hwire : WireMirrors gap joins into wire)

include hwire

/-- Wiring the same value that may be missing keeps them alike when wiring a value does. -/
theorem wireOption (v : Option Operand) (target : NodeId) :
    Mirrors gap joins into (Draft.wireOption wire v target d)
      (Draft.wireOption wire v (renumber gap target) e) := by
  cases v with
  | none => exact h
  | some w => exact hwire w target d e h

/-- Opening the same pair of steers keeps them alike when wiring a value does. -/
theorem openSteers (f : Function) (id : InstId) (cond : Operand) (onTrue onFalse : Option Operand) :
    Mirrors gap joins into (d.openSteers f wire id cond onTrue onFalse).1
        (e.openSteers f wire id cond onTrue onFalse).1 ∧
      (e.openSteers f wire id cond onTrue onFalse).2 =
        (d.openSteers f wire id cond onTrue onFalse).2.renumber gap := by
  obtain ⟨hnew, hpair⟩ := (h.promote f cond).newPair id
  rw [openSteers_eq, openSteers_eq]
  simp only [hpair, SteerPair.side_renumber]
  refine ⟨?_, trivial⟩
  generalize ((d.promote f cond).newPair id).2 = p
  generalize ((d.promote f cond).newPair id).1 = d₁ at hnew ⊢
  generalize ((e.promote f cond).newPair id).1 = e₁ at hnew ⊢
  have hcond := hwire cond (p.side false) _ _ (hwire cond (p.side true) _ _ hnew)
  exact (hcond.wireOption hwire onTrue (p.side true)).wireOption hwire onFalse (p.side false)

/-- Making the steers of the same select keeps them alike when wiring a value does. -/
theorem selectSteers (f : Function) (id : InstId) :
    Mirrors gap joins into (d.selectSteers f wire id).1 (e.selectSteers f wire id).1 ∧
      (e.selectSteers f wire id).2 = (d.selectSteers f wire id).2.map (·.renumber gap) := by
  have hsteers := h.steers id
  unfold Draft.selectSteers
  cases hlookup : d.steers.lookup id with
  | some p =>
      rw [hlookup, Option.map_some] at hsteers
      simp only [hsteers]
      exact ⟨h, rfl⟩
  | none =>
      rw [hlookup, Option.map_none] at hsteers
      simp only [hsteers]
      split
      · rename_i cond ty onTrue onFalse _
        obtain ⟨hopen, hpair⟩ := h.openSteers hwire f id cond (some onTrue) (some onFalse)
        simp only [hpair]
        refine ⟨?_, rfl⟩
        exact List.foldl_rel hopen fun user _ _ _ h' => h'.feedUser f _ user
      · exact ⟨h, rfl⟩

end Steers

end Mirrors

/-- A select gets a pair of steers whenever it is asked for one. -/
theorem exists_selectSteers {i : Instruction} (hi : f.instruction? id = some i)
    (hsel : i.isSelect = true) (wire : Operand → NodeId → Draft → Draft) :
    ∃ p, (d.selectSteers f wire id).2 = some p := by
  unfold selectSteers
  cases d.steers.lookup id with
  | some p => exact ⟨p, rfl⟩
  | none =>
      cases i with
      | select => simp [hi]
      | _ => cases hsel

end Draft

/-! ## Searches side by side -/

/-- Two searches that have come to the same instructions on drafts side by side. -/
structure Feed.Mirrors (gap : Option NodeId) (joins into : NodeId → Prop) (s t : Feed) : Prop where
  draft : Draft.Mirrors gap joins into s.draft t.draft
  visited : t.visited = s.visited
  fed : t.fed = s.fed

namespace Feed.Mirrors

variable {s t : Feed} (h : Mirrors gap joins into s t)

include h

/-- The edge from the same leaf keeps two searches alike. -/
theorem fromLeaf (f : Function) (v : Operand) (target : NodeId) :
    Mirrors gap joins into (s.fromLeaf f v target) (t.fromLeaf f v (renumber gap target)) := by
  obtain ⟨hnode, hid⟩ := h.draft.nodeFor f v
  obtain ⟨hconnect, hfound⟩ := hnode.connect (s.draft.nodeFor f v).2 (some target)
  rw [← hid, Option.map_some] at hconnect hfound
  exact ⟨hconnect, h.visited, congrArg₂ (· || ·) h.fed hfound⟩

/-- So does the edge from the same node. -/
theorem fromNode (n target : NodeId) :
    Mirrors gap joins into (s.fromNode n target)
      (t.fromNode (renumber gap n) (renumber gap target)) := by
  obtain ⟨hconnect, hfound⟩ := h.draft.connect (some n) (some target)
  exact ⟨hconnect, h.visited, congrArg₂ (· || ·) h.fed hfound⟩

/-- So do the edges from the same pair of steers. -/
theorem fromSteers (p : SteerPair) (target : NodeId) :
    Mirrors gap joins into (s.fromSteers p target)
      (t.fromSteers (p.renumber gap) (renumber gap target)) := by
  obtain ⟨htrue, hfound⟩ := h.draft.connect (some p.onTrue) (some target)
  obtain ⟨hfalse, hfound'⟩ := htrue.connect (some p.onFalse) (some target)
  exact ⟨hfalse, h.visited, congrArg₂ (· || ·) h.fed (congrArg₂ (· && ·) hfound hfound')⟩

/-- So does visiting the same instruction. -/
theorem visit (id : InstId) : Mirrors gap joins into (s.visit id) (t.visit id) :=
  ⟨h.draft, congrArg (id :: ·) h.visited, h.fed⟩

end Feed.Mirrors

/-- A wire by a search does the same in both runs if the search does. -/
theorem wireBy_mirrors {f : Function} {search : Operand → NodeId → Feed → Feed}
    (hsearch : ∀ v target s t, Feed.Mirrors gap joins into s t →
      Feed.Mirrors gap joins into (search v target s) (search v (renumber gap target) t)) :
    Draft.WireMirrors gap joins into (Draft.wireBy f search) := by
  intro v target d e h
  have hs := hsearch v target { draft := d } { draft := e } ⟨h, rfl, rfl⟩
  unfold Draft.wireBy
  simp only [hs.fed]
  split
  · exact hs.draft
  · exact hs.draft.report _ _

/-- A search does the same in both runs. -/
theorem feed_mirrors (f : Function) (depth : Nat) (v : Operand) (target : NodeId) (s t : Feed)
    (h : Feed.Mirrors gap joins into s t) :
    Feed.Mirrors gap joins into (feed f depth v target s)
      (feed f depth v (renumber gap target) t) := by
  induction depth generalizing v target s t with
  | zero =>
      cases v with
      | function | result => exact h
      | param | const | global => exact h.fromLeaf f _ target
  | succ depth ih =>
      cases v with
      | function => exact h
      | param | const | global => exact h.fromLeaf f _ target
      | result id =>
          by_cases hid : id ∈ s.visited
          · rw [feed_of_mem hid, feed_of_mem (by rwa [h.visited])]
            exact h
          have hid' : id ∉ t.visited := by rwa [h.visited]
          cases hi : f.instruction? id with
          | none =>
              simp only [feed, if_neg hid, if_neg hid', hi]
              exact h.visit id
          | some i =>
              have hvisit := h.visit id
              cases hsel : i.isSelect with
              | true =>
                  -- the steers are there in both runs, or are made in both by searches of their own
                  obtain ⟨hdraft, hpair⟩ := h.draft.selectSteers (wireBy_mirrors ih) f id
                  obtain ⟨p, hp⟩ := Draft.exists_selectSteers (d := s.draft) hi hsel
                    (Draft.wireBy f (feed f depth))
                  rw [hp, Option.map_some] at hpair
                  rw [feed_of_isSelect hid hi hsel (Prod.ext rfl hp),
                    feed_of_isSelect hid' hi hsel (Prod.ext rfl hpair)]
                  exact Feed.Mirrors.fromSteers (s := { s.visit id with draft := _ })
                    (t := { t.visit id with draft := _ }) ⟨hdraft, hvisit.visited, hvisit.fed⟩ p
                    target
              | false =>
                  have hop := h.draft.operator? id
                  cases hnode : s.draft.operator? id with
                  | some n =>
                      rw [hnode] at hop
                      rw [feed_of_operator hid hi hsel hnode, feed_of_operator hid' hi hsel hop]
                      exact hvisit.fromNode n target
                  | none =>
                      rw [hnode] at hop
                      rw [feed_of_open hid hi hsel hnode, feed_of_open hid' hi hsel hop]
                      exact List.foldl_rel hvisit fun w _ s' t' h' => ih w target s' t' h'

end Dataflow
