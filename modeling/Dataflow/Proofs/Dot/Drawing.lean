import Dataflow.Dot.Drawing
import Dataflow.Proofs.Dot.PictureText
import Dataflow.Proofs.Graph.Store
import Mathlib.Data.List.Forall2

/-!
# What the picture of a graph shows

`Graph.Depicted g drawn p` says that picture `p` shows graph `g`: the nodes with an edge and those
that frame the function or join values, in the order of their numbers, and every edge once, between
the figures of its ends. The picture of every graph that the operations make does so, and its DOT
text tells the picture (`Graph.Made.dot_shows`). What keeps edges from being dropped is that they
join nodes (`Graph.Slotted`): the ends of an edge are drawn because of that edge.
-/

namespace Dataflow

namespace Graph

/-- A graph that the operations make of the empty graph. What a node holds may be changed in any
way, the value it stands for included. -/
inductive Made : Graph → Prop where
  | empty : Made {}
  | ensure {g : Graph} (f : Function) (v : Operand) : Made g → Made (g.nodeFor f v).1
  | add {g : Graph} (n : Node) : Made g → Made (g.addNode n).1
  | connect {g : Graph} (a b : Option NodeId) : Made g → Made (g.connect a b).1
  | remove {g : Graph} (i : Option NodeId) : Made g → Made (g.remove i).graph
  | modify {g : Graph} (i : NodeId) (change : Node → Node) : Made g → Made (g.modifyNode i change)

variable {g h : Graph} {a b i : NodeId} {n : Node} {drawn : List NodeId}

/-- What the operations make is what edits make. -/
theorem Made.exists_edits (hg : g.Made) : ∃ edits, after edits = g := by
  have hstep : ∀ {g : Graph} (e : Edit), (∃ edits, after edits = g) →
      ∃ edits, after edits = g.edit e := by
    rintro _ e ⟨edits, rfl⟩
    exact ⟨edits ++ [e], after_append edits e⟩
  induction hg with
  | empty => exact ⟨[], rfl⟩
  | ensure f v _ ih => exact hstep (.ensure f v) ih
  | add n _ ih => exact hstep (.add n) ih
  | connect a b _ ih => exact hstep (.connect a b) ih
  | remove i _ ih => exact hstep (.remove i) ih
  | modify i change _ ih => exact hstep (.modify i change) ih

/-- So its edges are distinct and join nodes. -/
theorem Made.slotted (hg : g.Made) : g.Slotted := by
  obtain ⟨edits, rfl⟩ := hg.exists_edits
  exact slotted_after edits

/-! ## Which nodes are drawn -/

/-- A node has a degree if an edge is at it. -/
theorem degree_pos : 0 < g.degree i ↔ ∃ e ∈ g.edges, e.1 = i ∨ e.2 = i := by
  rw [degree, Nat.add_pos_iff_pos_or_pos, List.countP_pos_iff, List.countP_pos_iff]
  simp only [decide_eq_true_eq, edges_perm.mem_iff, List.mem_map, exists_exists_and_eq_and]
  rw [← exists_or]
  exact exists_congr fun l => by tauto

theorem mem_visible : (i, n) ∈ g.visible ↔
    g.node? i = some n ∧ ((∃ e ∈ g.edges, e.1 = i ∨ e.2 = i) ∨ n.kind.isFrame = true) := by
  rw [visible, List.mem_filter, mem_entries, Bool.or_eq_true, decide_eq_true_eq, gt_iff_lt,
    degree_pos]

/-! ## Which edges are drawn -/

theorem forall₂_filterMap {α β : Type} {f : α → Option β} {R : α → β → Prop} {l : List α}
    (h : ∀ a ∈ l, ∃ b, f a = some b ∧ R a b) : List.Forall₂ R l (l.filterMap f) := by
  induction l with
  | nil => exact .nil
  | cons a l ih =>
      obtain ⟨b, hb, hab⟩ := h a List.mem_cons_self
      rw [List.filterMap_cons_some hb]
      exact .cons hab (ih fun c hc => h c (List.mem_cons_of_mem a hc))

/-- An edge between nodes that are drawn is drawn between their places. -/
theorem drawnEdge?_of_mem (ha : a ∈ drawn) (hb : b ∈ drawn) :
    ∃ k, drawnEdge? drawn (a, b) = some k ∧ drawn[k.1]? = some a ∧ drawn[k.2]? = some b := by
  have hplace : ∀ {c}, c ∈ drawn → ∃ x, drawn.idxOf? c = some x ∧ drawn[x]? = some c := by
    intro c hc
    obtain ⟨x, hx⟩ := Option.isSome_iff_exists.mp (List.isSome_idxOf?.mpr hc)
    obtain ⟨hlt, heq, _⟩ := List.idxOf?_eq_some_iff.mp hx
    exact ⟨x, hx, by rw [List.getElem?_eq_getElem hlt, heq]⟩
  obtain ⟨x, hx, hxa⟩ := hplace ha
  obtain ⟨y, hy, hyb⟩ := hplace hb
  exact ⟨(x, y), by simp [drawnEdge?, hx, hy], hxa, hyb⟩

/-! ## The picture -/

/-- Picture `p` shows graph `g`; its figures are the nodes in `drawn`. -/
structure Depicted (g : Graph) (drawn : List NodeId) (p : Picture) : Prop where
  /-- Nodes are drawn in the order of their numbers, each once. -/
  ascending : drawn.Pairwise (· < ·)
  /-- The nodes with an edge are drawn, and those that frame the function or join values. -/
  nodes : ∀ i, i ∈ drawn ↔ ∃ n, g.node? i = some n ∧
    ((∃ e ∈ g.edges, e.1 = i ∨ e.2 = i) ∨ n.kind.isFrame = true)
  /-- Each of them is one figure, with its label and its outline, and there is no other figure. -/
  figures : List.Forall₂ (fun i figure => ∃ n, g.node? i = some n ∧
    figure = { label := n.shown, shape := n.kind.shape }) drawn p.figures
  /-- Each edge is drawn once, between the figures of its ends, and there is no other edge. -/
  edges : List.Forall₂ (fun e k => drawn[k.1]? = some e.1 ∧ drawn[k.2]? = some e.2) g.edges p.edges
  /-- The graph lists no edge twice. -/
  once : g.edges.Nodup
  /-- No edge is drawn twice. -/
  drawnOnce : p.edges.Nodup

/-- A node has one place in a picture. -/
theorem place_unique {x y : Nat} (hx : (g.visible.map (·.1))[x]? = some i)
    (hy : (g.visible.map (·.1))[y]? = some i) : x = y :=
  (List.getElem?_inj (List.getElem?_eq_some_iff.mp hx).1
    (g.nodup_entries.sublist (List.filter_sublist.map _))).mp (hx.trans hy.symm)

/-- The picture of a graph whose edges are distinct and join nodes shows the graph. -/
theorem Slotted.depicted (hg : g.Slotted) : g.Depicted (g.visible.map (·.1)) g.picture := by
  have hnodes : ∀ i, i ∈ g.visible.map (·.1) ↔ ∃ n, g.node? i = some n ∧
      ((∃ e ∈ g.edges, e.1 = i ∨ e.2 = i) ∨ n.kind.isFrame = true) := by
    intro i
    simp only [List.mem_map, Prod.exists, mem_visible, exists_and_right, exists_eq_right]
  have hends : ∀ e ∈ g.edges, ∃ k, drawnEdge? (g.visible.map (·.1)) e = some k ∧
      (g.visible.map (·.1))[k.1]? = some e.1 ∧ (g.visible.map (·.1))[k.2]? = some e.2 := by
    rintro ⟨a, b⟩ he
    obtain ⟨ha, hb⟩ := hg.ends (mem_edges.mp he)
    obtain ⟨n, hn⟩ := Option.ne_none_iff_exists'.mp ha
    obtain ⟨m, hm⟩ := Option.ne_none_iff_exists'.mp hb
    exact drawnEdge?_of_mem ((hnodes a).mpr ⟨n, hn, .inl ⟨_, he, .inl rfl⟩⟩)
      ((hnodes b).mpr ⟨m, hm, .inl ⟨_, he, .inr rfl⟩⟩)
  have hedges := forall₂_filterMap hends
  have honce : g.edges.Nodup := edges_perm.nodup_iff.mpr hg.pairs
  refine ⟨g.ascending_entries.sublist (List.filter_sublist.map _), hnodes, ?_, hedges, honce, ?_⟩
  · rw [List.forall₂_map_left_iff, picture, List.forall₂_map_right_iff, List.forall₂_same]
    exact fun e he => ⟨e.2, (mem_visible.mp he).1, rfl⟩
  · -- a place is that of one node, and a node has one place
    refine (List.rel_nodup ⟨fun e k e' h h' => ?_, fun e k k' h h' => ?_⟩ hedges).mp honce
    · exact Prod.ext (Option.some.inj (h.1.symm.trans h'.1)) (Option.some.inj (h.2.symm.trans h'.2))
    · exact Prod.ext (place_unique h.1 h'.1) (place_unique h.2 h'.2)

/-- The DOT text of a graph that the operations make shows the graph: it can be read back as a
picture of the graph, and another graph has the same text just when it shows the same labels and
outlines in the same order and the same edges in the same order. -/
theorem Made.dot_shows (hg : g.Made) (h : Graph) :
    g.Depicted (g.visible.map (·.1)) g.picture ∧ Picture.read? g.dot = some g.picture ∧
      (g.dot = h.dot ↔
        g.visible.map (fun e => (e.2.shown, e.2.kind.shape)) =
          h.visible.map (fun e => (e.2.shown, e.2.kind.shape)) ∧
        g.picture.edges = h.picture.edges) := by
  refine ⟨hg.slotted.depicted, Picture.read?_text _, Picture.text_inj.trans ?_⟩
  have hfigures : ∀ g : Graph, g.picture.figures.map (fun k => (k.label, k.shape)) =
      g.visible.map fun e => (e.2.shown, e.2.kind.shape) := fun g => by simp [picture]
  have hinj : Function.Injective fun k : Figure => (k.label, k.shape) := by
    rintro ⟨_, _⟩ ⟨_, _⟩ heq
    cases heq
    rfl
  rw [← hfigures, ← hfigures, (List.map_injective_iff.mpr hinj).eq_iff]
  exact ⟨fun heq => ⟨congrArg _ heq, congrArg _ heq⟩,
    fun ⟨hf, he⟩ => Picture.mk.injEq .. ▸ ⟨hf, he⟩⟩

/-- A graph with a gap in its numbers, nodes without edges, and a label that looks like the end of
its line and an edge. -/
def gapped : Graph :=
  let named (g : Graph) (kind : Operator) (label : String) := (g.addNode { kind, label }).1
  let g := named (named (named {} .constant "\\\"]\n    0 -> 0 [ ]\n") .load "ld") .binaryOp "+"
  let g := ((g.connect (some 0) (some 1)).1.connect (some 0) (some 2)).1
  (named (named g .constant "i32 7") .merge "M").removeNode 1

theorem made_gapped : gapped.Made :=
  .remove (some 1) <| .add _ <| .add _ <| .connect (some 0) (some 2) <|
    .connect (some 0) (some 1) <| .add _ <| .add _ <| .add _ .empty

theorem dot_shows_gapped : gapped.Made ∧ gapped.Depicted [0, 2, 4] gapped.picture ∧
    gapped.picture.edges = [(0, 1)] ∧ Picture.read? gapped.dot = some gapped.picture ∧
    gapped.dot ≠ (gapped.removeNode 4).dot := by
  have hshows := made_gapped.dot_shows (gapped.removeNode 4)
  refine ⟨made_gapped, hshows.1, by decide, hshows.2.1, fun heq => ?_⟩
  exact absurd (hshows.2.2.mp heq).1 (by decide)

end Graph

end Dataflow
