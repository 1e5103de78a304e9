import Dataflow.Proofs.ControlFlow.LoopNesting
import Dataflow.Proofs.Transform.Contraction

/-!
# Loops when two blocks become one

Blocks `l` and `r` lie in the same loops (`Contracts.mem_body_pair`), and `r` heads no loop
(`Contracts.loopAt?_right`). So each other header heads the loop that its loop became
(`Contracts.loopAt?_image`), and the loops are the images of those before, in the same order
(`Contracts.loops_image`).
-/

namespace Dataflow

variable {a a' : BlockId → BlockId} {n n' : Nat} {bs : List BlockId} {b e : BlockId}

/-- The blocks below `n` that the blocks `bs` go to, in block order. -/
def blockImage (a : BlockId → BlockId) (n : Nat) (bs : List BlockId) : List BlockId :=
  (List.range n).filter (· ∈ bs.map a)

/-- The image of a set of blocks holds what its blocks are sent to. -/
theorem mem_blockImage : e ∈ blockImage a n bs ↔ e < n ∧ ∃ b ∈ bs, a b = e := by
  simp [blockImage]

/-- An image is listed in order. -/
theorem blockImage_sorted : (blockImage a n bs).Pairwise (· < ·) := List.pairwise_lt_range.filter _

/-- A list in block order is told by its members. -/
theorem eq_blockImage {es : List BlockId} (hes : es.Pairwise (· < ·))
    (hmem : ∀ e, e ∈ es ↔ ∃ b ∈ bs, a b = e) (hlt : ∀ b ∈ bs, a b < n) :
    es = blockImage a n bs := by
  refine hes.eq_of_mem_iff blockImage_sorted fun e => ?_
  rw [hmem, mem_blockImage]
  constructor
  · intro hex
    obtain ⟨b, hb, rfl⟩ := hex
    exact ⟨hlt b hb, b, hb, rfl⟩
  · exact fun hex => hex.2

/-- Images of images are images. -/
theorem blockImage_blockImage (hlt : ∀ b ∈ bs, a b < n) :
    blockImage a' n' (blockImage a n bs) = blockImage (a' ∘ a) n' bs := by
  refine blockImage_sorted.eq_of_mem_iff blockImage_sorted fun e => ?_
  simp only [mem_blockImage, Function.comp_apply]
  refine and_congr_right fun _ => ⟨fun hex => ?_, fun hex => ?_⟩
  · obtain ⟨_, ⟨_, b, hb, rfl⟩, rfl⟩ := hex
    exact ⟨b, hb, rfl⟩
  · obtain ⟨b, hb, rfl⟩ := hex
    exact ⟨a b, ⟨hlt b hb, b, hb, rfl⟩, rfl⟩

namespace NaturalLoop

/-- The loop that a loop becomes when each block goes where `a` says, in a function with `n`
blocks. -/
def image (a : BlockId → BlockId) (n : Nat) (l : NaturalLoop) : NaturalLoop where
  header := a l.header
  latches := blockImage a n l.latches
  body := blockImage a n l.body
  preheader := l.preheader.map a
  exiting := blockImage a n l.exiting

/-- Each block of the loop is below `n`. -/
structure Below (l : NaturalLoop) (n : Nat) : Prop where
  body : ∀ b ∈ l.body, b < n
  latches : ∀ b ∈ l.latches, b < n
  exiting : ∀ b ∈ l.exiting, b < n

/-- A loop with the image of each part is the image. -/
theorem eq_image {l l' : NaturalLoop} (header : l'.header = a l.header)
    (latches : l'.latches = blockImage a n l.latches) (body : l'.body = blockImage a n l.body)
    (preheader : l'.preheader = l.preheader.map a)
    (exiting : l'.exiting = blockImage a n l.exiting) : l' = l.image a n := by
  rw [image, ← header, ← latches, ← body, ← preheader, ← exiting]

theorem image_image {l : NaturalLoop} {m : Nat} (hl : l.Below m) (ha : ∀ b, b < m → a b < n) :
    (l.image a n).image a' n' = l.image (a' ∘ a) n' := by
  simp only [image, Option.map_map, Function.comp_apply,
    blockImage_blockImage fun b hb => ha b (hl.body b hb),
    blockImage_blockImage fun b hb => ha b (hl.latches b hb),
    blockImage_blockImage fun b hb => ha b (hl.exiting b hb)]

end NaturalLoop

namespace Function

variable {f g : Function} {c k l r p : BlockId} {m m' : NaturalLoop}

/-- The lists of a loop are in block order. -/
theorem sorted_of_loopAt? (hm : f.loopAt? k = some m) : m.latches.Pairwise (· < ·) ∧
    m.body.Pairwise (· < ·) ∧ m.exiting.Pairwise (· < ·) := by
  have hbody : m.body.Pairwise (· < ·) := by
    rw [(loopAt?_eq_some hm).2.2.2]
    exact List.pairwise_lt_range.filter _
  refine ⟨?_, hbody, ?_⟩
  · rw [(loopAt?_eq_some hm).2.2.1]
    exact (List.pairwise_lt_range.filter _).filter _
  · rw [loopAt?_exiting hm]
    exact hbody.filter _

/-- A loop of a function has blocks of the function. -/
theorem below_of_loopAt? (hm : f.loopAt? k = some m) : m.Below f.blocks.length := by
  have hbody : ∀ b ∈ m.body, b < f.blocks.length := by
    rw [(loopAt?_eq_some hm).2.2.2]
    exact fun b hb => mem_blockIds.mp (List.mem_filter.mp hb).1
  refine ⟨hbody, fun p hp => ?_, fun b hb => ?_⟩
  · exact lt_length_of_mem_successors ((loopAt?_latches hm).mp hp).way
  · rw [loopAt?_exiting hm] at hb
    exact hbody b (List.mem_filter.mp hb).1

namespace Contracts

variable (h : f.Contracts g l r)

include h

/-! ## Latches and bodies -/

/-- The latches of the image are the images of the latches. -/
theorem mem_latches_iff (hk : k ≠ r) :
    e ∈ g.latches (mergedIndex l r k) ↔ ∃ p ∈ f.latches k, mergedIndex l r p = e := by
  have hlatch : ∀ {f : Function} {p k}, p ∈ f.latches k ↔
      p ∈ f.predecessors k ∧ f.Reachable p ∧ f.Dominates k p := by
    intro f p k
    rw [mem_latches, mem_predecessors]
    exact ⟨fun hp => ⟨⟨lt_length_of_mem_successors hp.1, hp.1⟩, hp.2⟩, fun hp => ⟨hp.1.2, hp.2⟩⟩
  simp only [hlatch, h.mem_predecessors_iff hk]
  constructor
  · intro he
    obtain ⟨⟨p, hp, rfl⟩, hreach, hdom⟩ := he
    exact ⟨p, ⟨hp, h.reachable_iff.mp hreach, (h.dominates_iff hk).mp hdom⟩, rfl⟩
  · intro hex
    obtain ⟨p, ⟨hp, hreach, hdom⟩, rfl⟩ := hex
    exact ⟨⟨p, hp, rfl⟩, h.reachable_iff.mpr hreach, (h.dominates_iff hk).mpr hdom⟩

/-- Block `r` heads no loop. -/
theorem loopAt?_right : f.loopAt? r = none := by
  rw [Option.eq_none_iff_forall_ne_some]
  intro m hm
  obtain ⟨p, hp⟩ := List.exists_mem_of_ne_nil _ (loopAt?_eq_some hm).2.1
  obtain ⟨hsucc, ⟨w, hw⟩, hdom⟩ := mem_latches.mp hp
  obtain rfl := h.eq_left hsucc
  exact hw.not_dominates h.pred h.ne_entry h.ne hdom

/-- A block that is appended is no header. -/
theorem header_ne (hm : f.loopAt? k = some m) : k ≠ r := by
  intro heq
  subst heq
  rw [h.loopAt?_right] at hm
  cases hm

/-- The loop that `l` heads holds `r`. -/
theorem right_mem_body_of_header (hm : f.loopAt? l = some m) : r ∈ m.body := by
  obtain ⟨p, hp⟩ := List.exists_mem_of_ne_nil _ (loopAt?_eq_some hm).2.1
  obtain ⟨hsucc, ⟨w, hw⟩, hdom⟩ := mem_latches.mp hp
  have hbody := latch_mem_body hm (lt_length_of_loopAt? hm) hp
  obtain ⟨u, rest, hsplit, hu⟩ := List.eq_append_cons_of_mem (hdom w hw)
  have hhead : (u ++ l :: rest).head? = some p := by rw [← hsplit, List.head?_cons]
  rw [hsplit] at hw
  -- after `l` control comes to `r`, on the way to the latch
  rcases List.eq_nil_or_concat u with rfl | ⟨front, c, rfl⟩
  · cases hhead
    rw [h.succ, List.mem_singleton] at hsucc
    exact absurd hsucc.symm h.ne
  · rw [List.concat_eq_append, List.append_assoc, List.singleton_append] at hw hhead
    have hc := hw.suffix.mem_successors
    rw [h.succ, List.mem_singleton] at hc
    subst hc
    exact mem_body_of_walk hm hw hhead hbody fun hin => hu (by simp [hin])

/-- The two blocks lie in the same loops. -/
theorem mem_body_pair (hm : f.loopAt? k = some m) : r ∈ m.body ↔ l ∈ m.body := by
  have hlt := lt_length_of_loopAt? hm
  constructor
  · intro hr
    obtain ⟨⟨w, hw⟩, _⟩ := dominates_of_mem_body hm r hr
    obtain ⟨x, rfl⟩ := hw.before h.pred h.ne_entry
    exact predecessor_mem_body hm hlt hr (h.header_ne hm).symm (by simp [h.succ])
      ⟨x, hw.suffix (u := [r])⟩
  · intro hl
    rcases (mem_body_iff hm).mp hl with rfl | ⟨hreach, p, hp, haround⟩
    · exact h.right_mem_body_of_header hm
    · have hr : r ∈ f.successors l := by simp [h.succ]
      cases haround with
      | refl _ =>
          -- a latch goes to the header
          have hsucc := ((loopAt?_latches hm).mp hp).way
          rw [h.succ, List.mem_singleton] at hsucc
          exact absurd hsucc (h.header_ne hm)
      | step _ hsucc haround =>
          rw [h.succ, List.mem_singleton] at hsucc
          subst hsucc
          exact (mem_body_iff hm).mpr (Or.inr ⟨hreach.step hr, p, hp, haround⟩)

/-- Blocks that become one block lie in the same loops. -/
theorem mem_body_congr (hm : f.loopAt? k = some m)
    (heq : mergedIndex l r b = mergedIndex l r c) : b ∈ m.body ↔ c ∈ m.body := by
  by_cases hb : b = l
  · by_cases hc : c = l
    · rw [hb, hc]
    · rw [hb] at heq ⊢
      rw [h.eq_right hc heq.symm, h.mem_body_pair hm]
  · by_cases hc : c = l
    · rw [hc] at heq ⊢
      rw [h.eq_right hb heq, h.mem_body_pair hm]
    · rw [h.inj_of_ne_left hb hc heq]

/-- A block of a loop becomes a block of what the loop becomes, and no other block does. -/
theorem mem_body_iff_of_loopAt? (hm : f.loopAt? k = some m)
    (hm' : g.loopAt? (mergedIndex l r k) = some m') :
    mergedIndex l r b ∈ m'.body ↔ b ∈ m.body := by
  have hk := h.header_ne hm
  have hlt := lt_length_of_loopAt? hm
  have hlt' := lt_length_of_loopAt? hm'
  constructor
  · have hsub : ∀ e ∈ m'.body, ∃ b ∈ m.body, mergedIndex l r b = e := by
      rw [(loopAt?_eq_some hm').2.2.2]
      refine loopBody_subset (S := fun e => ∃ b ∈ m.body, mergedIndex l r b = e)
        ⟨k, header_mem_body hm hlt, rfl⟩ (fun e he => ?_) fun e e' hex hne hsucc hreach => ?_
      · obtain ⟨p, hp, rfl⟩ := (h.mem_latches_iff hk).mp he
        exact ⟨p, latch_mem_body hm hlt hp, rfl⟩
      · obtain ⟨c, hc, rfl⟩ := hex
        obtain ⟨s, hs, rfl⟩ := h.exists_ne_left e
        rw [h.successors hs, List.mem_map] at hsucc
        obtain ⟨y, hy, heq⟩ := hsucc
        have hyk : y ≠ k := fun e => hne (heq ▸ congrArg _ e)
        exact ⟨s, predecessor_mem_body hm hlt ((h.mem_body_congr hm heq).mpr hc) hyk hy
          (h.reachable_iff.mp hreach), rfl⟩
    intro he
    obtain ⟨c, hc, heq⟩ := hsub _ he
    exact (h.mem_body_congr hm heq).mp hc
  · rw [(loopAt?_eq_some hm).2.2.2]
    refine loopBody_subset (S := fun b => mergedIndex l r b ∈ m'.body)
      (header_mem_body hm' hlt') (fun p hp => ?_) (fun b c hc hne hsucc hreach => ?_) b
    · exact latch_mem_body hm' hlt' ((h.mem_latches_iff hk).mpr ⟨p, hp, rfl⟩)
    · by_cases hbl : b = l
      · subst hbl
        rw [h.succ, List.mem_singleton] at hsucc
        rwa [hsucc, mergedIndex_right] at hc
      · have hcr : c ≠ r := fun heq => hbl (h.eq_left (heq ▸ hsucc))
        exact predecessor_mem_body hm' hlt' hc (fun heq => hne (mergedIndex_inj hcr hk heq))
          (h.successors hbl ▸ List.mem_map_of_mem hsucc) (h.reachable_iff.mpr hreach)

/-- The body of the image is the image of the body. -/
theorem mem_body_iff_image (hm : f.loopAt? k = some m)
    (hm' : g.loopAt? (mergedIndex l r k) = some m') :
    e ∈ m'.body ↔ ∃ b ∈ m.body, mergedIndex l r b = e := by
  constructor
  · intro he
    obtain ⟨b, _, rfl⟩ := h.exists_ne_left e
    exact ⟨b, (h.mem_body_iff_of_loopAt? hm hm').mp he, rfl⟩
  · intro hex
    obtain ⟨b, hb, rfl⟩ := hex
    exact (h.mem_body_iff_of_loopAt? hm hm').mpr hb

section Loop

variable (hm : f.loopAt? k = some m) (hm' : g.loopAt? (mergedIndex l r k) = some m')

include hm hm'

/-! ## Ways in and out -/

/-- What a loop becomes is left from what it is left from. -/
theorem mem_exiting_iff : e ∈ m'.exiting ↔ ∃ b ∈ m.exiting, mergedIndex l r b = e := by
  have hleaves : ∀ b, b ≠ l → ((∃ y ∈ g.successors (mergedIndex l r b), y ∉ m'.body) ↔
      ∃ y ∈ f.successors b, y ∉ m.body) := by
    intro b hb
    simp [h.successors hb, h.mem_body_iff_of_loopAt? hm hm']
  simp only [loopAt?_exiting hm, loopAt?_exiting hm', List.mem_filter, List.any_eq_true,
    decide_eq_true_eq]
  constructor
  · intro he
    obtain ⟨hbody, hout⟩ := he
    obtain ⟨b, hb, rfl⟩ := h.exists_ne_left e
    exact ⟨b, ⟨(h.mem_body_iff_of_loopAt? hm hm').mp hbody, (hleaves b hb).mp hout⟩, rfl⟩
  · intro hex
    obtain ⟨b, ⟨hbody, hout⟩, rfl⟩ := hex
    have hbl : b ≠ l := by
      intro heq
      subst heq
      obtain ⟨y, hy, hnot⟩ := hout
      rw [h.succ, List.mem_singleton] at hy
      exact hnot (hy ▸ (h.mem_body_pair hm).mpr hbody)
    exact ⟨(h.mem_body_iff_of_loopAt? hm hm').mpr hbody, (hleaves b hbl).mpr hout⟩

/-- The preheader of the image is the image of the preheader. -/
theorem preheader?_image : g.preheader? (mergedIndex l r k) m'.body =
    (f.preheader? k m.body).map (mergedIndex l r) := by
  have hk := h.header_ne hm
  have hsucc : ∀ p ∈ f.predecessors k,
      (g.successors (mergedIndex l r p) = [mergedIndex l r k] ↔ f.successors p = [k]) := by
    intro p hp
    have hpl := h.predecessor_ne hk hp
    rw [h.successors hpl, List.map_eq_singleton_iff]
    constructor
    · intro hex
      obtain ⟨y, hy, heq⟩ := hex
      have hyr : y ≠ r := fun hyr => hpl (h.eq_left (by simp [hy, hyr]))
      rw [hy, mergedIndex_inj hyr hk heq]
    · exact fun hy => ⟨k, hy, rfl⟩
  apply Option.ext
  intro e
  rw [preheader?_eq_some_iff, Option.map_eq_some_iff]
  simp only [preheader?_eq_some_iff, h.mem_predecessors_iff hk]
  constructor
  · intro he
    obtain ⟨⟨p, hp, rfl⟩, hnot, hto, honly⟩ := he
    rw [h.mem_body_iff_of_loopAt? hm hm'] at hnot
    refine ⟨p, ⟨hp, hnot, (hsucc p hp).mp hto, fun b hb hbnot => ?_⟩, rfl⟩
    exact h.predecessor_inj hk hb hp
      (honly _ ⟨b, hb, rfl⟩ fun hin => hbnot ((h.mem_body_iff_of_loopAt? hm hm').mp hin))
  · intro hex
    obtain ⟨p, ⟨hp, hnot, hto, honly⟩, rfl⟩ := hex
    refine ⟨⟨p, hp, rfl⟩, fun hin => hnot ((h.mem_body_iff_of_loopAt? hm hm').mp hin),
      (hsucc p hp).mpr hto, fun e' he' hnot' => ?_⟩
    obtain ⟨b, hb, rfl⟩ := he'
    rw [h.mem_body_iff_of_loopAt? hm hm'] at hnot'
    rw [honly b hb hnot']

end Loop

/-! ## The loops after the merge -/

/-- A header heads what its loop becomes. -/
theorem loopAt?_image (hk : k ≠ r) : g.loopAt? (mergedIndex l r k) =
    (f.loopAt? k).map (·.image (mergedIndex l r) g.blocks.length) := by
  cases hm : f.loopAt? k with
  | none =>
      rw [Option.map_none, Option.eq_none_iff_forall_ne_some]
      intro m' hm'
      obtain ⟨e, he⟩ := List.exists_mem_of_ne_nil _ (loopAt?_eq_some hm').2.1
      obtain ⟨p, hp, _⟩ := (h.mem_latches_iff hk).mp he
      obtain ⟨m, hm''⟩ := exists_loopAt? hp
      rw [hm] at hm''
      cases hm''
  | some m =>
      obtain ⟨p, hp⟩ := List.exists_mem_of_ne_nil _ (loopAt?_eq_some hm).2.1
      obtain ⟨m', hm'⟩ := exists_loopAt? ((h.mem_latches_iff hk).mpr ⟨p, hp, rfl⟩)
      obtain ⟨hlatches, hbody, hexiting⟩ := sorted_of_loopAt? hm'
      have hbelow := below_of_loopAt? hm
      have hlt : ∀ b, b < f.blocks.length → mergedIndex l r b < g.blocks.length :=
        fun b => h.mergedIndex_lt_length.mpr
      rw [hm', Option.map_some, Option.some.injEq]
      refine NaturalLoop.eq_image ?_ (eq_blockImage hlatches (fun e => ?_) fun b hb =>
        hlt b (hbelow.latches b hb)) (eq_blockImage hbody (fun e => ?_) fun b hb =>
        hlt b (hbelow.body b hb)) ?_ (eq_blockImage hexiting (fun e => h.mem_exiting_iff hm hm')
        fun b hb => hlt b (hbelow.exiting b hb))
      · rw [(loopAt?_eq_some hm').1, (loopAt?_eq_some hm).1]
      · rw [(loopAt?_eq_some hm').2.2.1, (loopAt?_eq_some hm).2.2.1, h.mem_latches_iff hk]
      · exact h.mem_body_iff_image hm hm'
      · rw [loopAt?_preheader hm', loopAt?_preheader hm, h.preheader?_image hm hm']

/-- The blocks after the merge are those before it without `r`. -/
theorem blockIds_eq : g.blockIds = (f.blockIds.filter (· ≠ r)).map (mergedIndex l r) := by
  have hsorted : ((f.blockIds.filter (· ≠ r)).map (mergedIndex l r)).Pairwise (· < ·) := by
    rw [List.pairwise_map]
    refine (List.pairwise_lt_range.filter _).imp_of_mem fun {b c} hb hc hlt => ?_
    rw [List.mem_filter, decide_eq_true_eq] at hb hc
    rw [mergedIndex_of_ne hb.2, mergedIndex_of_ne hc.2, shiftPast, shiftPast]
    have hbr := hb.2
    dsimp only [BlockId] at *
    split <;> split <;> omega
  refine List.pairwise_lt_range.eq_of_mem_iff hsorted fun e => ?_
  rw [List.mem_range, h.length]
  simp only [List.mem_map, List.mem_filter, decide_eq_true_eq, mem_blockIds]
  constructor
  · intro he
    obtain ⟨c, hc, rfl⟩ := exists_mergedIndex l r e
    exact ⟨c, ⟨(mergedIndex_lt h.lt_right hc).mp he, hc⟩, rfl⟩
  · intro hex
    obtain ⟨c, ⟨hlt, hc⟩, rfl⟩ := hex
    exact (mergedIndex_lt h.lt_right hc).mpr hlt

/-- The loops after a merge are the images of the loops before. -/
theorem loops_image : g.loopForest.loops =
    f.loopForest.loops.map (·.image (mergedIndex l r) g.blocks.length) := by
  have hright : f.loopForest.loops = (f.blockIds.filter (· ≠ r)).filterMap f.loopAt? := by
    rw [loopForest, List.filterMap_filter]
    refine List.filterMap_congr fun b _ => ?_
    by_cases hb : b = r
    · simp [hb, h.loopAt?_right]
    · simp [hb]
  rw [hright, List.map_filterMap, loopForest, h.blockIds_eq, List.filterMap_map]
  refine List.filterMap_congr fun b hb => ?_
  exact h.loopAt?_image (by simpa using (List.mem_filter.mp hb).2)

/-- A block of a loop becomes a block of the image of the loop, and no other block does. -/
theorem mem_body_image (hm : m ∈ f.loopForest.loops) :
    mergedIndex l r b ∈ (m.image (mergedIndex l r) g.blocks.length).body ↔ b ∈ m.body := by
  have hat := (mem_loops.mp hm).2
  have hat' := h.loopAt?_image (h.header_ne hat)
  rw [hat, Option.map_some] at hat'
  exact h.mem_body_iff_of_loopAt? hat hat'

theorem inside_image (hm : m ∈ f.loopForest.loops) (hm' : m' ∈ f.loopForest.loops)
    (hin : m.Inside m') : (m.image (mergedIndex l r) g.blocks.length).Inside
      (m'.image (mergedIndex l r) g.blocks.length) := by
  obtain ⟨hsub, b, hb, hnot⟩ := hin
  refine ⟨fun e he => ?_, _, (h.mem_body_image hm').mpr hb,
    fun hin => hnot ((h.mem_body_image hm).mp hin)⟩
  obtain ⟨c, _, rfl⟩ := h.exists_ne_left e
  exact (h.mem_body_image hm').mpr (hsub c ((h.mem_body_image hm).mp he))

/-- The innermost loop around what a block becomes is what the innermost loop around it becomes. -/
theorem innermost?_image (b : BlockId) : g.loopForest.innermost? (mergedIndex l r b) =
    (f.loopForest.innermost? b).map (·.image (mergedIndex l r) g.blocks.length) := by
  cases hm : f.loopForest.innermost? b with
  | some m =>
      obtain ⟨hmem, hb, hmin⟩ := innermost?_eq_some_iff.mp hm
      rw [Option.map_some, innermost?_eq_some_iff, h.loops_image]
      refine ⟨List.mem_map_of_mem hmem, (h.mem_body_image hmem).mpr hb, fun e he hbe => ?_⟩
      obtain ⟨m', hm', rfl⟩ := List.mem_map.mp he
      rcases hmin m' hm' ((h.mem_body_image hm').mp hbe) with rfl | hin
      · exact Or.inl rfl
      · exact Or.inr (h.inside_image hmem hm' hin)
  | none =>
      rw [Option.map_none, Option.eq_none_iff_forall_ne_some]
      intro e he
      obtain ⟨hmem, hbe, _⟩ := innermost?_eq_some_iff.mp he
      rw [h.loops_image] at hmem
      obtain ⟨m, hm', rfl⟩ := List.mem_map.mp hmem
      obtain ⟨m', hm''⟩ := LoopForest.exists_innermost? hm' ((h.mem_body_image hm').mp hbe)
      rw [hm] at hm''
      cases hm''

end Contracts

end Function

end Dataflow
