import Dataflow.Proofs.ControlFlow.Loop
import Mathlib.Data.List.Sort

/-!
# What the loops of a function are

`natural_loopForest` tells the loops by walks: there is one loop for each block that a back edge
leads to, its latches are the sources of these edges, its body holds the header and the reachable
blocks from which control can get to a latch around the header, and control comes into the body only
by the header (`NaturalLoop.IsNatural`).
-/

namespace Dataflow

namespace Function

/-- A way from `p` back to `h`: control can get to `p`, and only past `h`. -/
structure BackEdge (f : Function) (p h : BlockId) : Prop where
  way : h ∈ f.successors p
  reachable : f.Reachable p
  dominates : f.Dominates h p

/-- Control can go from `b` to `c` and passes only blocks other than `h`, `b` and `c` among them. -/
inductive LeadsAround (f : Function) (h c : BlockId) : BlockId → Prop where
  | refl : c ≠ h → LeadsAround f h c c
  | step {b b'} : b ≠ h → b' ∈ f.successors b → LeadsAround f h c b' → LeadsAround f h c b

end Function

/-- A loop is what its name says: it is told by the back edges into its header, and control comes
into it only by the header. -/
structure NaturalLoop.IsNatural (f : Function) (l : NaturalLoop) : Prop where
  /-- The latches are the sources of the back edges into the header. -/
  latch : ∀ {p}, p ∈ l.latches ↔ f.BackEdge p l.header
  /-- A latch is listed once. -/
  latches_nodup : l.latches.Nodup
  /-- The body is the header, and each reachable block from which control can get to a latch around
  the header. -/
  block : ∀ {b}, b ∈ l.body ↔
    b = l.header ∨ f.Reachable b ∧ ∃ p ∈ l.latches, f.LeadsAround l.header p b
  /-- A block of the body is listed once. -/
  body_nodup : l.body.Nodup
  /-- Control gets to the body only past the header. -/
  dominates : ∀ {b}, b ∈ l.body → f.Dominates l.header b
  /-- Of the predecessors of the header the latches lie in the body. -/
  predecessor : ∀ {p}, p ∈ f.predecessors l.header → (p ∈ l.body ↔ p ∈ l.latches)
  /-- A step of control from outside comes to the header. -/
  entry : ∀ {b c w}, f.Walk (c :: b :: w) → b ∉ l.body → c ∈ l.body → c = l.header
  /-- If there is a preheader, it lies outside, and a step of control from outside leaves it. -/
  preheader : ∀ {p}, l.preheader = some p → p ∉ l.body ∧
    ∀ {b c w}, f.Walk (c :: b :: w) → b ∉ l.body → c ∈ l.body → b = p ∧ c = l.header

namespace Function

variable {f : Function} {b c h p : BlockId} {w : List BlockId} {l : NaturalLoop}

theorem mem_latches_iff_backEdge : p ∈ f.latches h ↔ f.BackEdge p h := by
  rw [mem_latches]
  exact ⟨fun hex => ⟨hex.1, hex.2.1, hex.2.2⟩, fun hp => ⟨hp.way, hp.reachable, hp.dominates⟩⟩

/-- A back edge leads to a block. -/
theorem BackEdge.lt_length (hp : f.BackEdge p h) : h < f.blocks.length := by
  obtain ⟨w, hw⟩ := hp.reachable
  exact hw.lt_length (lt_length_of_mem_successors hp.way) h (hp.dominates w hw)

theorem Reachable.step (hb : f.Reachable b) (hc : c ∈ f.successors b) : f.Reachable c := by
  obtain ⟨w, hw⟩ := hb
  exact ⟨b :: w, hw.step hc⟩

/-- A walk goes along a way of the function. -/
theorem Walk.mem_successors (hw : f.Walk (c :: b :: w)) : c ∈ f.successors b := by
  cases hw with
  | step _ hsucc => exact hsucc

theorem LeadsAround.ne (hb : f.LeadsAround h c b) : b ≠ h := by
  cases hb with
  | refl hne | step hne => exact hne

theorem latches_nodup (f : Function) (h : BlockId) : (f.latches h).Nodup :=
  (List.nodup_range.filter _).filter _

theorem loopAt?_preheader (hl : f.loopAt? h = some l) : l.preheader = f.preheader? h l.body := by
  unfold loopAt? at hl
  split at hl
  · cases hl
  · cases hl
    rfl

/-- The blocks that a loop can be left from are those of the body with a way out of it. -/
theorem loopAt?_exiting (hl : f.loopAt? h = some l) :
    l.exiting = l.body.filter fun b => (f.successors b).any (· ∉ l.body) := by
  unfold loopAt? at hl
  split at hl
  · cases hl
  · cases hl
    rfl

/-- A preheader is the only predecessor of the header outside the body, and control goes from there
only to the header. -/
theorem preheader?_eq_some_iff {body : List BlockId} : f.preheader? h body = some p ↔
    p ∈ f.predecessors h ∧ p ∉ body ∧ f.successors p = [h] ∧
      ∀ b ∈ f.predecessors h, b ∉ body → b = p := by
  have hsorted : ((f.predecessors h).filter (· ∉ body)).Pairwise (· < ·) :=
    (List.pairwise_lt_range.filter _).filter _
  unfold preheader?
  constructor
  · intro hp
    split at hp
    · rename_i q houtside
      have hmem : ∀ b, b ∈ (f.predecessors h).filter (· ∉ body) ↔ b = q := by
        intro b
        rw [houtside, List.mem_singleton]
      simp only [List.mem_filter, decide_eq_true_eq] at hmem
      split at hp
      · rename_i hsucc
        cases hp
        obtain ⟨hpred, hnot⟩ := (hmem p).mpr rfl
        exact ⟨hpred, hnot, hsucc, fun b hb hnot => (hmem b).mp ⟨hb, hnot⟩⟩
      · cases hp
    · cases hp
  · intro hp
    obtain ⟨hpred, hnot, hsucc, honly⟩ := hp
    have houtside : (f.predecessors h).filter (· ∉ body) = [p] := by
      refine hsorted.eq_of_mem_iff (List.pairwise_singleton _ p) fun b => ?_
      rw [List.mem_filter, decide_eq_true_eq, List.mem_singleton]
      exact ⟨fun hb => honly b hb.1 hb.2, fun hb => hb ▸ ⟨hpred, hnot⟩⟩
    rw [houtside]
    exact if_pos hsucc

section Loop

variable (hl : f.loopAt? h = some l)

include hl

theorem loopAt?_latches : p ∈ l.latches ↔ f.BackEdge p h := by
  rw [(loopAt?_eq_some hl).2.2.1, mem_latches_iff_backEdge]

theorem lt_length_of_loopAt? : h < f.blocks.length := by
  obtain ⟨p, hp⟩ := List.exists_mem_of_ne_nil _ (loopAt?_eq_some hl).2.1
  exact (mem_latches_iff_backEdge.mp hp).lt_length

/-- The blocks of a loop are the header and those from which control can come round to it. -/
theorem mem_body_iff : b ∈ l.body ↔
    b = h ∨ f.Reachable b ∧ ∃ p ∈ l.latches, f.LeadsAround h p b := by
  have hlt := lt_length_of_loopAt? hl
  obtain ⟨-, -, hlatches, hbody⟩ := loopAt?_eq_some hl
  constructor
  · rw [hbody]
    refine loopBody_subset (S := fun b => b = h ∨ f.Reachable b ∧ ∃ p ∈ l.latches,
      f.LeadsAround h p b) (Or.inl rfl) (fun p hp => ?_) (fun b c hc hne hsucc hreach => ?_) b
    · by_cases hph : p = h
      · exact Or.inl hph
      · exact Or.inr ⟨(mem_latches_iff_backEdge.mp hp).reachable, p, hlatches ▸ hp, .refl hph⟩
    · by_cases hbh : b = h
      · exact Or.inl hbh
      · obtain ⟨_, p, hp, haround⟩ := hc.resolve_left hne
        exact Or.inr ⟨hreach, p, hp, .step hbh hsucc haround⟩
  · intro hex
    rcases hex with rfl | ⟨hreach, p, hp, haround⟩
    · exact header_mem_body hl hlt
    · -- back along the way from the latch
      induction haround with
      | refl => exact latch_mem_body hl hlt (hlatches ▸ hp)
      | step hne hsucc haround ih =>
          exact predecessor_mem_body hl hlt (ih (hreach.step hsucc)) haround.ne hsucc hreach

/-- Control comes into a loop only by the header. -/
theorem eq_header_of_enters (hw : f.Walk (c :: b :: w)) (hb : b ∉ l.body) (hc : c ∈ l.body) :
    c = h := by
  by_contra hne
  cases hw with
  | step hw hsucc =>
      exact hb (predecessor_mem_body hl (lt_length_of_loopAt? hl) hc hne hsucc ⟨w, hw⟩)

theorem mem_body_iff_of_predecessor (hp : p ∈ f.predecessors h) : p ∈ l.body ↔ p ∈ l.latches := by
  constructor
  · intro hbody
    obtain ⟨hreach, hdom⟩ := dominates_of_mem_body hl p hbody
    exact (loopAt?_latches hl).mpr ⟨(mem_predecessors.mp hp).2, hreach, hdom⟩
  · intro hlatch
    rw [(loopAt?_eq_some hl).2.2.1] at hlatch
    exact latch_mem_body hl (lt_length_of_loopAt? hl) hlatch

theorem isNatural_of_loopAt? : l.IsNatural f := by
  obtain ⟨rfl, -, hlatches, -⟩ := loopAt?_eq_some hl
  refine ⟨loopAt?_latches hl, hlatches ▸ latches_nodup f l.header, mem_body_iff hl,
    nodup_body hl, fun hb => (dominates_of_mem_body hl _ hb).2,
    mem_body_iff_of_predecessor hl, eq_header_of_enters hl, fun {p} hp => ?_⟩
  rw [loopAt?_preheader hl] at hp
  obtain ⟨_, hnot, _, honly⟩ := preheader?_eq_some_iff.mp hp
  refine ⟨hnot, fun {b c w} hw hb hc => ?_⟩
  obtain rfl := eq_header_of_enters hl hw hb hc
  exact ⟨honly b (mem_predecessors_of_mem_successors hw.mem_successors) hb, rfl⟩

end Loop

/-- There is a loop for the blocks that back edges lead to. -/
theorem mem_headers : h ∈ f.loopForest.loops.map (·.header) ↔ ∃ p, f.BackEdge p h := by
  rw [List.mem_map]
  constructor
  · intro hex
    obtain ⟨l, hl, rfl⟩ := hex
    obtain ⟨p, hp⟩ := List.exists_mem_of_ne_nil _ (loopAt?_eq_some (mem_loops.mp hl).2).2.1
    exact ⟨p, mem_latches_iff_backEdge.mp hp⟩
  · intro hex
    obtain ⟨p, hp⟩ := hex
    obtain ⟨l, hl⟩ := exists_loopAt? (mem_latches_iff_backEdge.mpr hp)
    obtain ⟨rfl, _⟩ := loopAt?_eq_some hl
    exact ⟨l, mem_loops.mpr ⟨hp.lt_length, hl⟩, rfl⟩

/-- Loops have different headers. -/
theorem headers_nodup (f : Function) : (f.loopForest.loops.map (·.header)).Nodup := by
  have hheader : ∀ h, (f.loopAt? h).map (·.header) =
      if (f.loopAt? h).isSome then some h else none := by
    intro h
    cases hl : f.loopAt? h with
    | none => rfl
    | some l => simp [(loopAt?_eq_some hl).1]
  simp only [loopForest, List.map_filterMap, hheader]
  refine List.Nodup.filterMap (fun a a' b hb hb' => ?_) List.nodup_range
  split at hb <;> split at hb' <;> simp_all

/-- The loops of a function are the natural loops, one for each block that a back edge leads to. -/
theorem natural_loopForest (f : Function) : (f.loopForest.loops.map (·.header)).Nodup ∧
    (∀ h, h ∈ f.loopForest.loops.map (·.header) ↔ ∃ p, f.BackEdge p h) ∧
    ∀ l ∈ f.loopForest.loops, l.IsNatural f :=
  ⟨f.headers_nodup, fun _ => mem_headers, fun _ hl => isNatural_of_loopAt? (mem_loops.mp hl).2⟩

/-- A function with a loop of three blocks, one of which goes round by itself. -/
def nestedRounds : Function where
  name := "f"
  ret := .void
  params := [⟨"c", .int 1⟩, ⟨"d", .int 1⟩]
  blocks := [⟨"entry", [0]⟩, ⟨"outer", [1]⟩, ⟨"inner", [2]⟩, ⟨"latch", [3]⟩, ⟨"exit", [4]⟩]
  slots := [
    ⟨none, .jump 1, 0⟩,
    ⟨none, .branch (.param 0) 2 4, 1⟩,
    ⟨none, .branch (.param 1) 2 3, 2⟩,
    ⟨none, .jump 1, 3⟩,
    ⟨none, .ret none, 4⟩]

/-- Back edges lead to both headers, and the two loops are natural. -/
theorem natural_loopForest_nestedRounds :
    nestedRounds.loopForest.loops.map (·.header) = [1, 2] ∧
      (∃ p, nestedRounds.BackEdge p 1) ∧ (∃ p, nestedRounds.BackEdge p 2) ∧
      ∀ l ∈ nestedRounds.loopForest.loops, l.IsNatural nestedRounds := by
  obtain ⟨_, hheaders, hnatural⟩ := natural_loopForest nestedRounds
  exact ⟨by decide +kernel, (hheaders 1).mp (by decide +kernel),
    (hheaders 2).mp (by decide +kernel), hnatural⟩

end Function

end Dataflow
