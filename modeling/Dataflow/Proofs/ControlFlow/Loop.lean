import Dataflow.ControlFlow.Loop
import Dataflow.Lowering.Join
import Dataflow.Proofs.ControlFlow.Reach

/-!
# Natural loops and dominance

The header of a loop dominates its blocks (`dominates_of_mem_body`), and the blocks of a loop are
closed under predecessors up to the header (`predecessor_mem_body`). If a header lies in a loop with
another header, all of its own loop does, and that other header does not lie in it. So the innermost
loop around a header is the one it heads (`innermost?_header`), and a phi is carried round a loop
just if an arm comes from a block that its own block dominates (`carrying?_isSome_iff`).
-/

namespace Dataflow

/-- The smallest loop is one of them and no larger than the others. -/
theorem NaturalLoop.smallest?_eq_some {loops : List NaturalLoop} {l : NaturalLoop}
    (h : smallest? loops = some l) :
    l ∈ loops ∧ ∀ m ∈ loops, l.body.length ≤ m.body.length := by
  induction loops generalizing l with
  | nil => cases h
  | cons k rest ih =>
      rw [smallest?] at h
      cases hrest : smallest? rest with
      | none =>
          rw [hrest] at h
          cases h
          cases rest with
          | nil => simp
          | cons k' rest =>
              rw [smallest?] at hrest
              split at hrest
              · cases hrest
              · split at hrest <;> cases hrest
      | some m =>
          obtain ⟨hm, hleast⟩ := ih hrest
          simp only [hrest] at h
          split at h
          · cases h
            refine ⟨List.mem_cons_of_mem _ hm, fun j hj => ?_⟩
            rcases List.mem_cons.mp hj with rfl | hj
            · omega
            · exact hleast j hj
          · cases h
            refine ⟨List.mem_cons_self, fun j hj => ?_⟩
            rcases List.mem_cons.mp hj with rfl | hj
            · exact Nat.le_refl _
            · have hle := hleast j hj
              omega

theorem NaturalLoop.exists_smallest? {loops : List NaturalLoop} {l : NaturalLoop} (h : l ∈ loops) :
    ∃ m, smallest? loops = some m := by
  cases loops with
  | nil => cases h
  | cons k rest =>
      rw [smallest?]
      split
      · exact ⟨k, rfl⟩
      · split <;> exact ⟨_, rfl⟩

/-- A block of a loop has an innermost loop. -/
theorem LoopForest.exists_innermost? {forest : LoopForest} {l : NaturalLoop} {b : BlockId}
    (hl : l ∈ forest.loops) (hb : b ∈ l.body) : ∃ m, forest.innermost? b = some m :=
  NaturalLoop.exists_smallest? (l := l) (by simpa using ⟨hl, hb⟩)

/-- The blocks of `l` are blocks of `m`, but not all of them. -/
def NaturalLoop.Inside (l m : NaturalLoop) : Prop :=
  (∀ b ∈ l.body, b ∈ m.body) ∧ ∃ b ∈ m.body, b ∉ l.body

/-- A loop inside another one has fewer blocks. -/
theorem NaturalLoop.Inside.length_lt {l m : NaturalLoop} (hin : l.Inside m)
    (hnodup : l.body.Nodup) : l.body.length < m.body.length := by
  obtain ⟨hsub, b, hb, hnot⟩ := hin
  have hcons : b :: l.body ⊆ m.body := by
    intro c hc
    rcases List.mem_cons.mp hc with rfl | hc
    · exact hb
    · exact hsub c hc
  exact List.Nodup.length_le_of_subset (List.nodup_cons.mpr ⟨hnot, hnodup⟩) hcons

namespace Function

variable {f : Function} {b c h p : BlockId} {l m : NaturalLoop} {arms : List Arm}

/-- A latch is a predecessor of the header that the header dominates. -/
theorem mem_latches : p ∈ f.latches h ↔
    h ∈ f.successors p ∧ f.Reachable p ∧ f.Dominates h p := by
  rw [latches, List.mem_filter, decide_eq_true_eq, mem_dominated, mem_predecessors]
  constructor
  · intro hex
    exact ⟨hex.1.2, hex.2.2⟩
  · intro hex
    have hlt := lt_length_of_mem_successors hex.1
    exact ⟨⟨hlt, hex.1⟩, hlt, hex.2⟩

/-- What the loop with header `h` is made of. -/
theorem loopAt?_eq_some (hl : f.loopAt? h = some l) : l.header = h ∧ f.latches h ≠ [] ∧
    l.latches = f.latches h ∧ l.body = f.loopBody h (f.latches h) := by
  unfold loopAt? at hl
  split at hl
  · cases hl
  · rename_i hne
    cases hl
    exact ⟨rfl, hne, rfl, rfl⟩

theorem exists_loopAt? (hp : p ∈ f.latches h) : ∃ l, f.loopAt? h = some l := by
  unfold loopAt?
  split
  · rename_i hnil
    rw [hnil] at hp
    cases hp
  · exact ⟨_, rfl⟩

theorem mem_loops : l ∈ f.loopForest.loops ↔
    l.header < f.blocks.length ∧ f.loopAt? l.header = some l := by
  simp only [loopForest, List.mem_filterMap, mem_blockIds]
  constructor
  · intro hex
    obtain ⟨h, hlt, hl⟩ := hex
    obtain ⟨rfl, _⟩ := loopAt?_eq_some hl
    exact ⟨hlt, hl⟩
  · intro hex
    exact ⟨l.header, hex⟩

/-! ## Bodies -/

theorem loopBody_nodup (h : BlockId) (latches : List BlockId) : (f.loopBody h latches).Nodup :=
  List.nodup_range.filter _

theorem nodup_body (hl : f.loopAt? h = some l) : l.body.Nodup := by
  rw [(loopAt?_eq_some hl).2.2.2]
  exact loopBody_nodup _ _

/-- The ways that the body of a loop is searched along, from a block back to the reachable ones
before it. -/
theorem mem_into_reachable : b ∈ Ways.into (f.ways.filter (·.1 ∈ f.reachable)) c ↔
    c ∈ f.successors b ∧ f.Reachable b := by
  have hways : b ∈ f.ways.into c ↔ b < f.blocks.length ∧ c ∈ f.successors b := by
    rw [into_ways, mem_predecessors]
  simp only [Ways.into, List.mem_map, List.mem_filter, decide_eq_true_eq, Prod.exists,
    mem_reachable] at hways ⊢
  constructor
  · intro hex
    obtain ⟨b', c', ⟨⟨hmem, hlt, hreach⟩, rfl⟩, rfl⟩ := hex
    exact ⟨(hways.mp ⟨b', c', ⟨hmem, rfl⟩, rfl⟩).2, hreach⟩
  · intro hex
    have hlt := lt_length_of_mem_successors hex.1
    obtain ⟨b', c', ⟨hmem, rfl⟩, rfl⟩ := hways.mpr ⟨hlt, hex.1⟩
    exact ⟨b', c', ⟨⟨hmem, hlt, hex.2⟩, rfl⟩, rfl⟩

/-- The body of a loop lies in each set that holds the header and the latches and is closed under
reachable predecessors, those of the header apart. -/
theorem loopBody_subset {S : BlockId → Prop} {latches : List BlockId} (hheader : S h)
    (hlatches : ∀ b ∈ latches, S b)
    (hnext : ∀ b c, S c → c ≠ h → c ∈ f.successors b → f.Reachable b → S b) :
    ∀ b ∈ f.loopBody h latches, S b := by
  intro b hb
  simp only [loopBody, List.mem_filter, decide_eq_true_eq] at hb
  refine explore_subset (S := S) (by simpa using hheader) hlatches (fun c hc hne b hb => ?_) b hb.2
  obtain ⟨hsucc, hreach⟩ := mem_into_reachable.mp hb
  exact hnext b c hc (by simpa using hne) hsucc hreach

/-- The body of a loop holds the header and the latches and is closed under reachable predecessors,
those of the header apart. -/
theorem loopBody_closed {latches : List BlockId} (hlt : h < f.blocks.length)
    (hlatches : ∀ b ∈ latches, b < f.blocks.length) :
    h ∈ f.loopBody h latches ∧ (∀ b ∈ latches, b ∈ f.loopBody h latches) ∧
      ∀ b c, c ∈ f.loopBody h latches → c ≠ h → c ∈ f.successors b → f.Reachable b →
        b ∈ f.loopBody h latches := by
  have hway : ∀ c, ∀ b ∈ Ways.into (f.ways.filter (·.1 ∈ f.reachable)) c, b < f.blocks.length :=
    fun c b hb => lt_length_of_mem_successors (mem_into_reachable.mp hb).1
  simp only [loopBody, List.mem_filter, mem_blockIds, decide_eq_true_eq]
  generalize hfound : explore _ f.blocks.length latches [h] = found
  obtain ⟨hwork, hclosed⟩ := explore_closed (List.nodup_singleton h) (by simpa using hlt) hlatches
    hway (Nat.le_add_right f.blocks.length _)
  rw [hfound] at hwork hclosed
  refine ⟨⟨hlt, hfound ▸ seen_subset_explore List.mem_cons_self⟩,
    fun b hb => ⟨hlatches b hb, hwork b hb⟩,
    fun b c hc hne hsucc hreach => ⟨lt_length_of_mem_successors hsucc, ?_⟩⟩
  exact hclosed c hc.2 (by simpa using hne) b (mem_into_reachable.mpr ⟨hsucc, hreach⟩)

/-! ## Headers dominate -/

/-- Control gets to every block of a loop, and only past the header. -/
theorem dominates_of_mem_body (hl : f.loopAt? h = some l) :
    ∀ b ∈ l.body, f.Reachable b ∧ f.Dominates h b := by
  obtain ⟨_, hne, _, hbody⟩ := loopAt?_eq_some hl
  obtain ⟨p, hp⟩ := List.exists_mem_of_ne_nil _ hne
  obtain ⟨_, ⟨w, hw⟩, hdom⟩ := mem_latches.mp hp
  obtain ⟨x, hx, _⟩ := hw.of_mem (hdom w hw)
  rw [hbody]
  refine loopBody_subset (S := fun b => f.Reachable b ∧ f.Dominates h b)
    ⟨⟨x, hx⟩, dominates_self⟩ (fun q hq => (mem_latches.mp hq).2) ?_
  intro b c hc hch hsucc hreach
  exact ⟨hreach, hc.2.predecessor (Ne.symm hch) hsucc⟩

theorem header_mem_body (hl : f.loopAt? h = some l) (hlt : h < f.blocks.length) : h ∈ l.body := by
  rw [(loopAt?_eq_some hl).2.2.2]
  exact (loopBody_closed hlt fun q hq => lt_length_of_mem_successors (mem_latches.mp hq).1).1

/-- A predecessor of a block of a loop is in the loop, if the block is not the header. -/
theorem predecessor_mem_body (hl : f.loopAt? h = some l) (hlt : h < f.blocks.length)
    (hc : c ∈ l.body) (hne : c ≠ h) (hsucc : c ∈ f.successors b) (hreach : f.Reachable b) :
    b ∈ l.body := by
  rw [(loopAt?_eq_some hl).2.2.2] at hc ⊢
  exact (loopBody_closed hlt fun q hq => lt_length_of_mem_successors (mem_latches.mp hq).1).2.2
    b c hc hne hsucc hreach

theorem latch_mem_body (hl : f.loopAt? h = some l) (hlt : h < f.blocks.length)
    (hp : p ∈ f.latches h) : p ∈ l.body := by
  rw [(loopAt?_eq_some hl).2.2.2]
  exact (loopBody_closed hlt fun q hq => lt_length_of_mem_successors (mem_latches.mp hq).1).2.1 p hp

/-! ## Loops around a header -/

section Nested

variable (hl : f.loopAt? h = some l) (hm : f.loopAt? c = some m) (hlt : c < f.blocks.length)
  (hne : h ≠ c) (hmem : h ∈ m.body)

include hl hm hlt hne hmem

/-- If a header lies in a loop with another header, its whole loop does. -/
theorem body_subset_of_header_mem : ∀ b ∈ l.body, b ∈ m.body := by
  -- a block that `h` dominates is not `c`, as `c` dominates `h`
  have hother : ∀ b, f.Dominates h b → b ≠ c := by
    intro b hdom heq
    subst heq
    obtain ⟨hreach, hback⟩ := dominates_of_mem_body hm h hmem
    exact hne (hback.antisymm hdom hreach)
  rw [(loopAt?_eq_some hl).2.2.2]
  suffices hboth : ∀ b ∈ f.loopBody h (f.latches h), b ∈ m.body ∧ f.Dominates h b from
    fun b hb => (hboth b hb).1
  refine loopBody_subset (S := fun b => b ∈ m.body ∧ f.Dominates h b) ⟨hmem, dominates_self⟩
    (fun q hq => ?_) fun b d hd hdh hsucc hreach => ?_
  · obtain ⟨hsucc, hreach, hdom⟩ := mem_latches.mp hq
    exact ⟨predecessor_mem_body hm hlt hmem hne hsucc hreach, hdom⟩
  · exact ⟨predecessor_mem_body hm hlt hd.1 (hother d hd.2) hsucc hreach,
      hd.2.predecessor (Ne.symm hdh) hsucc⟩

/-- The loop of a header that lies in a loop with another header lies inside that one. -/
theorem inside_of_header_mem : l.Inside m := by
  refine ⟨body_subset_of_header_mem hl hm hlt hne hmem, c, header_mem_body hm hlt, fun hc => ?_⟩
  obtain ⟨_, hdom⟩ := dominates_of_mem_body hl c hc
  obtain ⟨hreach, hback⟩ := dominates_of_mem_body hm h hmem
  exact hne (hback.antisymm hdom hreach)

end Nested

/-- The innermost loop around the header of a loop is that loop. -/
theorem innermost?_header (hl : f.loopAt? h = some l) (hlt : h < f.blocks.length) :
    f.loopForest.innermost? h = some l := by
  have hheader := (loopAt?_eq_some hl).1
  have hmem : l ∈ f.loopForest.loops.filter (h ∈ ·.body) := by
    rw [List.mem_filter, mem_loops, hheader]
    exact ⟨⟨hlt, hl⟩, by simpa using header_mem_body hl hlt⟩
  obtain ⟨m, hm⟩ := NaturalLoop.exists_smallest? hmem
  obtain ⟨hin, hleast⟩ := NaturalLoop.smallest?_eq_some hm
  rw [List.mem_filter, mem_loops, decide_eq_true_eq] at hin
  obtain ⟨⟨hmlt, hmat⟩, hhm⟩ := hin
  have heq : h = m.header := by
    by_contra hne
    have hlonger := (inside_of_header_mem hl hmat hmlt hne hhm).length_lt (nodup_body hl)
    exact absurd (hleast l hmem) (Nat.not_le.mpr hlonger)
  rw [← heq, hl] at hmat
  exact hm.trans hmat.symm

/-- A phi whose arms name predecessors is carried round a loop just if an arm comes from a block
that control can get to, and only past the block of the phi. -/
theorem carrying?_isSome_iff (harms : ∀ arm ∈ arms, arm.source ∈ f.predecessors b) :
    (∃ l, f.loopForest.carrying? b arms = some l) ↔
      ∃ arm ∈ arms, f.Reachable arm.source ∧ f.Dominates b arm.source := by
  simp only [LoopForest.carrying?, Option.filter_eq_some_iff, decide_eq_true_eq, List.any_eq_true]
  constructor
  · intro hex
    obtain ⟨l, hl, rfl, arm, harm, hsource⟩ := hex
    have hin := (NaturalLoop.smallest?_eq_some hl).1
    rw [List.mem_filter, mem_loops] at hin
    exact ⟨arm, harm, dominates_of_mem_body hin.1.2 _ hsource⟩
  · intro hex
    obtain ⟨arm, harm, hreach, hdom⟩ := hex
    have hsucc := (mem_predecessors.mp (harms arm harm)).2
    have hlatch := mem_latches.mpr ⟨hsucc, hreach, hdom⟩
    obtain ⟨l, hl⟩ := exists_loopAt? hlatch
    obtain ⟨w, hw⟩ := hreach
    have hlt := hw.lt_length (lt_length_of_mem_successors hsucc) b (hdom w hw)
    exact ⟨l, innermost?_header hl hlt, (loopAt?_eq_some hl).1, arm, harm,
      latch_mem_body hl hlt hlatch⟩

end Function

end Dataflow
