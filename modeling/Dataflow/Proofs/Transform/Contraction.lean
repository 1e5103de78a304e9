import Dataflow.Proofs.ControlFlow.Reach
import Dataflow.Proofs.Transform.Merge

/-!
# Two blocks in one

`Function.Contracts` says that the ways of a function `g` are those of `f` with blocks `l` and `r`
in one, where control goes from `l` only to `r` and comes to `r` only from `l`. Walks go over in
both directions (`Contracts.lower_walk`, `Contracts.lift_walk_to`), so control gets to the same
blocks (`Contracts.reachable_iff`) and a block other than `r` dominates what it did
(`Contracts.dominates_iff`).
-/

namespace Dataflow.Function

variable {f g : Function} {b c d l r s s' : BlockId} {w x : List BlockId}

/-- Control comes to a block with one predecessor only from there. -/
theorem eq_of_predecessors_eq (hpred : f.predecessors r = [l]) (hc : r ∈ f.successors c) :
    c = l := by
  have hmem := mem_predecessors_of_mem_successors hc
  rwa [hpred, List.mem_singleton] at hmem

/-- The ways of `g` are those of `f` with blocks `l` and `r` in one. -/
structure Contracts (f g : Function) (l r : BlockId) : Prop where
  ne : r ≠ l
  ne_entry : r ≠ 0
  /-- Control comes to `r` only from `l`. -/
  pred : f.predecessors r = [l]
  /-- Control goes from `l` only to `r`. -/
  succ : f.successors l = [r]
  target : ∀ {b c}, c ∈ f.successors b → c < f.blocks.length
  length : g.blocks.length = f.blocks.length - 1
  /-- Where control goes from there. -/
  successors : ∀ {c}, c ≠ l →
    g.successors (mergedIndex l r c) = (f.successors c).map (mergedIndex l r)

namespace Contracts

variable (h : f.Contracts g l r)

include h

/-! ## Numbers of blocks -/

theorem lt_right : r < f.blocks.length := h.target (b := l) (by simp [h.succ])

theorem lt_left : l < f.blocks.length := lt_length_of_mem_successors (c := r) (by simp [h.succ])

/-- What becomes a block of the function is a block of the function. -/
theorem mergedIndex_lt_length : mergedIndex l r b < g.blocks.length ↔ b < f.blocks.length := by
  rw [h.length]
  by_cases hbr : b = r
  · rw [hbr, mergedIndex_right, mergedIndex_lt h.lt_right h.ne.symm]
    exact iff_of_true h.lt_left h.lt_right
  · exact mergedIndex_lt h.lt_right hbr

/-- Control comes to the appended block only from the other one. -/
theorem eq_left (hc : r ∈ f.successors c) : c = l := eq_of_predecessors_eq h.pred hc

/-- Apart from `l` only `r` has the number of `l`. -/
theorem eq_right (hc : c ≠ l) (heq : mergedIndex l r c = mergedIndex l r l) : c = r := by
  by_contra hne
  exact hc (mergedIndex_inj hne h.ne.symm heq)

/-- Every number is that of a block, `r` standing for `l`. -/
theorem exists_ne_left (e : BlockId) : ∃ c, c ≠ l ∧ mergedIndex l r c = e := by
  obtain ⟨c, _, rfl⟩ := exists_mergedIndex l r e
  by_cases hcl : c = l
  · exact ⟨r, h.ne, by rw [hcl, mergedIndex_right]⟩
  · exact ⟨c, hcl, rfl⟩

/-- Blocks other than `l` keep apart. -/
theorem inj_of_ne_left (hb : b ≠ l) (hc : c ≠ l) (heq : mergedIndex l r b = mergedIndex l r c) :
    b = c := by
  by_cases hbr : b = r
  · subst hbr
    rw [mergedIndex_right] at heq
    exact (h.eq_right hc heq.symm).symm
  · by_cases hcr : c = r
    · subst hcr
      rw [mergedIndex_right] at heq
      exact h.eq_right hb heq
    · exact mergedIndex_inj hbr hcr heq

/-! ## Predecessors -/

/-- No predecessor of a block that stays is `l`. -/
theorem predecessor_ne (hc : c ≠ r) (hs : s ∈ f.predecessors c) : s ≠ l := by
  intro heq
  subst heq
  have hsucc := (mem_predecessors.mp hs).2
  rw [h.succ, List.mem_singleton] at hsucc
  exact hc hsucc

/-- The predecessors of a block that stays keep apart. -/
theorem predecessor_inj (hc : c ≠ r) (hs : s ∈ f.predecessors c) (hs' : s' ∈ f.predecessors c)
    (heq : mergedIndex l r s = mergedIndex l r s') : s = s' :=
  h.inj_of_ne_left (h.predecessor_ne hc hs) (h.predecessor_ne hc hs') heq

/-- The predecessors of a block that stays are the blocks that its predecessors became. -/
theorem mem_predecessors_iff {e : BlockId} (hc : c ≠ r) :
    e ∈ g.predecessors (mergedIndex l r c) ↔ ∃ s ∈ f.predecessors c, mergedIndex l r s = e := by
  constructor
  · intro he
    rw [mem_predecessors] at he
    obtain ⟨s, hs, rfl⟩ := h.exists_ne_left e
    rw [h.successors hs, List.mem_map] at he
    obtain ⟨_, y, hy, hyc⟩ := he
    have hyr : y ≠ r := by
      intro heq
      subst heq
      exact hs (h.eq_left hy)
    rw [mergedIndex_inj hyr hc hyc] at hy
    exact ⟨s, mem_predecessors_of_mem_successors hy, rfl⟩
  · intro hex
    obtain ⟨s, hs, rfl⟩ := hex
    refine mem_predecessors_of_mem_successors ?_
    rw [h.successors (h.predecessor_ne hc hs)]
    exact List.mem_map_of_mem (mem_predecessors.mp hs).2

/-! ## Walks -/

/-- A walk to `l` goes on to `r`. -/
theorem extend_walk (hs : f.Walk (s :: x)) (hw : ∀ b ∈ s :: x, mergedIndex l r b ∈ w) :
    ∃ c y, f.Walk (c :: y) ∧ c ≠ l ∧ mergedIndex l r c = mergedIndex l r s ∧
      ∀ b ∈ c :: y, mergedIndex l r b ∈ w := by
  by_cases hsl : s = l
  · subst hsl
    refine ⟨r, s :: x, .step hs (by simp [h.succ]), h.ne, mergedIndex_right, ?_⟩
    intro b hb
    rcases List.mem_cons.mp hb with rfl | hb
    · rw [mergedIndex_right]
      exact hw s List.mem_cons_self
    · exact hw b hb
  · exact ⟨s, x, hs, hsl, rfl, hw⟩

/-- Every walk after the merge comes from one before that passes `r` wherever it passes `l`. -/
theorem lift_walk (hw : g.Walk w) :
    ∃ c x, f.Walk (c :: x) ∧ c ≠ l ∧ w.head? = some (mergedIndex l r c) ∧
      ∀ b ∈ c :: x, mergedIndex l r b ∈ w := by
  induction hw with
  | start =>
      have hzero := mergedIndex_zero (l := l) h.ne_entry
      obtain ⟨c, x, hx, hcl, hc, hmem⟩ :=
        h.extend_walk (x := []) (w := [0]) .start (by simp [hzero])
      exact ⟨c, x, hx, hcl, by rw [hc, hzero, List.head?_cons], hmem⟩
  | @step e e' w _ he' ih =>
      obtain ⟨c, x, hx, hcl, hhead, hmem⟩ := ih
      rw [List.head?_cons, Option.some.injEq] at hhead
      subst hhead
      rw [h.successors hcl, List.mem_map] at he'
      obtain ⟨s, hs, rfl⟩ := he'
      obtain ⟨c', y, hy, hcl', hc', hmem'⟩ := h.extend_walk (w := mergedIndex l r s ::
        mergedIndex l r c :: w) (.step hx hs) fun b hb => by
          rcases List.mem_cons.mp hb with rfl | hb
          · exact List.mem_cons_self
          · exact List.mem_cons_of_mem _ (hmem b hb)
      exact ⟨c', y, hy, hcl', by rw [hc', List.head?_cons], hmem'⟩

/-- A walk to where a block has gone comes from a walk to that block. -/
theorem lift_walk_to (hw : g.Walk (mergedIndex l r c :: w)) :
    ∃ x, f.Walk (c :: x) ∧ ∀ b ∈ c :: x, mergedIndex l r b ∈ mergedIndex l r c :: w := by
  obtain ⟨c', x, hx, hcl', hhead, hmem⟩ := h.lift_walk hw
  rw [List.head?_cons, Option.some.injEq] at hhead
  by_cases hcl : c = l
  · subst hcl
    obtain rfl := h.eq_right hcl' hhead.symm
    -- the walk got to `r` through `l`
    obtain ⟨y, rfl⟩ := hx.before h.pred h.ne_entry
    exact ⟨y, hx.suffix (u := [c']), fun b hb => hmem b (List.mem_cons_of_mem _ hb)⟩
  · obtain rfl := h.inj_of_ne_left hcl hcl' hhead
    exact ⟨x, hx, hmem⟩

/-- Every walk before the merge goes over to one that passes what its blocks became. -/
theorem lower_walk (hw : f.Walk (c :: x)) : ∃ w, g.Walk (mergedIndex l r c :: w) ∧
    ∀ e ∈ mergedIndex l r c :: w, ∃ b ∈ c :: x, mergedIndex l r b = e := by
  generalize hpath : c :: x = path at hw
  induction hw generalizing c x with
  | start =>
      cases hpath
      refine ⟨[], ?_, by simp⟩
      rw [mergedIndex_zero h.ne_entry]
      exact .start
  | @step b c _ hb hc ih =>
      cases hpath
      obtain ⟨w, hw, hmem⟩ := ih rfl
      by_cases hbl : b = l
      · -- from `l` control goes to `r`, which is in one block with it
        subst hbl
        rw [h.succ, List.mem_singleton] at hc
        subst hc
        rw [mergedIndex_right]
        refine ⟨w, hw, fun e he => ?_⟩
        obtain ⟨s, hs, rfl⟩ := hmem e he
        exact ⟨s, List.mem_cons_of_mem _ hs, rfl⟩
      · refine ⟨_, .step hw (h.successors hbl ▸ List.mem_map_of_mem hc), fun e he => ?_⟩
        rcases List.mem_cons.mp he with rfl | he
        · exact ⟨c, List.mem_cons_self, rfl⟩
        · obtain ⟨s, hs, rfl⟩ := hmem e he
          exact ⟨s, List.mem_cons_of_mem _ hs, rfl⟩

/-! ## Dominance -/

theorem reachable_iff : g.Reachable (mergedIndex l r c) ↔ f.Reachable c := by
  constructor
  · intro hex
    obtain ⟨w, hw⟩ := hex
    obtain ⟨x, hx, _⟩ := h.lift_walk_to hw
    exact ⟨x, hx⟩
  · intro hex
    obtain ⟨x, hx⟩ := hex
    obtain ⟨w, hw, _⟩ := h.lower_walk hx
    exact ⟨w, hw⟩

theorem dominates (hdom : f.Dominates d c) :
    g.Dominates (mergedIndex l r d) (mergedIndex l r c) := by
  intro w hw
  obtain ⟨x, hx, hmem⟩ := h.lift_walk_to hw
  exact hmem d (hdom x hx)

/-- A block other than `r` dominates after the merge only what it did before. -/
theorem dominates_iff (hd : d ≠ r) :
    g.Dominates (mergedIndex l r d) (mergedIndex l r c) ↔ f.Dominates d c := by
  refine ⟨fun hdom x hx => ?_, h.dominates⟩
  obtain ⟨w, hw, hmem⟩ := h.lower_walk hx
  obtain ⟨b, hb, heq⟩ := hmem _ (hdom w hw)
  by_cases hbr : b = r
  · -- a walk that passes `r` passes `l` before
    subst hbr
    rw [mergedIndex_right] at heq
    obtain rfl := mergedIndex_inj hd h.ne.symm heq.symm
    obtain ⟨front, rest, hsplit⟩ := List.append_of_mem hb
    rw [hsplit] at hx ⊢
    obtain ⟨y, rfl⟩ := hx.suffix.before h.pred h.ne_entry
    simp
  · rwa [← mergedIndex_inj hbr hd heq]

end Contracts

end Dataflow.Function
