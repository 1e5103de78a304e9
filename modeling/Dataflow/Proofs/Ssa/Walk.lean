import Dataflow.Proofs.Ssa.Placement

/-!
# Walks

A walk lists the blocks that control passes, the last one in front and the first block of the
function at the end. A block dominates another one if every walk to that one passes it. The second
half is about a block `r` that is entered only from one block `l`: what dominates `l` can be reached
around `r`, so on the way from `r` to a block that `r` dominates control does not pass it
(`Walk.not_mem_since`).
-/

namespace Dataflow.Function

/-- The blocks control passes on some way from the first block, the last one in front. -/
inductive Walk (f : Function) : List BlockId → Prop where
  | start : Walk f [0]
  | step {b c w} : Walk f (b :: w) → c ∈ f.successors b → Walk f (c :: b :: w)

/-- Every walk to `c` passes `d`. -/
def Dominates (f : Function) (d c : BlockId) : Prop := ∀ w, f.Walk (c :: w) → d ∈ c :: w

variable {f : Function} {b c d l r : BlockId} {u w x : List BlockId}

/-- Every block dominates itself. -/
theorem dominates_self : f.Dominates c c := fun _ _ => List.mem_cons_self

/-- A walk starts at the first block. -/
theorem Walk.zero_mem (h : f.Walk w) : 0 ∈ w := by
  induction h with
  | start => exact List.mem_cons_self
  | step _ _ ih => exact List.mem_cons_of_mem _ ih

/-- The first block dominates every block. -/
theorem dominates_zero : f.Dominates 0 c := fun _ h => h.zero_mem

/-- A walk that goes on was a walk before. -/
theorem Walk.suffix (h : f.Walk (u ++ b :: w)) : f.Walk (b :: w) := by
  induction u with
  | nil => exact h
  | cons c u ih =>
      apply ih
      rw [List.cons_append] at h
      generalize hrest : u ++ b :: w = rest at h
      cases h with
      | start => simp at hrest
      | step h _ => exact h

/-- A walk that passes a block has an earlier part that ends in it. -/
theorem Walk.of_mem (h : f.Walk w) (hb : b ∈ w) : ∃ x, f.Walk (b :: x) ∧ x.length < w.length := by
  obtain ⟨front, rest, rfl⟩ := List.append_of_mem hb
  exact ⟨rest, h.suffix, by simp only [List.length_append, List.length_cons]; omega⟩

/-- Another way to the same block goes on in the same way. -/
theorem Walk.graft (h : f.Walk (u ++ b :: w)) (hother : f.Walk (b :: x)) :
    f.Walk (u ++ b :: x) := by
  induction u with
  | nil => exact hother
  | cons c u ih =>
      cases u with
      | nil =>
          cases h with
          | step _ hc => exact .step hother hc
      | cons c' u =>
          cases h with
          | step h hc => exact .step (ih h) hc

/-! ## A block that is entered only from one block -/

section Single

variable (hpred : f.predecessors r = [l]) (hr : r ≠ 0)

include hpred hr

/-- Before that block control was in the one before it. -/
theorem Walk.before (h : f.Walk (r :: w)) : ∃ x, w = l :: x := by
  cases h with
  | start => exact absurd rfl hr
  | @step b _ x _ hc =>
      have hb := mem_predecessors_of_mem_successors hc
      rw [hpred, List.mem_singleton] at hb
      exact ⟨x, by rw [hb]⟩

/-- The block does not dominate the one before it, if control gets there. -/
theorem Walk.not_dominates (hne : r ≠ l) (h : f.Walk (l :: w)) : ¬ f.Dominates r l := by
  intro hdom
  -- the walk to `l` passes `r` and so `l` before it, which gives a shorter walk to `l`
  induction hn : w.length using Nat.strongRecOn generalizing w with
  | ind n ih =>
      have hmem := hdom w h
      rw [List.mem_cons, or_iff_right hne] at hmem
      obtain ⟨front, rest, rfl⟩ := List.append_of_mem hmem
      obtain ⟨x, rfl⟩ := Walk.before hpred hr (Walk.suffix (u := l :: front) h)
      refine ih x.length ?_ (Walk.suffix (u := l :: (front ++ [r])) (by simpa using h)) rfl
      rw [← hn]
      simp only [List.length_append, List.length_cons]
      omega

/-- What dominates the block before can be reached around the block. -/
theorem Walk.around (hdom : f.Dominates d l) (hne : d ≠ r) (h : f.Walk (d :: w)) :
    ∃ x, f.Walk (d :: x) ∧ r ∉ d :: x := by
  induction hn : w.length using Nat.strongRecOn generalizing w with
  | ind n ih =>
      by_cases hmem : r ∈ d :: w
      · rw [List.mem_cons, or_iff_right (Ne.symm hne)] at hmem
        obtain ⟨front, rest, rfl⟩ := List.append_of_mem hmem
        obtain ⟨x, rfl⟩ := Walk.before hpred hr (Walk.suffix (u := d :: front) h)
        have hl : f.Walk (l :: x) := Walk.suffix (u := d :: (front ++ [r])) (by simpa using h)
        obtain ⟨y, hy, hlength⟩ := hl.of_mem (hdom x hl)
        refine ih y.length ?_ hy rfl
        rw [← hn]
        simp only [List.length_append, List.length_cons] at hlength ⊢
        omega
      · exact ⟨w, h, hmem⟩

/-- On the way from the block to one that it dominates, control does not pass what dominates the
block before it. -/
theorem Walk.not_mem_since (hdom : f.Dominates d l) (hne : d ≠ r) (hc : f.Dominates r c)
    (h : f.Walk (u ++ r :: w)) (hhead : (u ++ r :: w).head? = some c) (hr' : r ∉ u) : d ∉ u := by
  intro hd
  obtain ⟨front, rest, rfl⟩ := List.append_of_mem hd
  obtain ⟨y, hy, _⟩ := h.of_mem (List.mem_append_left _ hd)
  obtain ⟨x, hx, hfree⟩ := Walk.around hpred hr hdom hne hy
  rw [List.append_assoc, List.cons_append] at h
  have hgraft := h.graft hx
  have hhead' : (front ++ d :: x).head? = some c := by
    rw [← hhead]
    cases front <;> simp
  have hfront : r ∉ front ++ d :: x := by
    simp only [List.mem_append, not_or] at hr' ⊢
    exact ⟨hr'.1, hfree⟩
  cases hlist : front ++ d :: x with
  | nil => simp [hlist] at hhead'
  | cons c' tail =>
      rw [hlist, List.head?_cons, Option.some.injEq] at hhead'
      subst hhead'
      rw [hlist] at hgraft hfront
      exact hfront (hc tail hgraft)

end Single

end Dataflow.Function
