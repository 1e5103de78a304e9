import Dataflow.ControlFlow.Reach
import Dataflow.Proofs.Ssa.Walk
import Mathlib.Data.List.TakeWhile

/-!
# Reachability and dominance are about walks

`explore` gives the least list that holds its start and is closed under the step, if its bound
covers all that can be met (`explore_subset`, `explore_closed`). So `reachable` holds the blocks
that a walk leads to, and `dominated` those of them that no walk leads to around a block
(`mem_reachable`, `mem_dominated`).
-/

namespace Dataflow

variable {next : Nat → List Nat} {bound n x y : Nat} {work seen : List Nat}

theorem seen_subset_explore (hx : x ∈ seen) : x ∈ explore next bound work seen := by
  induction bound generalizing work seen with
  | zero => exact hx
  | succ bound ih =>
      rw [explore]
      split
      · exact hx
      · exact ih (List.mem_cons_of_mem _ hx)

/-- A search turns to the first number at hand that was not seen. What comes before it was. -/
theorem turns_to {a : Nat} {rest : List Nat} (h : work.dropWhile (· ∈ seen) = a :: rest) :
    a ∉ seen ∧ (∀ x ∈ a :: rest, x ∈ work) ∧ ∀ x ∈ work, x ∈ a :: seen ∨ x ∈ rest := by
  have hsplit := List.takeWhile_append_dropWhile (p := (· ∈ seen)) (l := work)
  rw [h] at hsplit
  refine ⟨?_, fun x hx => hsplit ▸ List.mem_append_right _ hx, fun x hx => ?_⟩
  · have hhead := List.head?_dropWhile_not (· ∈ seen) work
    simpa [h] using hhead
  · rw [← hsplit] at hx
    rcases List.mem_append.mp hx with hx | hx
    · have hmem : x ∈ seen := by simpa using List.mem_takeWhile_imp hx
      exact Or.inl (List.mem_cons_of_mem _ hmem)
    · rcases List.mem_cons.mp hx with rfl | hx
      · exact Or.inl List.mem_cons_self
      · exact Or.inr hx

/-- While a number below `n` is still to be seen, fewer than `n` were. -/
theorem length_lt_of_unseen (hnodup : seen.Nodup) (hseen : ∀ y ∈ seen, y < n) (hx : x < n)
    (hnew : x ∉ seen) : seen.length < n := by
  have hsub : x :: seen ⊆ List.range n := by
    intro y hy
    rw [List.mem_range]
    rcases List.mem_cons.mp hy with rfl | hy
    · exact hx
    · exact hseen y hy
  have hle := List.Nodup.length_le_of_subset (List.nodup_cons.mpr ⟨hnew, hnodup⟩) hsub
  rwa [List.length_cons, List.length_range] at hle

/-- Everything found is in each set that holds the start and is closed under steps from what was not
seen at the start. -/
theorem explore_subset {S : Nat → Prop} (hseen : ∀ x ∈ seen, S x) (hwork : ∀ x ∈ work, S x)
    (hnext : ∀ x, S x → x ∉ seen → ∀ y ∈ next x, S y) :
    ∀ x ∈ explore next bound work seen, S x := by
  induction bound generalizing work seen with
  | zero => exact hseen
  | succ bound ih =>
      rw [explore]
      split
      · exact hseen
      · rename_i a rest hrest
        obtain ⟨hnew, hsub, _⟩ := turns_to hrest
        have ha : S a := hwork a (hsub a List.mem_cons_self)
        refine ih (fun x hx => ?_) (fun x hx => ?_) fun x hx hnot =>
          hnext x hx fun hmem => hnot (List.mem_cons_of_mem _ hmem)
        · rcases List.mem_cons.mp hx with rfl | hx
          · exact ha
          · exact hseen x hx
        · rcases List.mem_append.mp hx with hx | hx
          · exact hnext a ha hnew x hx
          · exact hwork x (hsub x (List.mem_cons_of_mem _ hx))

/-- What is found holds the start and is closed under steps, if the bound covers the numbers below
`n` that were not seen at the start. -/
theorem explore_closed (hnodup : seen.Nodup) (hseen : ∀ x ∈ seen, x < n) (hwork : ∀ x ∈ work, x < n)
    (hnext : ∀ x, ∀ y ∈ next x, y < n) (hbound : n ≤ bound + seen.length) :
    (∀ x ∈ work, x ∈ explore next bound work seen) ∧
      ∀ x ∈ explore next bound work seen, x ∉ seen →
        ∀ y ∈ next x, y ∈ explore next bound work seen := by
  induction bound generalizing work seen with
  | zero =>
      -- everything below `n` has been seen
      refine ⟨fun x hx => ?_, fun x hx hnot => absurd hx hnot⟩
      by_contra hnew
      have hlt := length_lt_of_unseen hnodup hseen (hwork x hx) hnew
      omega
  | succ bound ih =>
      rw [explore]
      split
      · rename_i hnil
        refine ⟨fun x hx => ?_, fun x hx hnot => absurd hx hnot⟩
        simpa using List.dropWhile_eq_nil_iff.mp hnil x hx
      · rename_i a rest hrest
        obtain ⟨hnew, hsub, hcover⟩ := turns_to hrest
        have hseen' : ∀ x ∈ a :: seen, x < n := by
          intro x hx
          rcases List.mem_cons.mp hx with rfl | hx
          · exact hwork x (hsub x List.mem_cons_self)
          · exact hseen x hx
        have hwork' : ∀ x ∈ next a ++ rest, x < n := by
          intro x hx
          rcases List.mem_append.mp hx with hx | hx
          · exact hnext a x hx
          · exact hwork x (hsub x (List.mem_cons_of_mem _ hx))
        obtain ⟨hstart, hclosed⟩ := ih (List.nodup_cons.mpr ⟨hnew, hnodup⟩) hseen' hwork'
          (by rw [List.length_cons]; omega)
        refine ⟨fun x hx => ?_, fun x hx hnot y hy => ?_⟩
        · rcases hcover x hx with hx | hx
          · exact seen_subset_explore hx
          · exact hstart x (List.mem_append_right _ hx)
        · by_cases hxa : x = a
          · subst hxa
            exact hstart y (List.mem_append_left _ hy)
          · exact hclosed x hx (fun hmem => (List.mem_cons.mp hmem).elim hxa hnot) y hy

namespace Function

variable {f : Function} {b c d h : BlockId} {w : List BlockId}

/-- Control can get to block `c`. -/
def Reachable (f : Function) (c : BlockId) : Prop := ∃ w, f.Walk (c :: w)

theorem mem_reachableThrough {allowed : BlockId → Bool} : b ∈ f.reachableThrough allowed ↔
    b < f.blocks.length ∧ ∃ w, f.Walk (b :: w) ∧ ∀ c ∈ b :: w, allowed c = true := by
  have hentry : ∀ c ∈ f.entry?.toList.filter allowed, c < f.blocks.length ∧ c = 0 ∧
      allowed c = true := by
    intro c hc
    rw [List.mem_filter, Option.mem_toList] at hc
    obtain ⟨hc, hallowed⟩ := hc
    unfold entry? at hc
    split at hc
    · cases hc
    · rename_i hne
      cases hc
      rw [List.isEmpty_iff, ← List.length_eq_zero_iff] at hne
      exact ⟨Nat.pos_of_ne_zero hne, rfl, hallowed⟩
  have hstep : ∀ c, ∀ d ∈ (f.successors c).filter fun d => d < f.blocks.length && allowed d,
      d ∈ f.successors c ∧ d < f.blocks.length ∧ allowed d = true := by
    intro c d hd
    simpa [List.mem_filter] using hd
  constructor
  · refine explore_subset (S := fun b => b < f.blocks.length ∧ ∃ w, f.Walk (b :: w) ∧
      ∀ c ∈ b :: w, allowed c = true) (by simp) (fun c hc => ?_) (fun c hex _ d hd => ?_) b
    · obtain ⟨hlt, rfl, hallowed⟩ := hentry c hc
      exact ⟨hlt, [], .start, by simpa using hallowed⟩
    · obtain ⟨_, w, hw, hall⟩ := hex
      obtain ⟨hsucc, hlt, hallowed⟩ := hstep c d hd
      refine ⟨hlt, c :: w, hw.step hsucc, fun e he => ?_⟩
      rcases List.mem_cons.mp he with rfl | he
      · exact hallowed
      · exact hall e he
  · intro hex
    obtain ⟨hlt, w, hw, hall⟩ := hex
    obtain ⟨hwork, hclosed⟩ : (∀ c ∈ f.entry?.toList.filter allowed,
          c ∈ f.reachableThrough allowed) ∧
        ∀ c ∈ f.reachableThrough allowed, c ∉ [] → ∀ d ∈ (f.successors c).filter fun d =>
          d < f.blocks.length && allowed d, d ∈ f.reachableThrough allowed :=
      explore_closed List.nodup_nil (by simp) (fun c hc => (hentry c hc).1)
        (fun c d hd => (hstep c d hd).2.1) (Nat.le_add_right _ _)
    -- along the walk each block is found from the one before
    generalize hpath : b :: w = path at hw
    induction hw generalizing b w with
    | start =>
        cases hpath
        refine hwork 0 (List.mem_filter.mpr ⟨?_, hall 0 List.mem_cons_self⟩)
        rw [Option.mem_toList, entry?_of_lt hlt]
    | @step c d x _ hd ih =>
        cases hpath
        have hc := ih (lt_length_of_mem_successors hd) x
          (fun e he => hall e (List.mem_cons_of_mem _ he)) rfl
        have hallowed := hall d List.mem_cons_self
        exact hclosed c hc List.not_mem_nil d (by simp [hd, hlt, hallowed])

theorem mem_reachable : b ∈ f.reachable ↔ b < f.blocks.length ∧ f.Reachable b := by
  simp [reachable, mem_reachableThrough, Reachable]

/-- A block is among the dominated ones just if control can get there, and only past `h`. -/
theorem mem_dominated : b ∈ f.dominated h ↔
    b < f.blocks.length ∧ f.Reachable b ∧ f.Dominates h b := by
  rw [dominated, List.mem_filter, mem_reachable, and_assoc]
  refine and_congr_right fun hlt => and_congr_right fun _ => ?_
  rw [decide_eq_true_eq, reachableAvoiding, mem_reachableThrough]
  simp only [hlt, true_and, Dominates, not_exists, not_and, decide_eq_true_eq]
  refine forall_congr' fun w => forall_congr' fun _ => ?_
  constructor
  · intro hnot
    by_contra hmem
    exact hnot fun c hc heq => hmem (heq ▸ hc)
  · intro hmem hall
    exact hall h hmem rfl

/-- Control passes no number that names no block, except at the end. -/
theorem Walk.lt_length (hw : f.Walk (c :: w)) (hc : c < f.blocks.length) :
    ∀ b ∈ c :: w, b < f.blocks.length := by
  generalize hpath : c :: w = path at hw
  induction hw generalizing c w with
  | start =>
      cases hpath
      simpa using hc
  | step hw hd ih =>
      cases hpath
      intro b hb
      rcases List.mem_cons.mp hb with rfl | hb
      · exact hc
      · exact ih (lt_length_of_mem_successors hd) rfl b hb

/-- Two blocks that dominate each other are one. -/
theorem Dominates.antisymm (hd : f.Dominates d c) (hc : f.Dominates c d) (hreach : f.Reachable c) :
    c = d := by
  obtain ⟨w, hw⟩ := hreach
  by_contra hne
  -- a walk to `c` passes `d`, and before that `c` again, so there is no shortest one
  induction hn : w.length using Nat.strongRecOn generalizing w with
  | ind n ih =>
      have hmem := hd w hw
      rw [List.mem_cons, or_iff_right (Ne.symm hne)] at hmem
      obtain ⟨front, x, rfl⟩ := List.append_of_mem hmem
      have hx : f.Walk (d :: x) := Walk.suffix (u := c :: front) hw
      obtain ⟨y, hy, hlength⟩ := hx.of_mem (hc x hx)
      refine ih y.length ?_ y hy rfl
      rw [← hn]
      simp only [List.length_append, List.length_cons] at hlength ⊢
      omega

/-- What dominates a block dominates its predecessors, itself apart. -/
theorem Dominates.predecessor (hd : f.Dominates d c) (hne : d ≠ c) (hb : c ∈ f.successors b) :
    f.Dominates d b := by
  intro w hw
  have hmem := hd (b :: w) (hw.step hb)
  rwa [List.mem_cons, or_iff_right hne] at hmem

end Function

end Dataflow
