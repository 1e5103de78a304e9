import Dataflow.Proofs.Transform.Mergeable

/-!
# Merging, merge by merge

`Function.Linked` is what merging needs of a function and keeps: jumps lead to blocks, and no phi is
without arms. A function that was read is linked, whether or not a check finds something wrong with
it. What every single merge of a linked function keeps, all merges together keep
(`Linked.mergePairs`).
-/

namespace Dataflow

namespace Instruction

variable {i : Instruction}

/-- Exchanging operands leaves the blocks that an instruction refers to. -/
theorem blockRefs_mapOperands (g : Operand → Operand) :
    (i.mapOperands g).blockRefs = i.blockRefs := by
  cases i <;> simp [mapOperands, blockRefs, Function.comp_def]

/-- Exchanging blocks exchanges those that an instruction refers to. -/
theorem blockRefs_mapBlocks (k : BlockId → BlockId) :
    (i.mapBlocks k).blockRefs = i.blockRefs.map k := by
  cases i <;> simp [mapBlocks, blockRefs, Function.comp_def]

end Instruction

namespace Function

variable {f g h : Function} {b c l r : BlockId} {t x : InstId} {front : List InstId}
  {σ : Operand → Operand} {i : Instruction}

/-- The blocks that instructions of the program refer to exist, and every phi has an arm. -/
structure Linked (f : Function) : Prop where
  placed : f.Placed
  target : ∀ {x i b}, x ∈ f.live → f.instruction? x = some i → b ∈ i.blockRefs →
    b < f.blocks.length
  armed : ∀ {x ty arms}, x ∈ f.live → f.instruction? x = some (.phi ty arms) → arms ≠ []

/-- A bound function is linked. -/
theorem Bound.linked (h : f.Bound) : f.Linked where
  placed := h.placed
  target _ := h.resolved.block
  armed _ := h.armed

namespace Linked

/-- The block to be appended exists. -/
theorem lt_right (h : f.Linked) (hpair : f.ChainPair l r t) : r < f.blocks.length :=
  h.target (mem_live_of_mem_body (terminator_mem_body hpair.term)) hpair.jump
    List.mem_cons_self

/-- In a linked function every phi folds to its first value. -/
theorem folds (h : f.Linked) (hx : x ∈ f.live) (hphi : f.isPhiAt x = true) : ∃ v, f.Folds x v := by
  obtain ⟨ty, arms, hi⟩ := isPhiAt_iff.mp hphi
  obtain ⟨arm, rest, rfl⟩ := List.exists_cons_of_ne_nil (h.armed hx hi)
  exact ⟨arm.value, ty, arm, rest, hi, rfl⟩

/-- One merge of a linked function. -/
theorem merges (h : f.Linked) (hpair : f.ChainPair l r t) :
    ∃ front σ, f.Merges (f.mergePair l r) l r t front σ :=
  merges_mergePair h.placed hpair (h.lt_right hpair) fun _ hp hphi =>
    h.folds (mem_live_of_mem_body hp) hphi

end Linked

namespace Merges

variable (m : f.Merges g l r t front σ)

include m

/-- The jump and the phis of the appended block go, every other instruction stays. -/
theorem mem_live_iff (hf : f.Placed) :
    x ∈ g.live ↔ x ∈ f.live ∧ x ≠ t ∧ ¬ (x ∈ f.body r ∧ f.isPhiAt x = true) := by
  have hjump : t ∈ f.body l := by simp [m.body_old]
  constructor
  · intro hx
    obtain ⟨e, he⟩ := mem_live.mp hx
    obtain ⟨c, hc, _, hphi⟩ := m.mem_body he
    refine ⟨mem_live_of_mem_body hc, ?_, fun hfolded => ?_⟩
    · rintro rfl
      obtain ⟨d, hdr, rfl⟩ := exists_mergedIndex l r e
      by_cases hdl : d = l
      · subst hdl
        rw [m.body_merged, List.mem_append, List.mem_filter] at he
        have hnodup := hf.nodup d
        rw [m.body_old, List.nodup_append] at hnodup
        rcases he with he | he
        · exact hnodup.2.2 x he x List.mem_cons_self rfl
        · exact m.pair.ne (hf.block_unique he.1 hjump)
      · rw [m.body d hdl hdr] at he
        exact hdl (hf.block_unique he hjump)
    · rw [hphi (hf.block_unique hc hfolded.1)] at hfolded
      exact Bool.false_ne_true hfolded.2
  · rintro ⟨hx, hxt, hfolded⟩
    obtain ⟨c, hc⟩ := mem_live.mp hx
    by_cases hcr : c = r
    · subst hcr
      refine mem_live_of_mem_body (b := mergedIndex l c l) ?_
      rw [m.body_merged, List.mem_append, List.mem_filter]
      exact .inr ⟨hc, by simpa using fun hphi => hfolded ⟨hc, hphi⟩⟩
    · exact mem_live_of_mem_body (m.mem_body_of_ne hc hcr hxt)

/-- A merge keeps a function linked. -/
theorem linked (hf : f.Linked) : g.Linked where
  placed := m.placed
  target {x j b} hx hj hb := by
    obtain ⟨i, hi, rfl⟩ := m.of_instruction hx hj
    have hold := ((m.mem_live_iff hf.placed).mp hx).1
    rw [Instruction.blockRefs_mapBlocks, Instruction.blockRefs_mapOperands, List.mem_map] at hb
    obtain ⟨c, hc, rfl⟩ := hb
    have hr := hf.lt_right m.pair
    have hl := lt_length_of_mem_body (terminator_mem_body m.pair.term)
    rw [m.length]
    by_cases hcr : c = r
    · rw [hcr, mergedIndex_right]
      exact (mergedIndex_lt hr m.pair.ne.symm).mpr hl
    · exact (mergedIndex_lt hr hcr).mpr (hf.target hold hi hc)
  armed {x ty arms} hx hj := by
    obtain ⟨e, he⟩ := mem_live.mp hx
    obtain ⟨c, old, hc, _, _, hi, rfl⟩ := m.of_phi he hj
    simpa using hf.armed (mem_live_of_mem_body hc) hi

end Merges

/-- What holds of a function and itself, and what a merge before it keeps, holds of a linked
function and what all merges make of it. -/
theorem Linked.mergePairs {P : Function → Function → Prop} (hrefl : ∀ f : Function, P f f)
    (hstep : ∀ {f h : Function} {l r t front σ}, f.Linked →
      f.Merges (f.mergePair l r) l r t front σ → P (f.mergePair l r) h → P f h)
    (hf : f.Linked) (bound : Nat) : P f (mergePairs bound f).1 := by
  induction bound generalizing f with
  | zero => exact hrefl f
  | succ bound ih =>
      cases hpair : f.chainPair? with
      | none => simpa only [Function.mergePairs, hpair] using hrefl f
      | some pair =>
          obtain ⟨l, r⟩ := pair
          obtain ⟨t, hchain⟩ := chainPair?_eq_some hpair
          obtain ⟨front, σ, m⟩ := hf.merges hchain
          simp only [Function.mergePairs, hpair]
          exact hstep hf m (ih (m.linked hf))

end Function

end Dataflow
