import Dataflow.Proofs.Ssa.Dominance
import Dataflow.Proofs.Text.Binding
import Dataflow.Proofs.Transform.Contraction
import Mathlib.Data.List.Find

/-!
# A merge keeps single assignment form

A merge needs a function whose blocks end by leaving them to other blocks and whose phis have arms
(`Function.Flows`). Then it contracts the ways of the function (`Merges.contracts`) and can be
repeated (`Merges.flows`). `Function.Mergeable` adds single assignment form. The main lemma about
it, `Merges.mergeable`, carries dominance over to the function after a merge.
-/

namespace Dataflow.Function

variable {f g : Function} {b c d l r : BlockId} {id p q t x : InstId} {front : List InstId}
  {σ : Operand → Operand} {u v : Operand} {i : Instruction}

/-- Control flows from block to block, and no phi is without arms: the invariant of repeated
merging. -/
structure Flows (f : Function) : Prop where
  placed : f.Placed
  ends : ∀ {b}, b < f.blocks.length → ∃ init t, f.EndsIn b init t
  target : ∀ {b c}, c ∈ f.successors b → c < f.blocks.length
  armed : ∀ {id b ty arms}, id ∈ f.body b → f.instruction? id = some (.phi ty arms) → arms ≠ []

/-- An arm of a phi names a predecessor. -/
def ArmsEnter (f : Function) : Prop :=
  ∀ {id b ty arms a}, id ∈ f.body b → f.instruction? id = some (.phi ty arms) → a ∈ arms →
    a.source ∈ f.predecessors b

/-- The invariant of repeated merging for functions in single assignment form. -/
structure Mergeable (f : Function) : Prop extends f.Flows where
  arm : f.ArmsEnter
  ssa : f.IsSsa
  callees : f.CalleesFixed

/-- Control flows in a function whose blocks end by leaving them. -/
theorem Bound.flows (h : f.Bound) (hshaped : f.WellShaped) : f.Flows where
  placed := h.placed
  ends := hshaped.endsIn
  target := h.target
  armed _ := h.armed

theorem flows_of_checked (h : f.Checked) : f.Flows := h.toBound.flows h.shaped

theorem WellShaped.armsEnter (h : f.WellShaped) (hplaced : f.Placed) : f.ArmsEnter := by
  intro id b ty arms a hid hi ha
  obtain ⟨s, hs, rfl⟩ := hplaced.slot hid
  obtain ⟨s', hs', hsi⟩ := Option.map_eq_some_iff.mp hi
  rw [hs] at hs'
  cases hs'
  exact h.arm (mem_live_of_mem_body hid) hs hsi ha

theorem mergeable_of_checked (h : f.Checked) (hssa : f.IsSsa) (hcallees : f.CalleesFixed) :
    f.Mergeable where
  toFlows := flows_of_checked h
  arm := h.shaped.armsEnter h.placed
  ssa := hssa
  callees := hcallees

/-- A phi has an arm for every block that control comes from. -/
theorem Mergeable.arm_for (h : f.Mergeable) {ty : Ty} {arms : List Arm} (hx : x ∈ f.body b)
    (hi : f.instruction? x = some (.phi ty arms)) (hc : b ∈ f.successors c) :
    ∃ arm, arms.find? (·.source = c) = some arm ∧ arm ∈ arms ∧ arm.source = c := by
  have honce := h.ssa.arms_once hx hi c (mem_predecessors_of_mem_successors hc)
  have hmem : c ∈ arms.map (·.source) := List.count_pos_iff.mp (by rw [honce]; exact Nat.one_pos)
  obtain ⟨a, ha, hac⟩ := List.mem_map.mp hmem
  obtain ⟨arm, hfind⟩ := Option.isSome_iff_exists.mp
    (List.find?_isSome (p := (·.source = c)).mpr ⟨a, ha, by simpa using hac⟩)
  exact ⟨arm, hfind, List.mem_of_find?_eq_some hfind, by simpa using List.find?_some hfind⟩

/-! ## The pair before the merge -/

theorem ChainPair.successors (hpair : f.ChainPair l r t) : f.successors l = [r] :=
  successors_eq_of_terminator hpair.term hpair.jump

theorem Flows.lt_right (h : f.Flows) (hpair : f.ChainPair l r t) : r < f.blocks.length :=
  h.target (b := l) (by simp [hpair.successors])

theorem Flows.folds (h : f.Flows) (hp : p ∈ f.body b) (hphi : f.isPhiAt p = true) :
    ∃ v, f.Folds p v := by
  obtain ⟨ty, arms, hi⟩ := isPhiAt_iff.mp hphi
  obtain ⟨arm, rest, rfl⟩ := List.exists_cons_of_ne_nil (h.armed hp hi)
  exact ⟨arm.value, ty, arm, rest, hi, rfl⟩

/-- One merge of a function in which control flows. -/
theorem Flows.merges (h : f.Flows) (hpair : f.ChainPair l r t) :
    ∃ front σ, f.Merges (f.mergePair l r) l r t front σ :=
  merges_mergePair h.placed hpair (h.lt_right hpair) fun _ hp hphi => h.folds hp hphi

section Pair

variable (h : f.Mergeable) (hpair : f.ChainPair l r t)

include h hpair

/-- A phi of the appended block has one arm, for the other block. -/
theorem Mergeable.phi_right (hp : p ∈ f.body r) (hphi : f.isPhiAt p = true) :
    ∃ ty arm, f.instruction? p = some (.phi ty [arm]) ∧ arm.source = l := by
  obtain ⟨ty, arms, hi⟩ := isPhiAt_iff.mp hphi
  have hsource : ∀ s ∈ arms.map (·.source), s = l := by
    intro s hs
    obtain ⟨a, ha, rfl⟩ := List.mem_map.mp hs
    have hmem := h.arm hp hi ha
    rwa [hpair.pred, List.mem_singleton] at hmem
  have honce := h.ssa.arms_once hp hi l (by simp [hpair.pred])
  rw [List.count_eq_length.mpr fun s hs => (hsource s hs).symm, List.length_map] at honce
  obtain ⟨arm, rfl⟩ := List.length_eq_one_iff.mp honce
  exact ⟨ty, arm, hi, hsource _ (by simp)⟩

/-- The value of a folded phi is read at the end of the block before. -/
theorem Mergeable.readsAt_left (hp : p ∈ f.body r) (hv : f.Folds p v) : f.ReadsAt l v := by
  obtain ⟨ty, arm, hi, hsource⟩ := h.phi_right hpair hp hv.isPhiAt
  obtain ⟨ty', arm', arms, hi', rfl⟩ := hv
  rw [hi] at hi'
  cases hi'
  exact .arm hp hi (by simp) hsource

/-- If control gets to the pair, no folded phi is the value of a folded phi. -/
theorem Mergeable.value_ne {w : List BlockId} (hw : f.Walk (l :: w)) (hp : p ∈ f.body r)
    (hv : f.Folds p v) (hq : q ∈ f.body r) : v ≠ .result q := by
  intro heq
  subst heq
  exact hw.not_dominates hpair.pred hpair.ne_entry hpair.ne
    (h.ssa.dominated (h.readsAt_left hpair hp hv) hq)

end Pair

namespace Merges

variable (m : f.Merges g l r t front σ)

include m

/-! ## Blocks and instructions after the merge -/

/-- What a block lists after the merge was listed by a block that has its number. -/
theorem mem_body {e : BlockId} (hx : x ∈ g.body e) :
    ∃ c, x ∈ f.body c ∧ mergedIndex l r c = e ∧ (c = r → f.isPhiAt x = false) := by
  obtain ⟨c, hcr, rfl⟩ := exists_mergedIndex l r e
  by_cases hcl : c = l
  · subst hcl
    rw [m.body_merged] at hx
    rcases List.mem_append.mp hx with hx | hx
    · exact ⟨c, by simp [m.body_old, hx], rfl, fun e => absurd e hcr⟩
    · rw [List.mem_filter] at hx
      exact ⟨r, hx.1, mergedIndex_right, fun _ => by simpa using hx.2⟩
  · rw [m.body c hcl hcr] at hx
    exact ⟨c, hx, rfl, fun e => absurd e hcr⟩

/-- A block that stays keeps all its instructions but the jump. -/
theorem mem_body_of_ne (hx : x ∈ f.body c) (hc : c ≠ r) (hxt : x ≠ t) :
    x ∈ g.body (mergedIndex l r c) := by
  by_cases hcl : c = l
  · subst hcl
    rw [m.body_old] at hx
    rw [m.body_merged]
    simp only [List.mem_append, List.mem_singleton, hxt, or_false] at hx
    exact List.mem_append_left _ hx
  · rwa [m.body c hcl hc]

/-- An instruction after the merge is one before with other references. -/
theorem of_instruction {j : Instruction} (hx : x ∈ g.live) (hj : g.instruction? x = some j) :
    ∃ i, f.instruction? x = some i ∧ (i.mapOperands σ).mapBlocks (mergedIndex l r) = j := by
  rw [m.instruction x hx] at hj
  exact Option.map_eq_some_iff.mp hj

theorem any_instruction (hx : x ∈ g.live) {k : Instruction → Bool}
    (hk : ∀ i : Instruction, k ((i.mapOperands σ).mapBlocks (mergedIndex l r)) = k i) :
    (g.instruction? x).any k = (f.instruction? x).any k := by
  rw [m.instruction x hx]
  cases f.instruction? x with
  | none => rfl
  | some i => exact hk i

theorem isTerminator_any (hx : x ∈ g.live) :
    (g.instruction? x).any (·.isTerminator) = (f.instruction? x).any (·.isTerminator) :=
  m.any_instruction hx fun _ => by simp

/-- A phi after the merge. -/
theorem instruction_phi {ty : Ty} {arms : List Arm} (hx : x ∈ g.live)
    (hi : f.instruction? x = some (.phi ty arms)) : g.instruction? x =
      some (.phi ty (arms.map fun a => ⟨σ a.value, mergedIndex l r a.source⟩)) := by
  rw [m.instruction x hx, hi]
  simp [Instruction.mapOperands, Instruction.mapBlocks]

/-- A phi after the merge was one before, in a block other than `r`. -/
theorem of_phi {e : BlockId} {ty : Ty} {arms : List Arm} (hx : x ∈ g.body e)
    (hj : g.instruction? x = some (.phi ty arms)) :
    ∃ c old, x ∈ f.body c ∧ mergedIndex l r c = e ∧ c ≠ r ∧
      f.instruction? x = some (.phi ty old) ∧
      arms = old.map fun a => ⟨σ a.value, mergedIndex l r a.source⟩ := by
  obtain ⟨c, hc, hce, hphi⟩ := m.mem_body hx
  obtain ⟨i, hi, heq⟩ := m.of_instruction (mem_live_of_mem_body hx) hj
  cases i with
  | phi ty' old =>
      simp only [Instruction.mapOperands, Instruction.mapBlocks, Instruction.phi.injEq,
        List.map_map] at heq
      obtain ⟨rfl, rfl⟩ := heq
      -- the phis of `r` are folded
      have hcr : c ≠ r := fun hcr => by simpa [isPhiAt, hi, Instruction.isPhi] using hphi hcr
      exact ⟨c, old, hc, hce, hcr, hi, rfl⟩
  | _ => cases heq

/-- What is read after the merge comes from what was read before. -/
theorem readsAt {e : BlockId} (hv : g.ReadsAt e v) :
    ∃ c u, mergedIndex l r c = e ∧ f.ReadsAt c u ∧ σ u = v := by
  cases hv with
  | inst hx hj hphi hmem =>
      obtain ⟨c, hc, rfl, _⟩ := m.mem_body hx
      obtain ⟨i, hi, rfl⟩ := m.of_instruction (mem_live_of_mem_body hx) hj
      rw [Instruction.operands_mapBlocks, Instruction.operands_mapOperands, List.mem_map] at hmem
      obtain ⟨u, hu, rfl⟩ := hmem
      exact ⟨c, u, rfl, .inst hc hi (by simpa using hphi) hu, rfl⟩
  | arm hx hj harm hsource =>
      obtain ⟨c, old, hc, rfl, _, hi, rfl⟩ := m.of_phi hx hj
      obtain ⟨a, ha, rfl⟩ := List.mem_map.mp harm
      exact ⟨a.source, a.value, hsource, .arm hc hi ha rfl, rfl⟩

/-! ## The flow of control -/

section Flows

variable (h : f.Flows)

include h

/-- Before its jump control does not leave `l`. -/
theorem stays_front : ∀ y ∈ front, (f.instruction? y).any (·.isTerminator) = false := by
  obtain ⟨init, s, hend⟩ := h.ends (lt_length_of_mem_body (terminator_mem_body m.pair.term))
  obtain ⟨rfl, _⟩ := List.append_inj' (hend.body.symm.trans m.body_old) rfl
  exact hend.stays

/-- The block that `l` and `r` became ends as `r` did, and every other block as it did before. -/
theorem ends {init : List InstId} {s : InstId} (hc : c ≠ l) (hend : f.EndsIn c init s) :
    ∃ init', g.EndsIn (mergedIndex l r c) init' s := by
  have hlive : ∀ {y}, y ∈ g.body (mergedIndex l r c) → y ∈ g.live := mem_live_of_mem_body
  by_cases hcr : c = r
  · subst hcr
    have hnot : f.isPhiAt s = false := by
      obtain ⟨i, hi, hterm⟩ := hend.instruction
      simp [isPhiAt, hi, Instruction.not_isPhi_of_isTerminator hterm]
    have hbody : g.body (mergedIndex l c c) =
        (front ++ init.filter fun id => ¬ f.isPhiAt id) ++ [s] := by
      rw [mergedIndex_right, m.body_merged, hend.body, List.filter_append, List.append_assoc]
      simp [hnot]
    refine ⟨_, hbody, ?_, fun y hy => ?_⟩
    · rw [m.isTerminator_any (hlive (by simp [hbody]))]
      exact hend.leaves
    · rw [m.isTerminator_any (hlive (by rw [hbody]; exact List.mem_append_left _ hy))]
      rcases List.mem_append.mp hy with hy | hy
      · exact m.stays_front h y hy
      · exact hend.stays y (List.mem_filter.mp hy).1
  · have hbody := m.body c hc hcr
    refine ⟨init, hbody.trans hend.body, ?_, fun y hy => ?_⟩
    · rw [m.isTerminator_any (hlive (by simp [hbody, hend.body]))]
      exact hend.leaves
    · rw [m.isTerminator_any (hlive (by simp [hbody, hend.body, hy]))]
      exact hend.stays y hy

theorem successors (hc : c ≠ l) :
    g.successors (mergedIndex l r c) = (f.successors c).map (mergedIndex l r) := by
  by_cases hlt : c < f.blocks.length
  · obtain ⟨init, s, hend⟩ := h.ends hlt
    obtain ⟨i, hi, _⟩ := hend.instruction
    obtain ⟨init', hend'⟩ := m.ends h hc hend
    have hlive : s ∈ g.live := mem_live_of_mem_body (by rw [hend'.body]; simp)
    have hj : g.instruction? s = some ((i.mapOperands σ).mapBlocks (mergedIndex l r)) := by
      rw [m.instruction s hlive, hi, Option.map_some]
    rw [hend'.successors hj, hend.successors hi, Instruction.successors_mapBlocks,
      Instruction.successors_mapOperands]
  · have hle := Nat.le_of_not_lt hlt
    have hr := Nat.lt_of_lt_of_le (h.lt_right m.pair) hle
    rw [successors_eq_nil_of_le hle, mergedIndex_of_ne (Nat.ne_of_gt hr), shiftPast, if_pos hr]
    refine successors_eq_nil_of_le ?_
    rw [m.length]
    exact Nat.sub_le_sub_right hle 1

/-- The ways after the merge are those before it with `l` and `r` in one block. -/
theorem contracts : f.Contracts g l r where
  ne := m.pair.ne
  ne_entry := m.pair.ne_entry
  pred := m.pair.pred
  succ := m.pair.successors
  target := h.target
  length := m.length
  successors := m.successors h

/-- A merge keeps the flow of control. -/
theorem flows : g.Flows where
  placed := m.placed
  ends {e} he := by
    obtain ⟨c, hc, rfl⟩ := (m.contracts h).exists_ne_left e
    have hlt : c < f.blocks.length := by
      by_cases hcr : c = r
      · rw [hcr]
        exact h.lt_right m.pair
      · rw [m.length, mergedIndex_lt (h.lt_right m.pair) hcr] at he
        exact he
    obtain ⟨init, s, hend⟩ := h.ends hlt
    obtain ⟨init', hend'⟩ := m.ends h hc hend
    exact ⟨init', s, hend'⟩
  target {e e'} he' := by
    obtain ⟨c, hc, rfl⟩ := (m.contracts h).exists_ne_left e
    rw [m.successors h hc, List.mem_map] at he'
    obtain ⟨s, hs, rfl⟩ := he'
    have hsr : s ≠ r := by
      intro heq
      subst heq
      exact hc ((m.contracts h).eq_left hs)
    rw [m.length, mergedIndex_lt (h.lt_right m.pair) hsr]
    exact h.target hs
  armed hx hj := by
    obtain ⟨c, old, hc, _, _, hi, rfl⟩ := m.of_phi hx hj
    simpa using h.armed hc hi

/-- A merge keeps the arms in order. -/
theorem armsEnter (harms : f.ArmsEnter) : g.ArmsEnter := by
  intro x e ty arms a hx hj ha
  obtain ⟨c, old, hc, rfl, hcr, hi, rfl⟩ := m.of_phi hx hj
  obtain ⟨b, hb, rfl⟩ := List.mem_map.mp ha
  exact ((m.contracts h).mem_predecessors_iff hcr).mpr ⟨b.source, harms hc hi hb, rfl⟩

end Flows

/-! ## Single assignment form -/

section Mergeable

variable (h : f.Mergeable)

include h

/-- The arm for a predecessor is after the merge the arm for what the predecessor became. -/
theorem find?_arms {ty : Ty} {arms : List Arm} (hc : c ≠ r) (hx : x ∈ f.body c)
    (hi : f.instruction? x = some (.phi ty arms)) (hb : b ∈ f.predecessors c) :
    (arms.map fun a => (⟨σ a.value, mergedIndex l r a.source⟩ : Arm)).find?
        (·.source = mergedIndex l r b) =
      (arms.find? (·.source = b)).map fun a => ⟨σ a.value, mergedIndex l r a.source⟩ := by
  rw [List.find?_map]
  refine congrArg _ (List.find?_congr fun a ha => ?_)
  simp only [Function.comp_apply, decide_eq_decide]
  exact ⟨(m.contracts h.toFlows).predecessor_inj hc (h.arm hx hi ha) hb, congrArg _⟩

/-- What a folded phi stands for dominates what the phi dominates. -/
theorem dominates_value (hp : p ∈ f.body r) (hdom : f.Dominates r c)
    (hv : f.Folds p (.result x)) (hx : x ∈ f.body d) : f.Dominates d c := by
  intro w hw
  obtain ⟨front, rest, hsplit⟩ := List.append_of_mem (hdom w hw)
  rw [hsplit] at hw ⊢
  obtain ⟨y, rfl⟩ := hw.suffix.before m.pair.pred m.pair.ne_entry
  have hl : f.Walk (l :: y) := Walk.suffix (u := front ++ [r]) (by simpa using hw)
  have hmem := h.ssa.dominated (h.readsAt_left m.pair hp hv) hx y hl
  exact List.mem_append_right _ (List.mem_cons_of_mem _ hmem)

theorem dominated {e e' : BlockId} (hv : g.ReadsAt e (.result x)) (hx : x ∈ g.body e') :
    g.Dominates e' e := by
  obtain ⟨c, u, rfl, hread, hu⟩ := m.readsAt hv
  obtain ⟨d, hd, rfl, _⟩ := m.mem_body hx
  by_cases hfold : ∃ p ∈ f.body r, f.isPhiAt p = true ∧ u = .result p
  · obtain ⟨p, hp, hphi, rfl⟩ := hfold
    have hdom := h.ssa.dominated hread hp
    intro w hw
    -- control gets to the phi, so the phi stands for its value
    obtain ⟨y, hy, _⟩ := (m.contracts h.toFlows).lift_walk_to hw
    obtain ⟨z, hz, _⟩ := hy.of_mem (hdom y hy)
    obtain ⟨z, rfl⟩ := hz.before m.pair.pred m.pair.ne_entry
    have hl : f.Walk (l :: z) := hz.suffix (u := [r])
    obtain ⟨v, hfolds⟩ := h.folds hp hphi
    rw [m.folded (fun _ hp' _ hv' _ hq' _ => h.value_ne m.pair hl hp' hv' hq') p hp v hfolds] at hu
    subst hu
    exact (m.contracts h.toFlows).dominates (m.dominates_value h hp hdom hfolds hd) w hw
  · rw [m.fixed u fun p hp hphi e => hfold ⟨p, hp, hphi, e⟩] at hu
    subst hu
    exact (m.contracts h.toFlows).dominates (h.ssa.dominated hread hd)

theorem arms_once {e e' : BlockId} {ty : Ty} {arms : List Arm} (hx : x ∈ g.body e)
    (hj : g.instruction? x = some (.phi ty arms)) (he' : e' ∈ g.predecessors e) :
    (arms.map (·.source)).count e' = 1 := by
  obtain ⟨c, old, hc, rfl, hcr, hi, rfl⟩ := m.of_phi hx hj
  obtain ⟨s, hs, rfl⟩ := ((m.contracts h.toFlows).mem_predecessors_iff hcr).mp he'
  rw [← h.ssa.arms_once hc hi s hs, List.map_map, List.count_eq_countP, List.count_eq_countP,
    List.countP_map, List.countP_map]
  refine List.countP_congr fun a ha => ?_
  have hsource := h.arm hc hi ha
  simp only [Function.comp_apply, beq_iff_eq]
  exact ⟨(m.contracts h.toFlows).predecessor_inj hcr hsource hs, congrArg _⟩

/-- A merge keeps the invariant. -/
theorem mergeable : g.Mergeable where
  toFlows := m.flows h.toFlows
  arm := m.armsEnter h.toFlows h.arm
  ssa := ⟨m.dominated h, fun hx hj e he => m.arms_once h hx hj he⟩
  callees {x j y} hx hj := by
    obtain ⟨i, hi, rfl⟩ := m.of_instruction hx hj
    obtain ⟨e, he⟩ := mem_live.mp hx
    obtain ⟨c, hc, _⟩ := m.mem_body he
    simpa using h.callees (mem_live_of_mem_body hc) hi

end Mergeable

/-- Phis stay phis. -/
theorem isPhiAt_eq (hx : x ∈ g.live) : g.isPhiAt x = f.isPhiAt x :=
  m.any_instruction hx fun _ => by simp

end Merges

end Dataflow.Function
