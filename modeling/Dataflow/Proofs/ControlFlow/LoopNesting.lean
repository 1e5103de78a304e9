import Dataflow.Proofs.ControlFlow.LoopBodies

/-!
# How loops lie in each other

The blocks that dominate a reachable block dominate each other in one order
(`dominates_or_dominates`). So of two loops around one block, the header of one dominates the header
of the other. Then control gets from that other header to the block without passing the first one,
which puts it into the first body (`header_mem_of_dominates`), and with it its whole loop. So two
loops have no block in common or one lies inside the other, and the innermost loop around a block
lies inside all others around it (`nested_loopForest`).
-/

namespace Dataflow

namespace Function

variable {f : Function} {b c d h k : BlockId} {u w x : List BlockId} {l m : NaturalLoop}

/-- A walk to `c` that begins in another way passes what dominates `c`, on the new or on the old
part. -/
theorem Dominates.mem_graft (hd : f.Dominates d c) (hw : f.Walk (u ++ b :: w))
    (hhead : (u ++ b :: w).head? = some c) (hother : f.Walk (b :: x)) : d ∈ u ∨ d ∈ b :: x := by
  have hgraft := hw.graft hother
  rw [← List.mem_append]
  cases u with
  | nil =>
      cases hhead
      exact hd x hgraft
  | cons c u =>
      cases hhead
      exact hd _ hgraft

/-- Since control passed a dominator `k` of `c` for the last time, it passed no block that `k` does
not dominate. -/
theorem Dominates.not_mem_since (hk : f.Dominates k c) (hh : ¬ f.Dominates k h)
    (hw : f.Walk (u ++ k :: w)) (hhead : (u ++ k :: w).head? = some c) (hu : k ∉ u) : h ∉ u := by
  intro hmem
  obtain ⟨y, hy, hfree⟩ : ∃ y, f.Walk (h :: y) ∧ k ∉ h :: y := by
    simpa only [Dominates, not_forall, exists_prop] using hh
  obtain ⟨front, rest, rfl⟩ := List.append_of_mem hmem
  rw [List.append_assoc, List.cons_append] at hw hhead
  rcases hk.mem_graft hw hhead hy with hin | hin
  · exact hu (List.mem_append_left _ hin)
  · exact hfree hin

/-- Of two dominators of a block that control can get to, one dominates the other. -/
theorem dominates_or_dominates (hb : f.Reachable b) (hh : f.Dominates h b) (hk : f.Dominates k b) :
    f.Dominates h k ∨ f.Dominates k h := by
  rw [or_iff_not_imp_right]
  intro hnot x hx
  obtain ⟨w, hw⟩ := hb
  obtain ⟨u, rest, hsplit, hu⟩ := List.eq_append_cons_of_mem (hk w hw)
  have hhead : (u ++ k :: rest).head? = some b := by rw [← hsplit, List.head?_cons]
  rw [hsplit] at hw
  exact (hh.mem_graft hw hhead hx).resolve_left (hk.not_mem_since hnot hw hhead hu)

/-! ## Two loops around one block -/

section Around

variable (hl : f.loopAt? h = some l) (hm : f.loopAt? k = some m)

/-- What control passed on its way to a block of a loop, since it was last at the header, lies in
the loop. -/
theorem mem_body_of_walk (hl : f.loopAt? h = some l) (hw : f.Walk (u ++ c :: w))
    (hhead : (u ++ c :: w).head? = some b) (hb : b ∈ l.body) (hu : h ∉ u) : c ∈ l.body := by
  induction u generalizing b with
  | nil =>
      cases hhead
      exact hb
  | cons d u ih =>
      cases hhead
      obtain ⟨b', x, hrest⟩ := List.exists_cons_of_ne_nil (l := u ++ c :: w) (by simp)
      rw [List.cons_append, hrest] at hw
      rw [hrest] at ih
      have hne : d ≠ h := fun heq => hu (heq ▸ List.mem_cons_self)
      have hwalk : f.Walk (b' :: x) := Walk.suffix (u := [d]) hw
      have hb' := predecessor_mem_body hl (lt_length_of_loopAt? hl) hb hne hw.mem_successors
        ⟨x, hwalk⟩
      exact ih hwalk rfl hb' fun hin => hu (List.mem_cons_of_mem _ hin)

include hl hm

/-- If two loops have a block in common and the header of one dominates the other header, this one
lies in the first loop. -/
theorem header_mem_of_dominates (hb : b ∈ l.body) (hb' : b ∈ m.body) (hdom : f.Dominates h k)
    (hne : h ≠ k) : k ∈ l.body := by
  obtain ⟨⟨w, hw⟩, hk⟩ := dominates_of_mem_body hm b hb'
  obtain ⟨u, rest, hsplit, hu⟩ := List.eq_append_cons_of_mem (hk w hw)
  have hhead : (u ++ k :: rest).head? = some b := by rw [← hsplit, List.head?_cons]
  rw [hsplit] at hw
  have hnot : ¬ f.Dominates k h := fun hback =>
    hne (hdom.antisymm hback ⟨rest, hw.suffix⟩).symm
  exact mem_body_of_walk hl hw hhead hb (hk.not_mem_since hnot hw hhead hu)

/-- Of two loops around one block, one lies inside the other. -/
theorem inside_or_inside (hne : h ≠ k) (hb : b ∈ l.body) (hb' : b ∈ m.body) :
    l.Inside m ∨ m.Inside l := by
  obtain ⟨hreach, hh⟩ := dominates_of_mem_body hl b hb
  rcases dominates_or_dominates hreach hh (dominates_of_mem_body hm b hb').2 with hdom | hdom
  · exact Or.inr (inside_of_header_mem hm hl (lt_length_of_loopAt? hl) hne.symm
      (header_mem_of_dominates hl hm hb hb' hdom hne))
  · exact Or.inl (inside_of_header_mem hl hm (lt_length_of_loopAt? hm) hne
      (header_mem_of_dominates hm hl hb' hb hdom hne.symm))

end Around

/-! ## The innermost loop -/

/-- Two loops are one, or lie apart, or one lies inside the other. -/
theorem inside_of_mem_loops (hl : l ∈ f.loopForest.loops) (hm : m ∈ f.loopForest.loops)
    (hne : l.header ≠ m.header) : l.body.Disjoint m.body ∨ l.Inside m ∨ m.Inside l := by
  rw [or_iff_not_imp_left]
  intro hmeet
  obtain ⟨b, hb, hb'⟩ : ∃ b, b ∈ l.body ∧ b ∈ m.body := by
    simpa only [List.Disjoint, not_forall, not_false_eq_true, exists_prop, imp_false, not_not]
      using hmeet
  exact inside_or_inside (mem_loops.mp hl).2 (mem_loops.mp hm).2 hne hb hb'

theorem eq_of_header_eq (hl : l ∈ f.loopForest.loops) (hm : m ∈ f.loopForest.loops)
    (heq : l.header = m.header) : l = m := by
  rw [mem_loops] at hl hm
  rw [heq, hm.2] at hl
  exact (Option.some.inj hl.2).symm

/-- The innermost loop around a block is the one that lies inside all others around it. -/
theorem innermost?_eq_some_iff : f.loopForest.innermost? b = some l ↔
    l ∈ f.loopForest.loops ∧ b ∈ l.body ∧
      ∀ m ∈ f.loopForest.loops, b ∈ m.body → m = l ∨ l.Inside m := by
  have hleast : ∀ {l}, f.loopForest.innermost? b = some l → l ∈ f.loopForest.loops ∧ b ∈ l.body ∧
      ∀ m ∈ f.loopForest.loops, b ∈ m.body → m = l ∨ l.Inside m := by
    intro l hl
    obtain ⟨hin, hleast⟩ := NaturalLoop.smallest?_eq_some hl
    rw [List.mem_filter, decide_eq_true_eq] at hin
    refine ⟨hin.1, hin.2, fun m hm hb => ?_⟩
    by_cases heq : m.header = l.header
    · exact Or.inl (eq_of_header_eq hm hin.1 heq)
    · rcases inside_or_inside (mem_loops.mp hm).2 (mem_loops.mp hin.1).2 heq hb hin.2 with h | h
      · have hle := hleast m (by simpa using ⟨hm, hb⟩)
        exact absurd (h.length_lt (nodup_body (mem_loops.mp hm).2)) (Nat.not_lt.mpr hle)
      · exact Or.inr h
  refine ⟨hleast, fun ⟨hl, hb, hin⟩ => ?_⟩
  obtain ⟨m, hm⟩ := LoopForest.exists_innermost? hl hb
  obtain ⟨hmem, hbm, hmin⟩ := hleast hm
  rcases hin m hmem hbm with rfl | hlm
  · exact hm
  rcases hmin l hl hb with rfl | hml
  · exact hm
  have hlt := hlm.length_lt (nodup_body (mem_loops.mp hl).2)
  have hlt' := hml.length_lt (nodup_body (mem_loops.mp hmem).2)
  omega

/-- Two loops of a function have different headers, and they lie apart or one inside the other. The
innermost loop around a block lies inside each other loop around it and so has fewer blocks; around
a header it is the loop of that header. -/
theorem nested_loopForest (f : Function) :
    f.loopForest.loops.Pairwise (fun l m => l.header ≠ m.header ∧
      (l.body.Disjoint m.body ∨ l.Inside m ∨ m.Inside l)) ∧
    (∀ l ∈ f.loopForest.loops, ∀ b ∈ l.body, ∃ k ∈ f.loopForest.loops,
      f.loopForest.innermost? b = some k ∧ b ∈ k.body ∧
      ∀ m ∈ f.loopForest.loops, b ∈ m.body →
        m = k ∨ k.Inside m ∧ k.body.length < m.body.length) ∧
    ∀ l ∈ f.loopForest.loops, f.loopForest.innermost? l.header = some l := by
  refine ⟨?_, fun l hl b hb => ?_, fun l hl => ?_⟩
  · have hheaders : f.loopForest.loops.Pairwise (·.header ≠ ·.header) :=
      List.pairwise_map.mp f.headers_nodup
    exact hheaders.imp_of_mem fun hl hm hne => ⟨hne, inside_of_mem_loops hl hm hne⟩
  · obtain ⟨k, hk⟩ := LoopForest.exists_innermost? hl hb
    obtain ⟨hmem, hbk, hmin⟩ := innermost?_eq_some_iff.mp hk
    exact ⟨k, hmem, hk, hbk, fun m hm hbm => (hmin m hm hbm).imp_right fun hin =>
      ⟨hin, hin.length_lt (nodup_body (mem_loops.mp hmem).2)⟩⟩
  · exact innermost?_header (mem_loops.mp hl).2 (mem_loops.mp hl).1

/-- Around the inner header lie both loops, and the one of that header is the innermost. -/
theorem nested_loopForest_nestedRounds :
    (nestedRounds.loopForest.loops.filter (2 ∈ ·.body)).map (·.header) = [1, 2] ∧
      ∃ k ∈ nestedRounds.loopForest.loops, nestedRounds.loopForest.innermost? 2 = some k ∧
        ∀ m ∈ nestedRounds.loopForest.loops, 2 ∈ m.body →
          m = k ∨ k.Inside m ∧ k.body.length < m.body.length := by
  have hboth : (nestedRounds.loopForest.loops.filter (2 ∈ ·.body)).map (·.header) = [1, 2] := by
    decide +kernel
  obtain ⟨_, hinner, _⟩ := nested_loopForest nestedRounds
  obtain ⟨l, hl, _⟩ := List.mem_map.mp (hboth ▸ List.mem_cons_self)
  obtain ⟨hmem, hbody⟩ := List.mem_filter.mp hl
  obtain ⟨k, hk, hfound, _, hall⟩ := hinner l hmem 2 (of_decide_eq_true hbody)
  exact ⟨hboth, k, hk, hfound, hall⟩

end Function

end Dataflow
