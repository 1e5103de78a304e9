import Dataflow.Check.Dependence
import Mathlib.Data.List.Basic
import Mathlib.Data.List.Chain
import Mathlib.Logic.Relation
import Mathlib.Order.Basic
import Mathlib.Tactic.ByContra
import Mathlib.Tactic.SplitIfs

/-!
# The search for circular dependencies

The search finds a cycle just if there is one (`cycles_eq_nil_iff`). An instruction that the search
is done with has a dependency tree of finite height (`Marked`). The instructions that are marked as
being searched are those on the path that the search has come along, and those that earlier searches
left behind when they found a cycle (`Standing`). Coming back to one on the path closes a circle.
From one that was left behind dependencies lead to a circle that was reported before (`Returns`),
and coming to it gives a report that is no circle (`Reported`). In the end every instruction that
was searched either has a dependency tree of finite height or leads to a reported circle
(`grounded_or_returns`).
-/

namespace Dataflow.Function

variable {f : Function} {x y z d id : InstId} {ids path c : List InstId} {s t : Search}
  {found more : List (List InstId)} {depth : Nat}

/-- Instruction `x` reads the result of `y`, and neither of them is a phi. -/
def DependsOn (f : Function) (x y : InstId) : Prop := y ∈ f.dependencies x

/-- No instruction depends on itself through others. -/
def Acyclic (f : Function) : Prop := ∀ x, ¬ Relation.TransGen f.DependsOn x x

theorem dependsOn_iff : f.DependsOn x y ↔ x ∈ f.live ∧ f.isOrdered y ∧
    ∃ i, f.instruction? x = some i ∧ i.isPhi = false ∧ .result y ∈ i.operands := by
  have hresult : ∀ {l : List Operand}, y ∈ l.filterMap (·.result?) ↔ .result y ∈ l := by
    intro l
    rw [List.mem_filterMap]
    refine ⟨fun ⟨v, hv, heq⟩ => ?_, fun hy => ⟨_, hy, rfl⟩⟩
    cases v <;> cases heq
    exact hv
  rw [DependsOn, dependencies]
  split
  · rename_i h
    obtain ⟨i, hi, hphi⟩ := (Option.any_eq_true _ _).mp h.2
    simp only [List.mem_filter, hresult, hi, Option.elim_some, h.1, true_and,
      Option.some.injEq, exists_eq_left', (by simpa using hphi : i.isPhi = false)]
    exact and_comm
  · rename_i h
    refine ⟨fun hmem => absurd hmem List.not_mem_nil, fun ⟨hlive, _, i, hi, hphi, _⟩ => ?_⟩
    exact absurd ⟨hlive, by simp [isOrdered, hi, hphi]⟩ h

/-- Only live instructions other than phis depend on others. -/
theorem DependsOn.source (h : f.DependsOn x y) : x ∈ f.live ∧ f.isOrdered x := by
  obtain ⟨hlive, _, i, hi, hphi, _⟩ := dependsOn_iff.mp h
  exact ⟨hlive, by simp [isOrdered, hi, hphi]⟩

theorem lt_length_of_isOrdered (h : f.isOrdered x) : x < f.slots.length := by
  by_contra hle
  simp [isOrdered, instruction?, List.getElem?_eq_none (Nat.le_of_not_lt hle)] at h

/-! ## Marks -/

/-- Every dependency of `x` ends after finitely many steps. -/
abbrev Grounded (f : Function) (x : InstId) : Prop := Acc (flip f.DependsOn) x

theorem Grounded.not_cyclic (h : f.Grounded x) : ¬ Relation.TransGen f.DependsOn x x := by
  induction h with
  | intro x _ ih =>
      intro hcycle
      obtain ⟨y, hxy, hyx⟩ := Relation.TransGen.head'_iff.mp hcycle
      exact ih y hxy (.tail' hyx hxy)

/-- What the marks of the search mean. -/
structure Marked (f : Function) (s : Search) : Prop where
  active : ∀ x ∈ s.active, x ∈ s.visited
  done : ∀ x ∈ s.visited, x ∉ s.active → f.Grounded x

/-- How many instructions the search has not come to. -/
def unvisited (f : Function) (s : Search) : Nat :=
  ((List.range f.slots.length).filter (· ∉ s.visited)).length

theorem unvisited_enter (hid : id < f.slots.length) (hnew : id ∉ s.visited) :
    f.unvisited (s.enter id) < f.unvisited s := by
  have hsplit : (List.range f.slots.length).filter (· ∉ (s.enter id).visited) =
      ((List.range f.slots.length).filter (· ∉ s.visited)).filter (· ≠ id) := by
    rw [List.filter_filter]
    refine List.filter_congr fun x _ => ?_
    simp [Search.enter]
  rw [unvisited, hsplit]
  refine List.length_filter_lt_length_iff_exists.mpr ⟨id, ?_, by simp⟩
  simpa [List.mem_filter] using ⟨hid, hnew⟩

theorem unvisited_le (h : s.visited ⊆ t.visited) : f.unvisited t ≤ f.unvisited s := by
  rw [unvisited, unvisited, ← List.countP_eq_length_filter, ← List.countP_eq_length_filter]
  refine List.countP_mono_left fun x _ hx => ?_
  simp only [decide_eq_true_eq] at hx ⊢
  exact fun hs => hx (h hs)

theorem Marked.enter (hs : f.Marked s) : f.Marked (s.enter id) where
  active x hx := by
    rcases List.mem_cons.mp hx with rfl | hx
    · exact List.mem_cons_self
    · exact List.mem_cons_of_mem _ (hs.active x hx)
  done x hx hnot := by
    obtain ⟨hne, hnot⟩ := not_or.mp (mt List.mem_cons.mpr hnot)
    exact hs.done x ((List.mem_cons.mp hx).resolve_left hne) hnot

/-- An instruction is done with when its dependencies are. -/
theorem Marked.leave (ht : f.Marked t) (hid : f.Grounded id) : f.Marked (t.leave id) where
  active x hx := ht.active x (List.mem_filter.mp hx).1
  done x hx hnot := by
    by_cases heq : x = id
    · exact heq ▸ hid
    · refine ht.done x hx fun hmem => hnot ?_
      exact List.mem_filter.mpr ⟨hmem, by simpa using heq⟩

/-! ## Reports -/

/-- A path along dependencies that comes back to where it starts, and to nothing else twice. -/
structure Closes (f : Function) (c : List InstId) : Prop where
  chain : c.IsChain f.DependsOn
  two : 2 ≤ c.length
  nodup : c.dropLast.Nodup
  closed : c.getLast? = c.head?

/-- From `x` dependencies lead to a circle among those that were found. -/
def Returns (f : Function) (found : List (List InstId)) (x : InstId) : Prop :=
  ∃ c ∈ found, f.Closes c ∧ ∃ z ∈ c, Relation.ReflTransGen f.DependsOn x z

/-- What a report is that comes after the reports `found`: a circle, or a path along dependencies to
an instruction beside it from which they lead to a circle found before. -/
inductive Reported (f : Function) (found : List (List InstId)) (c : List InstId) : Prop where
  | circle : f.Closes c → Reported f found c
  | beside {path : List InstId} {d : InstId} : c = path ++ [d] → path ≠ [] →
      c.IsChain f.DependsOn → c.Nodup → f.Returns found d → Reported f found c

theorem Returns.head (h : f.Returns found y) (hxy : f.DependsOn x y) : f.Returns found x := by
  obtain ⟨c, hc, hcloses, z, hz, hway⟩ := h
  exact ⟨c, hc, hcloses, z, hz, .head hxy hway⟩

theorem Returns.mono (h : f.Returns found x) (hsub : found ⊆ more) : f.Returns more x := by
  obtain ⟨c, hc, hrest⟩ := h
  exact ⟨c, hsub hc, hrest⟩

theorem Returns.concat (h : f.Returns found x) : f.Returns (found ++ [c]) x :=
  h.mono (List.subset_append_left _ _)

/-- Dependencies lead from each instruction of a chain to its last. -/
theorem transGen_of_isChain (hc : (c ++ [z]).IsChain f.DependsOn) (hx : x ∈ c) :
    Relation.TransGen f.DependsOn x z := by
  induction c generalizing x with
  | nil => cases hx
  | cons w c ih =>
      cases c with
      | nil =>
          obtain rfl := List.mem_singleton.mp hx
          exact .single (List.isChain_pair.mp hc)
      | cons u c =>
          obtain ⟨hwu, hrest⟩ := List.isChain_cons_cons.mp hc
          rcases List.mem_cons.mp hx with rfl | hx
          · exact .head hwu (ih hrest List.mem_cons_self)
          · exact ih hrest hx

/-- A circle is one: dependencies lead from each of its instructions to each. -/
theorem Closes.transGen (h : f.Closes c) (hx : x ∈ c) (hy : y ∈ c) :
    Relation.TransGen f.DependsOn x y := by
  obtain ⟨w, rest, rfl⟩ := List.exists_cons_of_length_pos (Nat.zero_lt_of_lt h.two)
  obtain ⟨middle, hmiddle⟩ : ∃ middle, rest = middle ++ [w] := by
    have hlast := h.closed
    have hne : rest ≠ [] := by
      rintro rfl
      exact absurd h.two (by simp)
    rw [List.getLast?_cons_of_ne_nil hne, List.head?_cons] at hlast
    exact List.getLast?_eq_some_iff.mp hlast
  subst hmiddle
  have hto : ∀ x ∈ w :: (middle ++ [w]), Relation.TransGen f.DependsOn x w := by
    intro x hx
    refine transGen_of_isChain (c := w :: middle) h.chain ?_
    simp only [List.mem_cons, List.mem_append, List.not_mem_nil, or_false] at hx ⊢
    exact hx.elim .inl fun hx => hx.symm
  have hfrom : ∀ y ∈ w :: (middle ++ [w]), Relation.TransGen f.DependsOn w y := by
    intro y hy
    obtain ⟨front, back, hsplit⟩ := List.append_of_mem hy
    cases front with
    | nil =>
        rw [List.nil_append, List.cons.injEq] at hsplit
        exact hsplit.1 ▸ hto w List.mem_cons_self
    | cons u front =>
        rw [List.cons_append, List.cons.injEq] at hsplit
        obtain ⟨rfl, hsplit⟩ := hsplit
        have hchain := h.chain
        rw [hsplit, ← List.cons_append, List.append_cons] at hchain
        exact transGen_of_isChain hchain.left_of_append List.mem_cons_self
  exact (hto x hx).trans (hfrom y hy)

/-! ## The search -/

/-- What is known when the search has come along a path, after the reports `found`. -/
structure Standing (f : Function) (found : List (List InstId)) (path : List InstId) (s : Search) :
    Prop where
  marked : f.Marked s
  chain : path.IsChain f.DependsOn
  nodup : path.Nodup
  active : ∀ x ∈ path, x ∈ s.active
  /-- What earlier searches left behind leads to a circle that they found. -/
  stale : ∀ x ∈ s.active, x ∉ path → f.Returns found x

/-- A search of the instructions `ids` from the marks `s` reports `c` and leaves the marks `t`. -/
structure Finds (f : Function) (found : List (List InstId)) (s : Search) (ids c : List InstId)
    (t : Search) : Prop where
  marked : f.Marked t
  visited : s.visited ⊆ t.visited
  reported : f.Reported found c
  start : ∃ d ∈ ids, d ∈ t.visited ∧ f.Returns (found ++ [c]) d
  active : ∀ x ∈ t.active, x ∈ s.active ∨ f.Returns (found ++ [c]) x

/-- A search of the instructions `ids` from the marks `s` is done with them and leaves `t`. -/
structure Clears (f : Function) (s : Search) (ids : List InstId) (t : Search) : Prop where
  marked : f.Marked t
  active : t.active = s.active
  visited : s.visited ⊆ t.visited
  done : ∀ x ∈ ids, x ∈ t.visited ∧ x ∉ t.active

/-- What a search of the instructions `ids` from the marks `s` gives. -/
def Searched (f : Function) (found : List (List InstId)) (s : Search) (ids : List InstId) :
    Option (List InstId) × Search → Prop
  | (some c, t) => f.Finds found s ids c t
  | (none, t) => f.Clears s ids t

/-- What is asked of a search of one instruction that is come to along `path`, with at most `depth`
others left. -/
def Visits (f : Function) (found : List (List InstId)) (depth : Nat) (path : List InstId)
    (visit : InstId → Search → Option (List InstId) × Search) : Prop :=
  ∀ id s, f.Standing found path s → f.unvisited s ≤ depth → f.isOrdered id → id ∉ s.visited →
    (path ++ [id]).IsChain f.DependsOn → f.Searched found s [id] (visit id s)

/-- Marks alone matter. -/
theorem Standing.of_clears (h : f.Standing found path s) (ht : f.Clears s ids t) :
    f.Standing found path t :=
  ⟨ht.marked, h.chain, h.nodup, ht.active ▸ h.active, ht.active ▸ h.stale⟩

theorem Standing.enter (h : f.Standing found path s) (hnew : id ∉ s.visited)
    (hchain : (path ++ [id]).IsChain f.DependsOn) :
    f.Standing found (path ++ [id]) (s.enter id) where
  marked := h.marked.enter
  chain := hchain
  nodup := by
    rw [List.nodup_append]
    refine ⟨h.nodup, by simp, fun x hx y hy heq => hnew ?_⟩
    obtain rfl := List.mem_singleton.mp hy
    exact h.marked.active _ (h.active _ (heq ▸ hx))
  active x hx := by
    rcases List.mem_append.mp hx with hx | hx
    · exact List.mem_cons_of_mem _ (h.active x hx)
    · exact List.mem_singleton.mp hx ▸ List.mem_cons_self
  stale x hx hnot := by
    rw [List.mem_append, List.mem_singleton, not_or] at hnot
    exact h.stale x ((List.mem_cons.mp hx).resolve_left hnot.2) hnot.1

/-- Coming to an instruction that is still marked as being searched. -/
theorem Standing.reported (h : f.Standing found path s) (hne : path ≠ []) (hd : d ∈ s.active)
    (hchain : (path ++ [d]).IsChain f.DependsOn) :
    f.Reported found (path.drop ((path.idxOf? d).getD 0) ++ [d]) ∧
      f.Returns (found ++ [path.drop ((path.idxOf? d).getD 0) ++ [d]]) d := by
  cases hindex : path.idxOf? d with
  | none =>
      have hnot : d ∉ path := List.idxOf?_eq_none_iff.mp hindex
      have hreturns := h.stale d hd hnot
      rw [Option.getD_none, List.drop_zero]
      refine ⟨.beside rfl hne hchain ?_ hreturns, hreturns.concat⟩
      exact List.nodup_append.mpr ⟨h.nodup, by simp, fun x hx y hy heq =>
        hnot (List.mem_singleton.mp hy ▸ heq ▸ hx)⟩
  | some i =>
      obtain ⟨hi, hget, _⟩ := List.idxOf?_eq_some_iff.mp hindex
      have hdrop : path.drop i = d :: path.drop (i + 1) := by
        rw [List.drop_eq_getElem_cons hi, hget]
      have hsuffix : path.drop i ++ [d] <:+ path ++ [d] :=
        ⟨path.take i, by rw [← List.append_assoc, List.take_append_drop]⟩
      have hcloses : f.Closes (path.drop i ++ [d]) := by
        refine ⟨hchain.suffix hsuffix, by simp [hdrop], ?_, ?_⟩
        · rw [List.dropLast_concat]
          exact h.nodup.sublist (List.drop_sublist i path)
        · rw [List.getLast?_concat, hdrop, List.cons_append, List.head?_cons]
      rw [Option.getD_some]
      exact ⟨.circle hcloses, _, by simp, hcloses, d, by simp, .refl⟩

/-- Going through the dependencies of the last instruction of a path. -/
theorem searched_follow {visit : InstId → Search → Option (List InstId) × Search}
    (hvisit : f.Visits found depth path visit) (hne : path ≠ [])
    (hids : ∀ d ∈ ids, f.isOrdered d ∧ (path ++ [d]).IsChain f.DependsOn)
    (hs : f.Standing found path s) (hleft : f.unvisited s ≤ depth) :
    f.Searched found s ids (Search.follow visit path ids s) := by
  induction ids generalizing s with
  | nil => exact ⟨hs.marked, rfl, fun _ hx => hx, fun _ hx => absurd hx List.not_mem_nil⟩
  | cons d rest ih =>
      obtain ⟨hordered, hchain⟩ := hids d List.mem_cons_self
      have hrest := fun d hd => hids d (List.mem_cons_of_mem _ hd)
      rw [Search.follow]
      split_ifs with hold hactive
      · obtain ⟨hreported, hreturns⟩ := hs.reported hne hactive hchain
        exact ⟨hs.marked, fun _ hx => hx, hreported, ⟨d, List.mem_cons_self, hold, hreturns⟩,
          fun _ hx => .inl hx⟩
      · have hmore := ih hrest hs hleft
        generalize Search.follow visit path rest s = result at hmore
        match result, hmore with
        | (some _, _), hmore =>
            obtain ⟨y, hy, hstart⟩ := hmore.start
            exact { hmore with start := ⟨y, List.mem_cons_of_mem _ hy, hstart⟩ }
        | (none, u), hmore =>
            exact ⟨hmore.marked, hmore.active, hmore.visited, List.forall_mem_cons.mpr
              ⟨⟨hmore.visited hold, hmore.active ▸ hactive⟩, hmore.done⟩⟩
      · have hone := hvisit d s hs hleft hordered hold hchain
        generalize visit d s = result at hone
        match result, hone with
        | (some _, _), hone =>
            obtain ⟨y, hy, hstart⟩ := hone.start
            exact { hone with start := ⟨y, List.mem_singleton.mp hy ▸ List.mem_cons_self, hstart⟩ }
        | (none, t), hone =>
            have hmore := ih hrest (hs.of_clears hone)
              (Nat.le_trans (unvisited_le hone.visited) hleft)
            dsimp only
            generalize Search.follow visit path rest t = result at hmore
            match result, hmore with
            | (some _, _), hmore =>
                obtain ⟨y, hy, hstart⟩ := hmore.start
                exact ⟨hmore.marked, List.Subset.trans hone.visited hmore.visited, hmore.reported,
                  ⟨y, List.mem_cons_of_mem _ hy, hstart⟩, hone.active ▸ hmore.active⟩
            | (none, u), hmore =>
                obtain ⟨hmem, hnot⟩ := hone.done d List.mem_cons_self
                exact ⟨hmore.marked, hmore.active.trans hone.active,
                  List.Subset.trans hone.visited hmore.visited, List.forall_mem_cons.mpr
                    ⟨⟨hmore.visited hmem, hmore.active ▸ hnot⟩, hmore.done⟩⟩

theorem visits_searchFrom (depth : Nat) (path : List InstId) :
    f.Visits found depth path (f.searchFrom depth path) := by
  induction depth generalizing path with
  | zero =>
      intro id s _ hleft hordered hnew _
      exact absurd (unvisited_enter (lt_length_of_isOrdered hordered) hnew) (by omega)
  | succ depth ih =>
      intro id s hs hleft hordered hnew hchain
      have hlt := unvisited_enter (lt_length_of_isOrdered hordered) hnew
      have hdeps : f.Searched found (s.enter id) (f.dependencies id)
          (Search.follow (f.searchFrom depth (path ++ [id])) (path ++ [id]) (f.dependencies id)
            (s.enter id)) := by
        refine searched_follow (ih _) (by simp) (fun d hd => ⟨(dependsOn_iff.mp hd).2.1, ?_⟩)
          (hs.enter hnew hchain) (Nat.le_of_lt_succ (Nat.lt_of_lt_of_le hlt hleft))
        exact hchain.append (.singleton d) (by simpa using show f.DependsOn id d from hd)
      have hkeep : s.visited ⊆ (s.enter id).visited := fun _ hx => List.mem_cons_of_mem _ hx
      rw [searchFrom]
      generalize Search.follow (f.searchFrom depth (path ++ [id])) (path ++ [id])
        (f.dependencies id) (s.enter id) = result at hdeps
      match result, hdeps with
      | (some c, t), hdeps =>
          obtain ⟨d, hd, _, hreturns⟩ := hdeps.start
          have hreturns' : f.Returns (found ++ [c]) id := hreturns.head hd
          refine ⟨hdeps.marked, List.Subset.trans hkeep hdeps.visited, hdeps.reported,
            ⟨id, List.mem_cons_self, hdeps.visited List.mem_cons_self, hreturns'⟩, fun x hx => ?_⟩
          rcases hdeps.active x hx with hx | hx
          · rcases List.mem_cons.mp hx with rfl | hx
            · exact .inr hreturns'
            · exact .inl hx
          · exact .inr hx
      | (none, t), hdeps =>
          have hground : f.Grounded id := .intro _ fun d hd =>
            hdeps.marked.done d (hdeps.done d hd).1 (hdeps.done d hd).2
          have hout : id ∉ s.active := fun hmem => hnew (hs.marked.active id hmem)
          have hactive : (t.leave id).active = s.active := by
            have hself : s.active.filter (· ≠ id) = s.active :=
              List.filter_eq_self.mpr fun x hx => by
                simpa using fun heq : x = id => hout (heq ▸ hx)
            rw [Search.leave, hdeps.active, Search.enter]
            simpa using hself
          refine ⟨hdeps.marked.leave hground, hactive, List.Subset.trans hkeep hdeps.visited,
            fun x hx => ?_⟩
          rw [List.mem_singleton.mp hx, hactive]
          exact ⟨hdeps.visited List.mem_cons_self, hout⟩

theorem unvisited_le_length : f.unvisited s ≤ f.slots.length := by
  have hle := List.length_filter_le (· ∉ s.visited) (List.range f.slots.length)
  rwa [List.length_range] at hle

/-- Searching one instruction after another, from marks that earlier searches left. -/
theorem cyclesFrom_spec (ids : List InstId) (hs : f.Standing found [] s) :
    (∀ before c after, f.cyclesFrom ids s = before ++ c :: after →
      f.Reported (found ++ before) c) ∧
    ∃ t, f.Standing (found ++ f.cyclesFrom ids s) [] t ∧ s.visited ⊆ t.visited ∧
      ∀ x ∈ ids, f.isOrdered x → x ∈ t.visited := by
  induction ids generalizing found s with
  | nil =>
      refine ⟨fun before c after heq => ?_, s, ?_, fun _ hx => hx,
        fun x hx => absurd hx List.not_mem_nil⟩
      · simp [cyclesFrom] at heq
      · simpa [cyclesFrom] using hs
  | cons id rest ih =>
      rw [cyclesFrom]
      split_ifs with hstart
      · have hone := visits_searchFrom (f.slots.length + 1) [] id s hs
          (Nat.le_succ_of_le unvisited_le_length) hstart.1 hstart.2 (.singleton id)
        generalize f.searchFrom (f.slots.length + 1) [] id s = result at hone
        match result, hone with
        | (some c, t), hone =>
            obtain ⟨y, hy, hmem, _⟩ := hone.start
            obtain rfl := List.mem_singleton.mp hy
            have ht : f.Standing (found ++ [c]) [] t := by
              refine ⟨hone.marked, .nil, List.nodup_nil, by simp, fun x hx _ => ?_⟩
              exact (hone.active x hx).elim (fun hx => (hs.stale x hx List.not_mem_nil).concat) id
            obtain ⟨hreports, u, hu, hsub, hall⟩ := ih ht
            refine ⟨fun before c' after heq => ?_, u, by simpa using hu,
              List.Subset.trans hone.visited hsub, ?_⟩
            · cases before with
              | nil =>
                  rw [List.nil_append, List.cons.injEq] at heq
                  simpa [← heq.1] using hone.reported
              | cons b before =>
                  rw [List.cons_append, List.cons.injEq] at heq
                  simpa [heq.1] using hreports before c' after heq.2
            · exact List.forall_mem_cons.mpr ⟨fun _ => hsub hmem, hall⟩
        | (none, t), hone =>
            obtain ⟨hreports, u, hu, hsub, hall⟩ := ih (hs.of_clears hone)
            exact ⟨hreports, u, hu, List.Subset.trans hone.visited hsub, List.forall_mem_cons.mpr
              ⟨fun _ => hsub (hone.done id List.mem_cons_self).1, hall⟩⟩
      · obtain ⟨hreports, u, hu, hsub, hall⟩ := ih hs
        refine ⟨hreports, u, hu, hsub, List.forall_mem_cons.mpr ⟨fun hordered => hsub ?_, hall⟩⟩
        by_contra hnew
        exact hstart ⟨hordered, hnew⟩

/-! ## The check -/

theorem standing_start : f.Standing [] [] {} where
  marked := ⟨fun _ hx => absurd hx List.not_mem_nil, fun _ hx => absurd hx List.not_mem_nil⟩
  chain := .nil
  nodup := List.nodup_nil
  active _ hx := absurd hx List.not_mem_nil
  stale _ hx := absurd hx List.not_mem_nil

/-- Each report is a circle or leads beside it to one that was reported before. -/
theorem reported_of_mem_cycles {before after : List (List InstId)}
    (h : f.cycles = before ++ c :: after) : f.Reported before c := by
  simpa using (cyclesFrom_spec f.live standing_start).1 before c after h

/-- Every instruction that takes part in the check has a dependency tree of finite height or leads
to a circle that is reported. -/
theorem grounded_or_returns (hx : x ∈ f.live) (hordered : f.isOrdered x) :
    f.Grounded x ∨ f.Returns f.cycles x := by
  obtain ⟨t, ht, _, hall⟩ := (cyclesFrom_spec f.live standing_start).2
  have hmem := hall x hx hordered
  by_cases hactive : x ∈ t.active
  · exact .inr (ht.stale x hactive List.not_mem_nil)
  · exact .inl (ht.marked.done x hmem hactive)

/-- An instruction that depends on itself leads to a circle that is reported. -/
theorem returns_of_transGen (hcycle : Relation.TransGen f.DependsOn x x) :
    f.Returns f.cycles x := by
  obtain ⟨y, hxy, _⟩ := Relation.TransGen.head'_iff.mp hcycle
  exact (grounded_or_returns hxy.source.1 hxy.source.2).resolve_left
    fun hground => hground.not_cyclic hcycle

/-- The check reports nothing just if no instruction depends on itself. -/
theorem cycles_eq_nil_iff : f.cycles = [] ↔ f.Acyclic := by
  constructor
  · intro h x hcycle
    obtain ⟨c, hc, _⟩ := returns_of_transGen hcycle
    rw [h] at hc
    cases hc
  · intro h
    by_contra hne
    obtain ⟨c, after, hsplit⟩ := List.exists_cons_of_ne_nil hne
    have hfirst : f.cycles = [] ++ c :: after := hsplit
    cases reported_of_mem_cycles hfirst with
    | circle hcloses =>
        obtain ⟨w, hw⟩ := List.exists_mem_of_length_pos (Nat.zero_lt_of_lt hcloses.two)
        exact h w (hcloses.transGen hw hw)
    | beside _ _ _ _ hreturns =>
        obtain ⟨_, hmem, _⟩ := hreturns
        cases hmem

end Dataflow.Function
