import Dataflow.Proofs.Check.CycleSearch
import Dataflow.Proofs.Ssa.Placement

/-!
# Ranks and runs of the check

A function passes the check for circular dependencies just if its instructions can be ranked so that
each is above those it reads (`Function.check_iff_ranks`). A function without circles has the rank
that counts what an instruction leads to (`Function.height`). `Searches`, `Follows` and `Starts`
tell the search without a bound on its depth, where a derivation is a run that comes to its end; the
check has one such run, and its outcome is that of the bounded search (`Function.checks_iff`).
-/

namespace Dataflow

/-! ## Runs without a bound -/

mutual

/-- Searching the dependencies of an instruction comes to an end. -/
inductive Searches (f : Function) :
    List InstId → InstId → Search → Option (List InstId) × Search → Prop where
  /-- A cycle is found, and the instruction is still marked as being searched. -/
  | found {path id s cycle t} :
      Follows f (path ++ [id]) (f.dependencies id) (s.enter id) (some cycle, t) →
      Searches f path id s (some cycle, t)
  /-- There is none. -/
  | done {path id s t} :
      Follows f (path ++ [id]) (f.dependencies id) (s.enter id) (none, t) →
      Searches f path id s (none, t.leave id)

/-- Going through dependencies comes to an end. -/
inductive Follows (f : Function) :
    List InstId → List InstId → Search → Option (List InstId) × Search → Prop where
  | nil {path s} : Follows f path [] s (none, s)
  /-- The search of a dependency finds a cycle. -/
  | found {path d rest s cycle t} : d ∉ s.visited → Searches f path d s (some cycle, t) →
      Follows f path (d :: rest) s (some cycle, t)
  /-- The search of a dependency finds none. -/
  | next {path d rest s t result} : d ∉ s.visited → Searches f path d s (none, t) →
      Follows f path rest t result → Follows f path (d :: rest) s result
  /-- A dependency is still being searched. -/
  | closed {path d rest s} : d ∈ s.visited → d ∈ s.active →
      Follows f path (d :: rest) s (some (path.drop ((path.idxOf? d).getD 0) ++ [d]), s)
  /-- The search is done with a dependency. -/
  | old {path d rest s result} : d ∈ s.visited → d ∉ s.active → Follows f path rest s result →
      Follows f path (d :: rest) s result

end

/-- Searching from one start after another comes to an end, and finds some cycles. -/
inductive Starts (f : Function) : List InstId → Search → List (List InstId) → Prop where
  | nil {s} : Starts f [] s []
  | found {id rest s cycle t cycles} : f.isOrdered id → id ∉ s.visited →
      Searches f [] id s (some cycle, t) → Starts f rest t cycles →
      Starts f (id :: rest) s (cycle :: cycles)
  | done {id rest s t cycles} : f.isOrdered id → id ∉ s.visited → Searches f [] id s (none, t) →
      Starts f rest t cycles → Starts f (id :: rest) s cycles
  /-- A phi, or an instruction that a search has come to. -/
  | skipped {id rest s cycles} : ¬ (f.isOrdered id ∧ id ∉ s.visited) → Starts f rest s cycles →
      Starts f (id :: rest) s cycles

namespace Function

/-- What blocks list is there, and so are the instructions that live instructions read. -/
structure ReadsArena (f : Function) : Prop where
  listed : ∀ id ∈ f.live, id < f.slots.length
  operands : ∀ id ∈ f.live, ∀ i, f.instruction? id = some i → ∀ d, .result d ∈ i.operands →
    d < f.slots.length

/-- The check of a function comes to an end with the given cycles: what it looks up is there, and so
is a run of the search from each live instruction. -/
structure Checks (f : Function) (cycles : List (List InstId)) : Prop extends f.ReadsArena where
  starts : Starts f f.live {} cycles

/-- Each live instruction other than a phi ranks above every such instruction that it reads. -/
def Ranks (f : Function) (rank : InstId → Nat) : Prop :=
  ∀ x y i j, x ∈ f.live → y ∈ f.live → f.instruction? x = some i → f.instruction? y = some j →
    i.isPhi = false → j.isPhi = false → .result y ∈ i.operands → rank y < rank x

variable {f : Function} {id d x y : InstId} {path ids rest : List InstId} {s t : Search}
  {depth : Nat} {result : Option (List InstId) × Search} {cycles : List (List InstId)}

/-! ### Every search ends -/

theorem isOrdered_of_mem_dependencies (h : d ∈ f.dependencies id) : f.isOrdered d :=
  (dependsOn_iff.mp h).2.1

/-- A search of the given depth ends wherever at most so many instructions are left, and keeps the
marks of what it has come to. -/
def SearchEnds (f : Function) (depth : Nat) : Prop :=
  ∀ path id s, f.isOrdered id → id ∉ s.visited → f.unvisited s ≤ depth →
    Searches f path id s (f.searchFrom depth path id s) ∧
      s.visited ⊆ (f.searchFrom depth path id s).2.visited

/-- Going through dependencies ends if the search of each ends. -/
theorem follow_ends (path : List InstId) (h : f.SearchEnds depth)
    (hids : ∀ d ∈ ids, f.isOrdered d) (hleft : f.unvisited s ≤ depth) :
    Follows f path ids s (Search.follow (f.searchFrom depth path) path ids s) ∧
      s.visited ⊆ (Search.follow (f.searchFrom depth path) path ids s).2.visited := by
  induction ids generalizing s with
  | nil => exact ⟨.nil, fun _ hx => hx⟩
  | cons d rest ih =>
      have hrest : ∀ d ∈ rest, f.isOrdered d := fun d hd => hids d (List.mem_cons_of_mem _ hd)
      rw [Search.follow]
      split_ifs with hold hactive
      · exact ⟨.closed hold hactive, fun _ hx => hx⟩
      · obtain ⟨hrun, hsub⟩ := ih hrest hleft
        exact ⟨.old hold hactive hrun, hsub⟩
      · obtain ⟨hone, hsub⟩ := h path d s (hids d List.mem_cons_self) hold hleft
        generalize f.searchFrom depth path d s = result at hone hsub
        obtain ⟨found, t⟩ := result
        cases found with
        | some _ => exact ⟨.found hold hone, hsub⟩
        | none =>
            obtain ⟨hrun, hsub'⟩ := ih (s := t) hrest (Nat.le_trans (unvisited_le hsub) hleft)
            exact ⟨.next hold hone hrun, fun _ hx => hsub' (hsub hx)⟩

/-- Coming to an instruction leaves fewer, so the depth is never used up. -/
theorem searchFrom_ends (depth : Nat) : f.SearchEnds depth := by
  induction depth with
  | zero =>
      intro path id s hordered hnew hleft
      exact absurd (unvisited_enter (lt_length_of_isOrdered hordered) hnew) (by omega)
  | succ depth ih =>
      intro path id s hordered hnew hleft
      have hlt := unvisited_enter (lt_length_of_isOrdered hordered) hnew
      obtain ⟨hrun, hsub⟩ := follow_ends (path ++ [id]) (s := s.enter id) ih
        (fun d hd => isOrdered_of_mem_dependencies hd)
        (Nat.le_of_lt_succ (Nat.lt_of_lt_of_le hlt hleft))
      have hkeep : s.visited ⊆ (s.enter id).visited := fun _ hx => List.mem_cons_of_mem _ hx
      rw [searchFrom]
      generalize Search.follow (f.searchFrom depth (path ++ [id])) (path ++ [id])
        (f.dependencies id) (s.enter id) = result at hrun hsub
      obtain ⟨found, _⟩ := result
      cases found with
      | some _ => exact ⟨.found hrun, fun _ hx => hsub (hkeep hx)⟩
      | none => exact ⟨.done hrun, fun _ hx => hsub (hkeep hx)⟩

/-- Searching from every start ends, in the cycles that bounded searches find. -/
theorem starts_cyclesFrom (ids : List InstId) (s : Search) :
    Starts f ids s (f.cyclesFrom ids s) := by
  induction ids generalizing s with
  | nil => exact .nil
  | cons id rest ih =>
      rw [cyclesFrom]
      split_ifs with hstart
      · have hone := (searchFrom_ends (f.slots.length + 1) [] id s hstart.1 hstart.2
          (Nat.le_succ_of_le unvisited_le_length)).1
        generalize f.searchFrom (f.slots.length + 1) [] id s = result at hone
        obtain ⟨found, t⟩ := result
        cases found with
        | some _ => exact .found hstart.1 hstart.2 hone (ih t)
        | none => exact .done hstart.1 hstart.2 hone (ih t)
      · exact .skipped hstart (ih s)

end Function

/-! ### A run has one outcome -/

mutual

theorem Searches.unique {f : Function} {path : List InstId} {id : InstId} {s : Search}
    {r r' : Option (List InstId) × Search} (h : Searches f path id s r)
    (h' : Searches f path id s r') : r = r' :=
  match h, h' with
  | .found hrun, .found hrun' => by rw [hrun.unique hrun']
  | .found hrun, .done hrun' => by cases hrun.unique hrun'
  | .done hrun, .found hrun' => by cases hrun.unique hrun'
  | .done hrun, .done hrun' => by cases hrun.unique hrun'; rfl

theorem Follows.unique {f : Function} {path ids : List InstId} {s : Search}
    {r r' : Option (List InstId) × Search} (h : Follows f path ids s r)
    (h' : Follows f path ids s r') : r = r' :=
  match h, h' with
  | .nil, .nil => rfl
  | .found _ hrun, .found _ hrun' => by rw [hrun.unique hrun']
  | .found _ hrun, .next _ hrun' _ => by cases hrun.unique hrun'
  | .found hnew _, .closed hold _ | .found hnew _, .old hold _ _
  | .next hnew _ _, .closed hold _ | .next hnew _ _, .old hold _ _ => absurd hold hnew
  | .next _ hrun _, .found _ hrun' => by cases hrun.unique hrun'
  | .next _ hrun hrest, .next _ hrun' hrest' => by
      cases hrun.unique hrun'
      exact hrest.unique hrest'
  | .closed hold _, .found hnew _ | .closed hold _, .next hnew _ _
  | .old hold _ _, .found hnew _ | .old hold _ _, .next hnew _ _ => absurd hold hnew
  | .closed _ _, .closed _ _ => rfl
  | .closed _ hactive, .old _ hnot _ | .old _ hnot _, .closed _ hactive => absurd hactive hnot
  | .old _ _ hrest, .old _ _ hrest' => hrest.unique hrest'

end

theorem Starts.unique {f : Function} {ids : List InstId} {s : Search}
    {cycles cycles' : List (List InstId)} (h : Starts f ids s cycles)
    (h' : Starts f ids s cycles') : cycles = cycles' := by
  induction h generalizing cycles' with
  | nil => cases h'; rfl
  | found hordered hnew hrun _ ih =>
      cases h' with
      | found _ _ hrun' hrest' =>
          cases hrun.unique hrun'
          rw [ih hrest']
      | done _ _ hrun' _ => cases hrun.unique hrun'
      | skipped hnot _ => exact absurd ⟨hordered, hnew⟩ hnot
  | done hordered hnew hrun _ ih =>
      cases h' with
      | found _ _ hrun' _ => cases hrun.unique hrun'
      | done _ _ hrun' hrest' =>
          cases hrun.unique hrun'
          exact ih hrest'
      | skipped hnot _ => exact absurd ⟨hordered, hnew⟩ hnot
  | skipped hnot _ ih =>
      cases h' with
      | found hordered hnew _ _ | done hordered hnew _ _ => exact absurd ⟨hordered, hnew⟩ hnot
      | skipped _ hrest' => exact ih hrest'

namespace Function

variable {f : Function} {x y : InstId} {cycles : List (List InstId)}

/-- The check has one run, and it ends in the cycles that are found by bounded searches. -/
theorem checks_iff (h : f.ReadsArena) : f.Checks cycles ↔ f.cycles = cycles := by
  constructor
  · intro hrun
    exact (starts_cyclesFrom f.live {}).unique hrun.starts
  · rintro rfl
    exact ⟨h, starts_cyclesFrom f.live {}⟩

/-! ## Ranks -/

open scoped Classical in
/-- How many instructions an instruction leads to. -/
noncomputable def height (f : Function) (x : InstId) : Nat :=
  ((List.range f.slots.length).filter (Relation.TransGen f.DependsOn x)).length

theorem height_lt (h : f.Acyclic) (hxy : f.DependsOn x y) : f.height y < f.height x := by
  classical
  have hsplit : (List.range f.slots.length).filter (Relation.TransGen f.DependsOn y) =
      ((List.range f.slots.length).filter (Relation.TransGen f.DependsOn x)).filter
        (Relation.TransGen f.DependsOn y) := by
    rw [List.filter_filter]
    refine List.filter_congr fun z _ => ?_
    have hhead : Relation.TransGen f.DependsOn y z → Relation.TransGen f.DependsOn x z := .head hxy
    by_cases hyz : Relation.TransGen f.DependsOn y z
    · simp [hyz, hhead hyz]
    · simp [hyz]
  have hy : y < f.slots.length := lt_length_of_isOrdered (dependsOn_iff.mp hxy).2.1
  rw [height, hsplit]
  refine List.length_filter_lt_length_iff_exists.mpr ⟨y, ?_, by simpa using h y⟩
  rw [List.mem_filter, List.mem_range, decide_eq_true_eq]
  exact ⟨hy, .single hxy⟩

theorem ranks_iff {rank : InstId → Nat} :
    f.Ranks rank ↔ ∀ x y, f.DependsOn x y → y ∈ f.live → rank y < rank x := by
  constructor
  · intro h x y hxy hy
    obtain ⟨hx, hordered, i, hi, hphi, hmem⟩ := dependsOn_iff.mp hxy
    obtain ⟨j, hj, hphi'⟩ := (Option.any_eq_true _ _).mp hordered
    exact h x y i j hx hy hi hj hphi (by simpa using hphi') hmem
  · intro h x y i j hx hy hi hj hphi hphi' hmem
    exact h x y (dependsOn_iff.mpr ⟨hx, by simp [isOrdered, hj, hphi'], i, hi, hphi, hmem⟩) hy

/-- The instructions can be ranked just if none depends on itself. -/
theorem exists_ranks_iff : (∃ rank, f.Ranks rank) ↔ f.Acyclic := by
  constructor
  · rintro ⟨rank, hrank⟩ x hcycle
    rw [ranks_iff] at hrank
    -- what leads on is live, so the rank falls along a way to an instruction that leads on
    have hfall : ∀ {y}, Relation.TransGen f.DependsOn x y → y ∈ f.live → rank y < rank x := by
      intro y hxy
      induction hxy with
      | single h => exact hrank _ _ h
      | tail _ h ih => exact fun hy => Nat.lt_trans (hrank _ _ h hy) (ih h.source.1)
    obtain ⟨_, hfirst, _⟩ := Relation.TransGen.head'_iff.mp hcycle
    exact Nat.lt_irrefl _ (hfall hcycle hfirst.source.1)
  · intro h
    exact ⟨f.height, ranks_iff.mpr fun x y hxy _ => height_lt h hxy⟩

/-- The violations that are circular dependencies are the cycles that the search finds. -/
theorem filter_violations : f.violations.filter (·.kind = .circularDependency) =
    f.cycles.map f.cycleViolation := by
  have hstructure : f.structureViolations.filter (·.kind = .circularDependency) = [] :=
    List.filter_eq_nil_iff.mpr fun v hv => by simpa using kind_of_mem_structureViolations hv
  have hcycles : ∀ v ∈ f.cycles.map f.cycleViolation, v.kind = .circularDependency := by
    intro v hv
    obtain ⟨c, _, rfl⟩ := List.mem_map.mp hv
    rfl
  rw [violations, List.filter_append, hstructure, List.nil_append]
  exact List.filter_eq_self.mpr fun v hv => by simpa using hcycles v hv

/-- The check for circular dependencies ends on every function that reads what is there, whatever
circles its operands make, and it reports nothing just if there is a rank by which each live
instruction other than a phi stands above every such instruction that it reads. -/
theorem check_iff_ranks (h : f.ReadsArena) :
    (∀ cycles, f.Checks cycles ↔ f.cycles = cycles) ∧
      (f.violations.filter (·.kind = .circularDependency) = [] ↔ ∃ rank, f.Ranks rank) := by
  refine ⟨fun cycles => checks_iff h, ?_⟩
  rw [filter_violations, List.map_eq_nil_iff, cycles_eq_nil_iff, exists_ranks_iff]

/-- A function that uses results before it defines them, and one of them twice. -/
def usedBefore : Function where
  name := "f"
  ret := .int 32
  params := [⟨"n", .int 32⟩]
  blocks := [⟨"entry", [0]⟩, ⟨"loop", [1, 2, 3, 4, 5]⟩, ⟨"exit", [6]⟩]
  slots := [
    ⟨none, .jump 1, 0⟩,
    ⟨some "i", .phi (.int 32) [⟨.param 0, 0⟩, ⟨.result 2, 1⟩], 1⟩,
    ⟨some "next", .binary .add (.int 32) (.result 3) (.result 4), 1⟩,
    ⟨some "twice", .binary .mul (.int 32) (.result 4) (.const ⟨.int 32, "2"⟩), 1⟩,
    ⟨some "step", .binary .sub (.int 32) (.result 1) (.const ⟨.int 32, "1"⟩), 1⟩,
    ⟨none, .branch (.result 2) 1 2, 1⟩,
    ⟨none, .ret (some ⟨.int 32, .result 2⟩), 2⟩]

/-- The check of `usedBefore` ends without a cycle, so its instructions can be ranked. -/
theorem check_iff_ranks_usedBefore : usedBefore.ReadsArena ∧ usedBefore.Checks [] ∧
    ∃ rank, usedBefore.Ranks rank := by
  have hreads : usedBefore.ReadsArena := by
    refine ⟨by decide, fun id hid i hi d hd => ?_⟩
    have hall : ∀ id ∈ usedBefore.live, ∀ i ∈ usedBefore.instruction? id, ∀ v ∈ i.operands,
        ∀ d ∈ v.result?, d < usedBefore.slots.length := by decide
    exact hall id hid i hi _ hd d rfl
  have hcycles : usedBefore.cycles = [] := by decide
  obtain ⟨hruns, hranks⟩ := check_iff_ranks hreads
  refine ⟨hreads, (hruns []).mpr hcycles, hranks.mp ?_⟩
  rw [filter_violations, hcycles, List.map_nil]

end Function

end Dataflow
