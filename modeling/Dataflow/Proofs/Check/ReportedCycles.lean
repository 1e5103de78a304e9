import Dataflow.Failure
import Dataflow.Proofs.Check.Ranking

/-!
# Which cycles are reported

Every circular dependency that a function is reported for is a path along which each instruction
reads the next (`Function.reported_cycles`). The first one comes back to its start. A later one may
end instead at an instruction that an earlier search left marked, from which dependencies lead to a
circle reported before; then it is no circle. A search that finds a cycle leaves the other
dependencies of its path unsearched, so a circle may go unreported, but only if it leads to another
one that is reported.
-/

namespace Dataflow

namespace Function

/-- Each of two instructions depends on the other, or they are one. -/
def Mutual (f : Function) (x y : InstId) : Prop :=
  Relation.ReflTransGen f.DependsOn x y ∧ Relation.ReflTransGen f.DependsOn y x

variable {f : Function} {c : List InstId} {x z : InstId}

/-- If every circle that `x` leads to leads back to `x`, the instructions of a circle that `x` leads
to depend on `x`, and `x` on them. -/
theorem Closes.mutual (h : f.Closes c) (hz : z ∈ c) (hxz : Relation.ReflTransGen f.DependsOn x z)
    (hback : ∀ y, Relation.ReflTransGen f.DependsOn x y → Relation.TransGen f.DependsOn y y →
      Relation.ReflTransGen f.DependsOn y x) : ∀ y ∈ c, f.Mutual x y := by
  intro y hy
  have hzx := hback z hxz (h.transGen hz hz)
  exact ⟨hxz.trans (h.transGen hz hy).to_reflTransGen,
    (h.transGen hy hz).to_reflTransGen.trans hzx⟩

/-- The circular dependencies that a function is reported for are paths along dependencies. Each is
a circle, or ends beside itself at an instruction that leads to a circle reported before it. Every
instruction that depends on itself leads to a circle that is reported; and that circle is made of
instructions that depend on it and it on them, if every circle it leads to leads back to it. -/
theorem reported_cycles (f : Function) :
    f.violations.filter (·.kind = .circularDependency) = f.cycles.map f.cycleViolation ∧
    (∀ before c after, f.cycles = before ++ c :: after → f.Reported before c) ∧
    ∀ x, Relation.TransGen f.DependsOn x x → ∃ c ∈ f.cycles, f.Closes c ∧
      (∃ z ∈ c, Relation.ReflTransGen f.DependsOn x z) ∧
      ((∀ y, Relation.ReflTransGen f.DependsOn x y → Relation.TransGen f.DependsOn y y →
        Relation.ReflTransGen f.DependsOn y x) → ∀ z ∈ c, f.Mutual x z) := by
  refine ⟨filter_violations, fun before c after => reported_of_mem_cycles, fun x hx => ?_⟩
  obtain ⟨c, hc, hcloses, z, hz, hxz⟩ := returns_of_transGen hx
  exact ⟨c, hc, hcloses, ⟨z, hz, hxz⟩, hcloses.mutual hz hxz⟩

/-- Every report is a path along dependencies that comes back to where it starts. -/
def ReportsCircles (f : Function) : Prop :=
  ∀ c ∈ f.cycles, c.IsChain f.DependsOn ∧ 2 ≤ c.length ∧ c.getLast? = c.head?

/-- Every set of instructions that depend on one another has a report that lies in it. -/
def ReportsEach (f : Function) : Prop :=
  ∀ x, Relation.TransGen f.DependsOn x x → ∃ c ∈ f.cycles, ∀ z ∈ c, f.Mutual x z

/-- Two instructions in a circle, one that is in a circle of its own and is read by them, and one
that reads them. -/
def hiddenCircle : Function where
  name := "f"
  ret := .void
  params := []
  blocks := [⟨"entry", [0, 1, 2, 3, 4]⟩]
  slots := [
    ⟨some "x", .binary .add (.int 32) (.result 1) (.const ⟨.int 32, "1"⟩), 0⟩,
    ⟨some "y", .binary .add (.int 32) (.result 2) (.result 0), 0⟩,
    ⟨some "a", .binary .add (.int 32) (.result 2) (.const ⟨.int 32, "1"⟩), 0⟩,
    ⟨some "c", .binary .add (.int 32) (.result 0) (.const ⟨.int 32, "1"⟩), 0⟩,
    ⟨none, .ret none, 0⟩]

/-- The text of `hiddenCircle`. -/
def hiddenCircleText : String :=
  "define void @f() \x7b\nentry:\n  %x = add i32 %y, 1\n  %y = add i32 %a, %x\n" ++
    "  %a = add i32 %a, 1\n  %c = add i32 %x, 1\n  ret void\n\x7d\n"

theorem read_hiddenCircle : Module.read hiddenCircleText = .ok ⟨[hiddenCircle]⟩ := by
  decide +kernel

theorem cycles_hiddenCircle : hiddenCircle.cycles = [[2, 2], [3, 0]] := by decide

/-- From `a` dependencies lead only to `a`, and none lead to `c`. -/
theorem not_mutual_hiddenCircle : ∀ z ∈ [2, 3], ¬ hiddenCircle.Mutual 0 z := by
  have hstay : ∀ ids : List InstId, (∀ x ∈ ids, ∀ y ∈ hiddenCircle.dependencies x, y ∈ ids) →
      ∀ {x y}, x ∈ ids → Relation.ReflTransGen hiddenCircle.DependsOn x y → y ∈ ids := by
    intro ids hids x y hx hway
    induction hway with
    | refl => exact hx
    | tail _ h ih => exact hids _ ih _ h
  intro z hz hmutual
  obtain rfl | rfl : z = 2 ∨ z = 3 := by simpa using hz
  · exact absurd (hstay [2] (by decide) (by decide) hmutual.2) (by decide)
  · exact absurd (hstay [0, 1, 2] (by decide) (by decide) hmutual.1) (by decide)

/-- In `hiddenCircle` the path from `c` to `x` is reported, which is no circle, and the circle of
`x` and `y` is not. -/
theorem not_reportsCircles_hiddenCircle : Module.read hiddenCircleText = .ok ⟨[hiddenCircle]⟩ ∧
    ¬ hiddenCircle.ReportsCircles ∧ ¬ hiddenCircle.ReportsEach := by
  refine ⟨read_hiddenCircle, fun h => ?_, fun h => ?_⟩
  · have hclosed := (h [3, 0] (by rw [cycles_hiddenCircle]; simp)).2.2
    exact absurd hclosed (by decide)
  · have hxy : hiddenCircle.DependsOn 0 1 := by unfold DependsOn; decide
    have hyx : hiddenCircle.DependsOn 1 0 := by unfold DependsOn; decide
    obtain ⟨c, hc, hall⟩ := h 0 (.head hxy (.single hyx))
    rw [cycles_hiddenCircle] at hc
    obtain rfl | rfl : c = [2, 2] ∨ c = [3, 0] := by simpa using hc
    · exact not_mutual_hiddenCircle 2 (by simp) (hall 2 (by simp))
    · exact not_mutual_hiddenCircle 3 (by simp) (hall 3 (by simp))

/-- In `hiddenCircle` the second report is a path beside the first, which is a circle. -/
theorem reported_cycles_hiddenCircle : hiddenCircle.Reported [] [2, 2] ∧
    hiddenCircle.Reported [[2, 2]] [3, 0] := by
  obtain ⟨_, hreports, _⟩ := reported_cycles hiddenCircle
  exact ⟨hreports [] _ [[3, 0]] cycles_hiddenCircle, hreports [[2, 2]] _ [] cycles_hiddenCircle⟩

end Function

end Dataflow
