import Dataflow.Proofs.Lowering.Growth

/-!
# Operators in time

The condition of a branch or a select gets its operator when the steers of the branch or select are
made, so what has an operator by then depends on the order in which steers are made. The pairs of a
draft are in the reverse of this order. `Function.InTime f steers id x` says that instruction `x` is
an operator when the steers of `id` are wired: by its role, or because it is the condition of `id`
or of something that got its steers before. This does not change while the draft grows
(`Draft.Le.inTime`).
-/

namespace Dataflow

/-- The branches and selects that got their steers before `id`. -/
def pairedBefore (steers : List (InstId × SteerPair)) (id : InstId) : List InstId :=
  (steers.reverse.map (·.1)).takeWhile (· ≠ id)

/-- Instruction `x` is an operator by the time the steers of `id` are wired. -/
def Function.InTime (f : Function) (steers : List (InstId × SteerPair)) (id x : InstId) : Prop :=
  f.IsSolid x ∨ (∃ i, f.instruction? x = some i ∧ i.hasNode = true) ∧
    ∃ u j, u ∈ id :: pairedBefore steers id ∧ f.instruction? u = some j ∧
      j.condition? = some (.result x)

/-- The instructions of a block past its phis. -/
def Function.pastPhis (f : Function) (b : BlockId) : List InstId :=
  (f.body b).filter fun id => ¬ (f.instruction? id).any (·.isPhi)

variable {f : Function} {d e : Draft}
  {steers later : List (InstId × SteerPair)} {id x u : InstId} {p : SteerPair}

theorem isSome_lookup_iff : (steers.lookup id).isSome = true ↔ id ∈ steers.map (·.1) := by
  rw [List.lookup_isSome_iff, List.mem_map]
  simp

theorem mem_steers_of_lookup (hp : steers.lookup id = some p) : id ∈ steers.map (·.1) := by
  rw [← isSome_lookup_iff, hp]
  rfl

/-- Pairs that are made later do not count. -/
theorem pairedBefore_append (hp : steers.lookup id = some p) :
    pairedBefore (later ++ steers) id = pairedBefore steers id := by
  have hmem : id ∈ steers.reverse.map (·.1) := by simpa using mem_steers_of_lookup hp
  have hstop : ((steers.reverse.map (·.1)).takeWhile (· ≠ id)).length ≠
      (steers.reverse.map (·.1)).length := by
    intro hlength
    have hall := List.all_takeWhile (p := (· ≠ id)) (l := steers.reverse.map (·.1))
    rw [(List.takeWhile_prefix _).eq_of_length hlength, List.all_eq_true] at hall
    simpa using hall id hmem
  rw [pairedBefore, List.reverse_append, List.map_append, List.takeWhile_append, if_neg hstop,
    pairedBefore]

theorem mem_steers_of_pairedBefore (hu : u ∈ pairedBefore steers id) :
    (steers.lookup u).isSome = true := by
  have hmem := (List.takeWhile_prefix _).subset hu
  rw [isSome_lookup_iff]
  simpa using hmem

/-- What has its steers when those of `id` are still to be made gets them before. -/
theorem mem_pairedBefore (hu : steers.lookup u = some p) (hid : steers.lookup id = none) :
    u ∈ pairedBefore (later ++ steers) id := by
  have hother : ∀ x ∈ steers.reverse.map (·.1), decide (x ≠ id) = true := by
    intro x hx
    refine decide_eq_true fun heq => ?_
    have hsome : (steers.lookup id).isSome = true :=
      isSome_lookup_iff.mpr (by simpa [← heq] using hx)
    rw [hid] at hsome
    cases hsome
  rw [pairedBefore, List.reverse_append, List.map_append, List.takeWhile_append_of_pos hother]
  exact List.mem_append_left _ (by simpa using mem_steers_of_lookup hu)

namespace Draft

/-- Whether an operator is in time does not change once the steers are made. -/
theorem Le.inTime (h : d ≤ e) (hp : d.steers.lookup id = some p) :
    f.InTime e.steers id x ↔ f.InTime d.steers id x := by
  obtain ⟨later, hlater⟩ := h.record
  rw [Function.InTime, Function.InTime, ← hlater, pairedBefore_append hp]

/-- So what produces a value past what is not in time goes on producing it. -/
theorem Le.supplies_inTime (h : d ≤ e) (hp : d.steers.lookup id = some p) {v : Operand} {a : NodeId}
    (ha : Supplies f d (fun x => ¬ f.InTime d.steers id x) v a) :
    Supplies f e (fun x => ¬ f.InTime e.steers id x) v a :=
  (h.supplies ha).mono fun _ => mt (h.inTime hp).mp

end Draft

end Dataflow
