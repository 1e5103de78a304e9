import Dataflow.Proofs.ControlFlow.LoopExits
import Dataflow.Proofs.Lowering.Kinds

/-!
# Which carries the journal warns of

Lowering warns of a carry if nothing decides on another round of its loop. Nothing else puts such
an event into the journal: searches, steers, and the stages that wire neither phis nor the end of
lowering leave `Draft.undecided` as it is, and a phi adds one event just if a loop without a decider
carries values round to it (`Draft.undecided_lowerJoin`). So the warnings in the finished journal
are told by the function and its loops alone (`Function.undecided_lowerWith`), and with the loops of
the function itself by where they can be left and what guards them (`Function.loop_warnings`).
-/

namespace Dataflow

/-- Whether an event says that nothing decides on another round of the loop of a carry. -/
def Event.isUndecided : Event → Bool
  | .noLoopCondition _ _ => true
  | _ => false

/-- Whether a loop without a decider carries values round to a phi. -/
def Function.isUndecided (f : Function) (forest : LoopForest) (id : InstId) : Bool :=
  match f.slots[id]? with
  | some { instruction := .phi _ arms, block, .. } =>
    (forest.carrying? block arms).any fun l => (f.loopDecider l).isNone
  | _ => false

/-- The live phis that a loop without a decider carries values round to, in program order. -/
def Function.undecided (f : Function) (forest : LoopForest) : List InstId :=
  f.live.filter (f.isUndecided forest)

/-- The warning about a carry. -/
def Function.warning (f : Function) (id : InstId) : Event :=
  .noLoopCondition f.name (f.operandText (.result id))

/-- A phi is undecided when it carries values around a loop that no condition decides on. -/
theorem Function.isUndecided_iff {f : Function} {forest : LoopForest} {id : InstId} :
    f.isUndecided forest id = true ↔ ∃ block arms l, f.IsJoin id block arms ∧
      forest.carrying? block arms = some l ∧ (f.loopDecider l).isNone = true := by
  unfold isUndecided
  constructor
  · intro h
    split at h
    · rename_i name ty arms block hslot
      obtain ⟨l, hl, hnone⟩ := (Option.any_eq_true _ _).mp h
      exact ⟨block, arms, l, ⟨_, ty, hslot, rfl, rfl⟩, hl, hnone⟩
    · cases h
  · intro h
    obtain ⟨block, arms, l, ⟨⟨name, i, b⟩, ty, hs, hi, hb⟩, hl, hnone⟩ := h
    simp only at hi hb
    subst hi hb
    simp [hs, hl, hnone]

/-- The loop that carries values round to a phi is one of the loops. -/
theorem LoopForest.mem_of_carrying? {forest : LoopForest} {b : BlockId} {arms : List Arm}
    {l : NaturalLoop} (h : forest.carrying? b arms = some l) : l ∈ forest.loops := by
  rw [carrying?, Option.filter_eq_some_iff] at h
  exact (List.mem_filter.mp (NaturalLoop.smallest?_eq_some h.1).1).1

namespace Draft

variable {f : Function} {forest : LoopForest} {options : LowerOptions} {d : Draft} {id : InstId}
  {p : SteerPair} {v : Operand} {target : NodeId}

/-- The warnings so far about carries whose loop nothing decides on. -/
def undecided (d : Draft) : Journal := d.journal.filter (·.isUndecided)

/-! ## Changes -/

/-- A report adds to the warnings of loops when it is one. -/
theorem undecided_report (d : Draft) (e : Event) :
    (d.report e).undecided = d.undecided ++ if e.isUndecided then [e] else [] := by
  simp [undecided, report, List.filter_append, List.filter_cons]

/-- Other events change nothing. -/
theorem undecided_report_of_not (d : Draft) {e : Event} (he : e.isUndecided = false) :
    (d.report e).undecided = d.undecided := by
  simp [undecided_report, he]

@[simp] theorem undecided_nodeFor (v : Operand) : (d.nodeFor f v).1.undecided = d.undecided := rfl

@[simp] theorem undecided_connect (a b : Option NodeId) :
    (d.connect a b).1.undecided = d.undecided := by
  have hevent : ∀ e ∈ (d.graph.connect a b).2, e.isUndecided = false := by
    intro e he
    unfold Graph.connect at he
    split at he
    · split at he
      · cases he
        rfl
      · split at he <;> cases he
    · cases he
      rfl
  cases he : (d.graph.connect a b).2 with
  | none => simp [undecided, connect, he]
  | some e => simp [undecided, connect, he, hevent e he]

@[simp] theorem undecided_link (a b : NodeId) : (d.link a b).undecided = d.undecided :=
  undecided_connect _ _

@[simp] theorem undecided_linkPair : (d.linkPair p target).undecided = d.undecided := by
  rw [linkPair, undecided_link, undecided_link]

@[simp] theorem undecided_promote : (d.promote f v).undecided = d.undecided := by
  have hnode := undecided_nodeFor (f := f) (d := d) v
  unfold promote
  cases hasked : d.nodeFor f v with
  | mk e found =>
      rw [hasked] at hnode
      cases found <;> exact hnode

@[simp] theorem undecided_newPair : (d.newPair id).1.undecided = d.undecided := rfl

@[simp] theorem undecided_streamNode : d.streamNode.1.undecided = d.undecided := by
  unfold streamNode
  split <;> rfl

@[simp] theorem undecided_linkStream : (d.linkStream p).undecided = d.undecided := by
  simp [linkStream]

/-- Steps that each change nothing. -/
theorem undecided_foldl {α : Type} {k : Draft → α → Draft}
    (hstep : ∀ e x, (k e x).undecided = e.undecided) (l : List α) (d : Draft) :
    (l.foldl k d).undecided = d.undecided := by
  induction l generalizing d with
  | nil => rfl
  | cons x l ih => rw [List.foldl_cons, ih, hstep]

/-! ## Steers and searches -/

/-- A way to wire adds no warning. -/
def WireQuiet (wire : Operand → NodeId → Draft → Draft) : Prop :=
  ∀ v target d, (wire v target d).undecided = d.undecided

section Steers

variable {wire : Operand → NodeId → Draft → Draft} (hwire : WireQuiet wire)

include hwire

/-- Wiring a value that may be missing warns of no loop when wiring a value does not. -/
theorem undecided_wireOption (v : Option Operand) :
    (wireOption wire v target d).undecided = d.undecided := by
  cases v with
  | none => rfl
  | some v => exact hwire v target d

/-- Opening a pair of steers warns of no loop when wiring a value does not. -/
theorem undecided_openSteers (cond : Operand) (onTrue onFalse : Option Operand) :
    (d.openSteers f wire id cond onTrue onFalse).1.undecided = d.undecided := by
  rw [openSteers_eq]
  simp only [undecided_wireOption hwire, hwire _ _ _, undecided_newPair, undecided_promote]

omit hwire in
@[simp] theorem undecided_feedUser (user : InstId) :
    (d.feedUser f p user).undecided = d.undecided := by
  unfold feedUser
  split
  · rfl
  · cases d.operator? user with
    | none => rfl
    | some n => exact undecided_linkPair

/-- Making the steers of a select warns of no loop when wiring a value does not. -/
theorem undecided_selectSteers (id : InstId) :
    (d.selectSteers f wire id).1.undecided = d.undecided := by
  unfold selectSteers
  split
  · rfl
  · split
    · exact (undecided_foldl (fun _ _ => undecided_feedUser _) _ _).trans
        (undecided_openSteers hwire _ _ _)
    · rfl

end Steers

theorem undecided_fromSteers (s : Feed) :
    (s.fromSteers p target).draft.undecided = s.draft.undecided :=
  (undecided_connect (d := (s.draft.connect (some p.onTrue) (some target)).1) (some p.onFalse)
    (some target)).trans (undecided_connect _ _)

/-- Wiring by a search warns of no loop when the search does not. -/
theorem undecided_wireBy {search : Operand → NodeId → Feed → Feed}
    (h : (search v target { draft := d }).draft.undecided = d.undecided) :
    (d.wireBy f search v target).undecided = d.undecided := by
  simp only [wireBy]
  split
  · exact h
  · exact (undecided_report_of_not _ rfl).trans h

/-- A search adds no warning. -/
theorem undecided_feed (depth : Nat) (v : Operand) (target : NodeId) (s : Feed) :
    (feed f depth v target s).draft.undecided = s.draft.undecided := by
  induction depth generalizing v target s with
  | zero =>
      cases v with
      | function | result => rfl
      | param | const | global => exact undecided_connect _ _
  | succ depth ih =>
      cases v with
      | function => rfl
      | param | const | global => exact undecided_connect _ _
      | result id =>
          by_cases hid : id ∈ s.visited
          · rw [feed_of_mem hid]
          cases hi : f.instruction? id with
          | none => simp only [feed, if_neg hid, hi]
          | some i =>
              cases hsel : i.isSelect with
              | true =>
                  -- steers that are made on the way are fed by searches of their own
                  have hwire : WireQuiet (wireBy f (feed f depth)) :=
                    fun w t e => undecided_wireBy (ih w t { draft := e })
                  have hsteers := undecided_selectSteers (f := f) (d := s.draft) hwire id
                  cases i with
                  | select =>
                      simp only [feed, if_neg hid, hi]
                      split
                      · rename_i heq
                        rwa [heq] at hsteers
                      · rename_i e p heq
                        rw [heq] at hsteers
                        rwa [undecided_fromSteers]
                  | _ => cases hsel
              | false =>
                  cases hop : s.draft.operator? id with
                  | some n =>
                      rw [feed_of_operator hid hi hsel hop]
                      exact undecided_connect (d := s.draft) (some n) (some target)
                  | none =>
                      rw [feed_of_open hid hi hsel hop]
                      exact List.foldlRecOn i.operands _ (b := s.visit id)
                        (motive := fun t => t.draft.undecided = s.draft.undecided) rfl
                        fun t ht v _ => (ih v target t).trans ht

/-- Wiring a value in lowering warns of no loop. -/
theorem wire_quiet (f : Function) : WireQuiet (wire f) :=
  fun v target d => undecided_wireBy (undecided_feed f.feedDepth v target { draft := d })

/-! ## Stages -/

theorem undecided_branchSteers (id : InstId) :
    (d.branchSteers f options id).1.undecided = d.undecided := by
  unfold branchSteers
  split
  · rfl
  · split
    · simp only
      split
      · exact undecided_linkStream.trans (undecided_openSteers (wire_quiet f) _ _ _)
      · exact undecided_openSteers (wire_quiet f) _ _ _
    · rfl

/-- An edge to a node that may be missing. -/
theorem undecided_elim_link (a : NodeId) (b : Option NodeId) :
    (b.elim d (d.link a)).undecided = d.undecided := by
  cases b with
  | none => rfl
  | some n => exact undecided_link a n

theorem undecided_lowerBranch (step : InstId × Instruction) :
    (d.lowerBranch f options step).undecided = d.undecided := by
  have hsteers : (d.branchSteers f options step.1).1.undecided = d.undecided :=
    undecided_branchSteers step.1
  unfold lowerBranch
  split
  · split
    · rename_i heq
      rwa [heq] at hsteers
    · rename_i heq
      rw [heq] at hsteers
      rw [undecided_elim_link, undecided_elim_link, hsteers]
  · rfl

theorem undecided_lowerSelect (step : InstId × Instruction) :
    (d.lowerSelect f step).undecided = d.undecided := by
  unfold lowerSelect
  split
  · exact undecided_selectSteers (wire_quiet f) _
  · rfl

theorem undecided_addRole (step : InstId × Instruction) :
    (d.addRole f step).undecided = d.undecided := by
  have hnode := undecided_nodeFor (f := f) (d := d) (.result step.1)
  unfold addRole
  split
  · rfl
  · split
    · rename_i heq
      rwa [heq] at hnode
    · rename_i heq
      rwa [heq] at hnode

/-- The memory stage warns of no loop. -/
theorem undecided_wireMemory (state : Draft × Option NodeId) (id : InstId) :
    (wireMemory state id).1.undecided = state.1.undecided := by
  obtain ⟨d, last⟩ := state
  simp only [wireMemory]
  split
  · rfl
  · split
    · rfl
    · cases last with
      | none => rfl
      | some store => exact undecided_link _ _
    · rfl

theorem undecided_cleanUp : (d.cleanUp f).undecided = d.undecided := by
  simp only [cleanUp]
  split
  · rfl
  · exact undecided_report_of_not _ rfl

/-- No stage but the one that wires phis adds a warning. -/
theorem undecided_enter {stage : Stage} (hstage : stage ≠ .joins) :
    (d.enter f forest options stage).undecided = d.undecided := by
  have hreport := undecided_report_of_not d (e := .stage f.name stage.name) rfl
  rw [enter, ← hreport]
  generalize d.report (.stage f.name stage.name) = d
  cases stage with
  | nodes => exact undecided_foldl (fun _ => undecided_addRole) _ _
  | steers =>
      exact (undecided_foldl (fun _ => undecided_lowerSelect) _ _).trans
        (undecided_foldl (fun _ => undecided_lowerBranch) _ _)
  | leaves =>
      exact (undecided_foldl (fun _ _ => undecided_foldl (fun _ _ => undecided_connect _ _) _ _)
        _ _).trans (undecided_foldl (fun _ _ => undecided_nodeFor _) _ _)
  | results =>
      exact undecided_foldl
        (fun _ _ => undecided_foldl (fun _ _ => wire_quiet f _ _ _) _ _) _ _
  | joins => exact absurd rfl hstage
  | memory =>
      simp only [run]
      split
      · exact List.foldlRecOn f.live wireMemory (b := (d, none))
          (motive := fun state => state.1.undecided = d.undecided) rfl
          fun state hstate id _ => (undecided_wireMemory state id).trans hstate
      · rfl
  | cleanup => exact undecided_cleanUp

/-! ## Phis -/

/-- A value of a merge warns of no loop. -/
theorem undecided_lowerArm {block : BlockId} {join : NodeId} (arm : Arm) :
    (d.lowerArm f options block join arm).undecided = d.undecided := by
  unfold lowerArm
  split
  · exact wire_quiet f _ _ _
  · rename_i branch taken _
    have hsteers : (d.branchSteers f options branch).1.undecided = d.undecided :=
      undecided_branchSteers branch
    split
    · rename_i heq
      rw [heq] at hsteers
      exact (wire_quiet f _ _ _).trans hsteers
    · rename_i heq
      rw [heq] at hsteers
      exact (undecided_link _ _).trans ((wire_quiet f _ _ _).trans hsteers)

/-- A user of a phi warns of no loop. -/
theorem undecided_feedJoinUser {join : NodeId} (user : InstId) :
    (d.feedJoinUser f join user).undecided = d.undecided := by
  unfold feedJoinUser
  split
  · rfl
  · exact undecided_elim_link join _

/-- A carry adds a warning if nothing decides on another round of its loop. -/
theorem undecided_lowerCarry {join : NodeId} {l : NaturalLoop} {arms : List Arm} :
    (d.lowerCarry f id join l arms).undecided =
      d.undecided ++ if (f.loopDecider l).isNone then [f.warning id] else [] := by
  rw [lowerCarry_eq, undecided_foldl fun _ _ => wire_quiet f _ _ _, wireDecider]
  cases f.loopDecider l with
  | some cond => exact (wire_quiet f _ _ _).trans (List.append_nil _).symm
  | none => exact undecided_report _ _

/-- A phi with a node adds a warning just if a loop that nothing decides on carries values round to
it. -/
theorem undecided_lowerJoin
    (hnode : f.isUndecided forest id = true → ∃ n, d.operator? id = some n) :
    (d.lowerJoin f forest options id).undecided =
      d.undecided ++ if f.isUndecided forest id then [f.warning id] else [] := by
  unfold lowerJoin
  split
  · rename_i name ty arms block join hslot hop
    have hiff : f.isUndecided forest id =
        (forest.carrying? block arms).any fun l => (f.loopDecider l).isNone := by
      simp only [Function.isUndecided, hslot]
    rw [undecided_foldl fun _ _ => undecided_feedJoinUser _, hiff]
    cases forest.carrying? block arms with
    | some l => exact undecided_lowerCarry
    | none =>
        have harm : ∀ (e : Draft) (arm : Arm),
            (e.lowerArm f options block join arm).undecided = e.undecided :=
          fun _ => undecided_lowerArm
        simpa using undecided_foldl harm arms d
  · rename_i hnot
    cases hwarn : f.isUndecided forest id with
    | false => simp
    | true =>
        obtain ⟨n, hn⟩ := hnode hwarn
        obtain ⟨block, arms, l, ⟨⟨name, i, b⟩, ty, hs, hi, _⟩, _, _⟩ :=
          Function.isUndecided_iff.mp hwarn
        cases hi
        exact absurd hn (hnot name ty arms b n hs)

/-- Wiring phis that have nodes adds the warnings about them, in order. -/
theorem undecided_foldl_lowerJoin (hd : d.graph.Full) {ids : List InstId}
    (hnodes : ∀ id ∈ ids, f.isUndecided forest id = true → ∃ n, d.operator? id = some n) :
    (ids.foldl (lowerJoin f forest options) d).undecided =
      d.undecided ++ (ids.filter (f.isUndecided forest)).map f.warning := by
  induction ids generalizing d with
  | nil => simp
  | cons x ids ih =>
      -- a phi that is wired keeps the nodes of the others
      have hfull : (d.lowerJoin f forest options x).graph.Full := by
        rcases lowerJoin_cases (f := f) forest options x hd with ⟨join, _, _, hb⟩ | ⟨_, hb⟩
        · exact (hb.keeps (Graph.full_modifyNode hd fun _ => rfl)).full
        · exact (hb.keeps hd).full
      have hlater : ∀ id ∈ ids, f.isUndecided forest id = true →
          ∃ n, (d.lowerJoin f forest options x).operator? id = some n := by
        intro id hid hwarn
        obtain ⟨n, hn⟩ := hnodes id (List.mem_cons_of_mem x hid) hwarn
        exact ⟨n, (lowerJoin_kind hd hn x).2.1⟩
      rw [List.foldl_cons, ih hfull hlater, undecided_lowerJoin (hnodes x List.mem_cons_self),
        List.filter_cons]
      split <;> simp

/-- The stage that wires phis adds the warnings about those that have nodes. -/
theorem undecided_enter_joins (hd : d.graph.Full)
    (hnodes : ∀ id ∈ f.live, f.isUndecided forest id = true → ∃ n, d.operator? id = some n) :
    (d.enter f forest options .joins).undecided =
      d.undecided ++ (f.undecided forest).map f.warning := by
  have hreport := undecided_report_of_not d (e := .stage f.name Stage.joins.name) rfl
  rw [← hreport]
  exact undecided_foldl_lowerJoin (d := d.report _) hd hnodes

end Draft

namespace Function

variable {f : Function} {forest : LoopForest} {options : LowerOptions} {id : InstId}

/-- A phi that is to be wired has a node by then. -/
theorem operator_before_joins (hid : id ∈ f.live) (hwarn : f.isUndecided forest id = true) :
    ∃ n, ([Stage.nodes, .steers, .leaves, .results].foldl (Draft.enter f forest options)
      {}).operator? id = some n := by
  obtain ⟨block, arms, l, hjoin, _⟩ := isUndecided_iff.mp hwarn
  obtain ⟨ty, hi⟩ := hjoin.instruction
  have hstep := mem_steps.mpr ⟨hid, hi⟩
  obtain ⟨n, k, hn, _⟩ := f.kind_lowerWith forest options hstep rfl (by simp)
  exact ⟨n, (operator_before hstep rfl (by simp) hn [.steers, .leaves, .results] (by simp)).2⟩

/-- The journal warns of the live phis that a loop without a decider carries values round to, of
each once and in program order. -/
theorem undecided_lowerWith (f : Function) (forest : LoopForest) (options : LowerOptions) :
    (f.lowerWith forest options).journal.filter (·.isUndecided) =
      (f.undecided forest).map f.warning := by
  have hjournal : (f.lowerWith forest options).journal.filter (·.isUndecided) =
      ([Stage.memory, .cleanup].foldl (Draft.enter f forest options)
        (([Stage.nodes, .steers, .leaves, .results].foldl (Draft.enter f forest options)
          {}).enter f forest options .joins)).undecided := by
    rw [lowerWith, List.filter_append]
    exact List.append_nil _
  have hbefore : ([Stage.nodes, .steers, .leaves, .results].foldl (Draft.enter f forest options)
      {}).undecided = [] := by
    simp only [List.foldl_cons, List.foldl_nil]
    iterate 4 rw [Draft.undecided_enter (by simp)]
    rfl
  obtain ⟨⟨hd, _⟩, _⟩ := Draft.nodes_plays f forest options
  obtain ⟨hfull, _⟩ : ([Stage.nodes, .steers, .leaves, .results].foldl
      (Draft.enter f forest options) {}).graph.Full ∧ True :=
    Draft.foldl_enter_induct f forest options [.steers, .leaves, .results]
      (fun _ _ _ => trivial) (fun _ _ _ _ => trivial) (by simp) hd trivial
  have hnodes : ∀ id ∈ f.live, f.isUndecided forest id = true →
      ∃ n, ([Stage.nodes, .steers, .leaves, .results].foldl (Draft.enter f forest options)
        {}).operator? id = some n := fun id hid hwarn => operator_before_joins hid hwarn
  rw [hjournal, List.foldl_cons, List.foldl_cons, List.foldl_nil, Draft.undecided_enter (by simp),
    Draft.undecided_enter (by simp), Draft.undecided_enter_joins hfull hnodes, hbefore,
    List.nil_append]

/-- A loop that can be left always has something that decides on another round: every block that
it is left from ends in a branch with one side inside, and the decider is the condition of such a
branch or of one that guards the loop. So the journal warns of just those carries whose loop cannot
be left and is guarded by no branch. -/
theorem loop_warnings (f : Function) :
    (∀ l ∈ f.loopForest.loops, f.Leaves l →
      (∀ b ∈ l.exiting, ∃ id cond onTrue onFalse, f.terminator? b = some id ∧
        f.instruction? id = some (.branch cond onTrue onFalse) ∧
        (onTrue ∈ l.body ↔ onFalse ∉ l.body)) ∧
      ∃ cond, f.loopDecider l = some cond ∧
        (f.Guards l cond ∨ ∃ b ∈ l.exiting, f.BranchesOn b cond)) ∧
    (∀ options, (f.lower options).journal.filter (·.isUndecided) =
      (f.undecided f.loopForest).map f.warning) ∧
    ∀ id, id ∈ f.undecided f.loopForest ↔ id ∈ f.live ∧ ∃ block arms l,
      f.IsJoin id block arms ∧ f.loopForest.carrying? block arms = some l ∧
      ¬ f.Leaves l ∧ ¬ ∃ cond, f.Guards l cond := by
  refine ⟨fun l hl hleaves => ?_, fun options => f.undecided_lowerWith f.loopForest options,
    fun id => ?_⟩
  · have hloop := (mem_loops.mp hl).2
    obtain ⟨cond, hcond⟩ := Option.isSome_iff_exists.mp (isSome_loopDecider_of_leaves hloop hleaves)
    exact ⟨fun b hb => branch_of_mem_exiting hloop hb, cond, hcond, guards_or_of_loopDecider hcond⟩
  · rw [undecided, List.mem_filter, isUndecided_iff]
    refine and_congr_right fun _ => exists_congr fun block => exists_congr fun arms =>
      exists_congr fun l => and_congr_right fun _ => and_congr_right fun hcarry => ?_
    exact isNone_loopDecider_iff (mem_loops.mp (LoopForest.mem_of_carrying? hcarry)).2

/-- A function that counts in a loop that it can leave and then in one that it cannot. -/
def countsForever : Function where
  name := "f"
  ret := .void
  params := [⟨"c", .int 1⟩]
  blocks := [⟨"entry", [0]⟩, ⟨"first", [1, 2, 3]⟩, ⟨"second", [4, 5, 6]⟩]
  slots := [
    ⟨none, .jump 1, 0⟩,
    ⟨some "i", .phi (.int 32) [⟨.const ⟨.int 32, "0"⟩, 0⟩, ⟨.result 2, 1⟩], 1⟩,
    ⟨some "m", .binary .add (.int 32) (.result 1) (.const ⟨.int 32, "1"⟩), 1⟩,
    ⟨none, .branch (.param 0) 1 2, 1⟩,
    ⟨some "j", .phi (.int 32) [⟨.result 1, 1⟩, ⟨.result 5, 2⟩], 2⟩,
    ⟨some "n", .binary .add (.int 32) (.result 4) (.const ⟨.int 32, "1"⟩), 2⟩,
    ⟨none, .jump 2, 2⟩]

/-- Both phis are carries, and the journal warns of the second one, whose loop cannot be left. -/
theorem loop_warnings_countsForever :
    (countsForever.lower {}).journal.filter (·.isUndecided) = [.noLoopCondition "f" "%j"] ∧
      ∃ block arms l, countsForever.IsJoin 4 block arms ∧
        countsForever.loopForest.carrying? block arms = some l ∧ ¬ countsForever.Leaves l ∧
        ¬ ∃ cond, countsForever.Guards l cond := by
  obtain ⟨_, hjournal, hundecided⟩ := loop_warnings countsForever
  have hsecond : countsForever.undecided countsForever.loopForest = [4] := by decide +kernel
  refine ⟨?_, ((hundecided 4).mp (hsecond ▸ List.mem_cons_self)).2⟩
  rw [hjournal, hsecond]
  decide +kernel

end Function

end Dataflow
