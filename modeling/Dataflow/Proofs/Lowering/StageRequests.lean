import Dataflow.Proofs.Lowering.SearchRequests

/-!
# What the stages of lowering ask for

`Function.requests` tells all requests that lowering makes, stage after stage. They lead to the
lowered graph and its journal, each of them is proper when it is made, and what the draft holds of
its graph is there until something is removed (`Function.requests_served`). So no warning comes from
the graph: the journal warns of the carries that nothing decides on and of nothing else.
-/

namespace Dataflow

namespace Requests

variable (f : Function)

/-- An edge into a node if there is one. -/
def into (a : NodeId) (b : Option NodeId) : List Request :=
  b.elim [] fun n => [.edge (some a) (some n)]

/-! ## Branches and selects -/

/-- For the stream node, and the edges from it into both steers of a pair. -/
def linkStream (p : SteerPair) (d : Draft) : List Request :=
  let r := d.streamNode
  [.stream, .edge (some r.2) (some p.onTrue), .edge (some r.2) (some p.onFalse)]

/-- For the pair of steers of a branch if it is made now. -/
def branchSteers (options : LowerOptions) (id : InstId) (d : Draft) : List Request :=
  match d.steers.lookup id with
  | some _ => []
  | none =>
    match f.instruction? id with
    | some (.branch cond _ _) =>
      let r := d.openSteers f (Draft.wire f) id cond none none
      openSteers f (Draft.wire f) (wire f) id cond none none d ++
        if options.entryStream then linkStream r.2 r.1 else []
    | _ => []

/-- For the steers of a branch, and the edges from them to the first operator of each successor. -/
def lowerBranch (options : LowerOptions) (d : Draft) (step : InstId × Instruction) :
    List Request :=
  match step.2 with
  | .branch _ onTrue onFalse =>
    let r := d.branchSteers f options step.1
    branchSteers f options step.1 d ++ r.2.elim [] fun pair =>
      into pair.onTrue (r.1.firstOperator f onTrue) ++
        into pair.onFalse (r.1.firstOperator f onFalse)
  | _ => []

/-- For the steers of a select if they were not made before, and nothing for any other
instruction. -/
def lowerSelect (d : Draft) (step : InstId × Instruction) : List Request :=
  match step.2 with
  | .select _ _ _ _ => selectSteers f (Draft.wire f) (wire f) step.1 d
  | _ => []

/-- For all branches in program order, and then for all selects. -/
def lowerBranches (options : LowerOptions) (d : Draft) : List Request :=
  steps (Draft.lowerBranch f options) (lowerBranch f options) d f.steps ++
    steps (Draft.lowerSelect f) (lowerSelect f) (f.steps.foldl (Draft.lowerBranch f options) d)
      f.steps

/-! ## Operands -/

/-- For the node of an instruction that has a role. -/
def addRole (step : InstId × Instruction) : List Request :=
  if step.2.role?.isSome then [.role step] else []

/-- For the edges to the node of an instruction from the nodes of its leaves. -/
def wireLeaves (d : Draft) (sink : List Operand × NodeId) : List Request :=
  steps (fun d v => (d.connect (d.graph.find? v) (some sink.2)).1)
    (fun d v => [.edge (d.graph.find? v) (some sink.2)]) d (sink.1.filter (·.isLeaf))

/-- For a node for each leaf, and then the edges from them to the nodes of all instructions but
phis. -/
def wireAllLeaves (d : Draft) : List Request :=
  let e := f.leaves.foldl (Draft.ensure f) d
  f.leaves.map .node ++ steps Draft.wireLeaves wireLeaves e (e.sinks f)

/-- For the producers of each result that an instruction uses. -/
def wireResults (d : Draft) (sink : List Operand × NodeId) : List Request :=
  steps (fun d v => d.wire f v sink.2) (fun d v => wire f v sink.2 d) d
    (sink.1.filter (·.result?.isSome))

/-! ## Phis -/

/-- For what decides on another round, or a report that nothing does. -/
def wireDecider (id : InstId) (join : NodeId) (l : NaturalLoop) (d : Draft) : List Request :=
  match f.loopDecider l with
  | some cond => wire f cond join d
  | none => [.report (f.warning id)]

/-- For a phi that becomes a carry: the new kind, what decides on another round, and the values. -/
def lowerCarry (id : InstId) (join : NodeId) (l : NaturalLoop) (arms : List Arm) (d : Draft) :
    List Request :=
  let e := d.toCarry join
  [.carry join] ++ (wireDecider f id join l e ++
    steps (fun d a => d.wire f a.value join) (fun d a => wire f a.value join d)
      (Draft.wireDecider f id join l e) arms)

/-- For one value of a merge: through the side of the steers that it depends on, or straight into
the merge where nothing controls the edge. -/
def lowerArm (options : LowerOptions) (b : BlockId) (join : NodeId) (d : Draft) (a : Arm) :
    List Request :=
  match f.controlling options.traceBranches a.source b with
  | none => wire f a.value join d
  | some (branch, taken) =>
    let r := d.branchSteers f options branch
    branchSteers f options branch d ++ match r.2 with
      | none => wire f a.value join r.1
      | some pair =>
        wire f a.value (pair.side taken) r.1 ++ [.edge (some (pair.side taken)) (some join)]

/-- For the edge from a phi to an operator that uses it. Phis find their values themselves. -/
def feedJoinUser (join : NodeId) (d : Draft) (user : InstId) : List Request :=
  if (f.instruction? user).any (·.isPhi) then [] else into join (d.operator? user)

/-- For a phi with a node: a carry of its loop or a merge of its values, and then the edges to its
users. -/
def lowerJoin (forest : LoopForest) (options : LowerOptions) (d : Draft) (id : InstId) :
    List Request :=
  match f.slots[id]?, d.operator? id with
  | some { instruction := .phi _ arms, block, .. }, some join =>
    let users := steps (Draft.feedJoinUser f join) (feedJoinUser f join)
    match forest.carrying? block arms with
    | some l =>
      lowerCarry f id join l arms d ++ users (d.lowerCarry f id join l arms) (f.users (.result id))
    | none =>
      steps (Draft.lowerArm f options block join) (lowerArm f options block join) d arms ++
        users (arms.foldl (Draft.lowerArm f options block join) d) (f.users (.result id))
  | _, _ => []

/-! ## The stages -/

/-- For the edge to a load from the last store before it. The second component is the last store. -/
def wireMemory (state : Draft × Option NodeId) (id : InstId) : List Request :=
  match state.1.operator? id with
  | none => []
  | some i =>
    match state.1.graph.kind? i with
    | some .load => state.2.elim [] fun s => [.edge (some s) (some i)]
    | _ => []

/-- For the nodes without a role, which are removed, and a report if there are any. -/
def cleanUp (d : Draft) : List Request :=
  let idle := d.graph.ofKind .unknown
  idle.map .removal ++ if idle = [] then [] else [.report (.pruned idle.length f.name)]

/-- The requests of a stage. The memory stage has some only where the option asks for it. -/
def run (forest : LoopForest) (options : LowerOptions) (d : Draft) : Stage → List Request
  | .nodes => steps (Draft.addRole f) (fun _ step => addRole step) d f.steps
  | .steers => lowerBranches f options d
  | .leaves => wireAllLeaves f d
  | .results => steps (Draft.wireResults f) (wireResults f) d (d.sinks f)
  | .joins => steps (Draft.lowerJoin f forest options) (lowerJoin f forest options) d f.live
  | .memory =>
    if options.memoryDependencies then steps Draft.wireMemory wireMemory (d, none) f.live else []
  | .cleanup => cleanUp f d

/-- The requests of a stage behind the report that it starts. -/
def enter (forest : LoopForest) (options : LowerOptions) (d : Draft) (stage : Stage) :
    List Request :=
  [.report (.stage f.name stage.name)] ++
    run f forest options (d.report (.stage f.name stage.name)) stage

/-! ## Stages make proper requests -/

variable {f : Function} {forest : LoopForest} {options : LowerOptions} {d : Draft}
  {i join : NodeId} {p : SteerPair} {id : InstId}

/-- An edge into a node that may be missing is proper. -/
theorem into_serves (h : d.Intact) (hi : i < d.size) {b : Option NodeId}
    (hb : ∀ n, b = some n → n < d.size) :
    Draft.Serves f false d (into i b) (b.elim d (d.link i)) := by
  cases b with
  | none => exact .nil
  | some n => exact link_serves h hi (hb n rfl)

/-- The edges from the stream are proper. -/
theorem linkStream_serves (h : d.Intact) (hp : p.Below d.size) :
    Draft.Serves f false d (linkStream p d) (d.linkStream p) := by
  obtain ⟨h₁, hle₁, hstream⟩ := h.streamNode
  have hp₁ := hp.mono hle₁
  have hfirst : Draft.Serves f false d.streamNode.1
      [.edge (some d.streamNode.2) (some p.onTrue)] _ := link_serves h₁ hstream hp₁.1
  obtain ⟨h₂, hle₂⟩ := hfirst.intact h₁
  exact .cons trivial (fun hr => by cases hr) (hfirst.append
    (link_serves h₂ (Nat.lt_of_lt_of_le hstream hle₂) (hp₁.mono hle₂).2))

/-- The requests for the steers of a branch are proper, and the steers are there afterwards. -/
theorem branchSteers_serves (options : LowerOptions) (h : d.Intact) (id : InstId) :
    Draft.Serves f false d (branchSteers f options id d) (d.branchSteers f options id).1 ∧
      ∀ p, (d.branchSteers f options id).2 = some p →
        p.Below (d.branchSteers f options id).1.size := by
  cases hp : d.steers.lookup id with
  | some p =>
      simp only [branchSteers, Draft.branchSteers, hp, Option.some.injEq, forall_eq']
      exact ⟨.nil, h.lookup hp⟩
  | none =>
      cases hi : f.instruction? id with
      | none => simpa [branchSteers, Draft.branchSteers, hp, hi] using Draft.Serves.nil
      | some i =>
          cases i with
          | branch cond onTrue onFalse =>
              obtain ⟨hopen, hbelow⟩ := openSteers_serves (wire_serves f) h id cond none none
              obtain ⟨h', _⟩ := hopen.intact h
              simp only [branchSteers, Draft.branchSteers, hp, hi, Option.some.injEq, forall_eq']
              cases options.entryStream with
              | false => exact ⟨hopen.append .nil, hbelow⟩
              | true =>
                  have hlink := linkStream_serves (f := f) h' hbelow
                  exact ⟨hopen.append hlink, hbelow.mono (hlink.intact h').2⟩
          | _ => simpa [branchSteers, Draft.branchSteers, hp, hi] using Draft.Serves.nil

/-- The requests for a branch are proper. -/
theorem lowerBranch_serves (options : LowerOptions) (h : d.Intact)
    (step : InstId × Instruction) :
    Draft.Serves f false d (lowerBranch f options d step) (d.lowerBranch f options step) := by
  obtain ⟨id, i⟩ := step
  cases i with
  | branch cond onTrue onFalse =>
      obtain ⟨hsteers, hbelow⟩ := branchSteers_serves (f := f) options h id
      obtain ⟨h', _⟩ := hsteers.intact h
      simp only [lowerBranch, Draft.lowerBranch]
      cases hpair : d.branchSteers f options id with
      | mk e found =>
          rw [hpair] at hsteers hbelow h'
          have hfirst : ∀ b n, e.firstOperator f b = some n → n < e.size := by
            intro b n hn
            obtain ⟨x, _, _, hop⟩ := Draft.firstOperator_eq_some hn
            exact Draft.lt_size_of_operator? hop
          cases found with
          | none => exact hsteers.append .nil
          | some p =>
              have hp := hbelow p rfl
              have htrue := into_serves (f := f) h' hp.1 (hfirst onTrue)
              obtain ⟨h'', hle⟩ := htrue.intact h'
              refine hsteers.append (htrue.append (into_serves h'' (hp.mono hle).2 fun n hn => ?_))
              exact Nat.lt_of_lt_of_le (hfirst onFalse n hn) hle
  | _ => exact .nil

/-- The requests for a select are proper. -/
theorem lowerSelect_serves (h : d.Intact) (step : InstId × Instruction) :
    Draft.Serves f false d (lowerSelect f d step) (d.lowerSelect f step) := by
  obtain ⟨id, i⟩ := step
  cases i with
  | select => exact (selectSteers_serves (wire_serves f) h id).1
  | _ => exact .nil

/-- The requests of the stage of steers are proper. -/
theorem lowerBranches_serves (h : d.Intact) :
    Draft.Serves f false d (lowerBranches f options d) (d.lowerBranches f options) := by
  have hbranches := steps_serves (f := f) (fun d => d) (l := f.steps) h
    fun _ step _ ht _ => lowerBranch_serves options ht step
  exact hbranches.append (steps_serves (fun d => d) (hbranches.intact h).1
    fun _ step _ ht _ => lowerSelect_serves ht step)

/-- The request for an instruction with a role is proper. -/
theorem addRole_serves (step : InstId × Instruction) :
    Draft.Serves f false d (addRole step) (d.addRole f step) := by
  unfold addRole
  cases hrole : step.2.role? with
  | none =>
      have hsame : d.addRole f step = d := by simp [Draft.addRole, hrole]
      rw [hsame]
      exact .nil
  | some role => exact .one trivial rfl

/-- The requests for the nodes of leaves are proper. -/
theorem ensure_serves (l : List Operand) :
    Draft.Serves f false d (l.map .node) (l.foldl (Draft.ensure f) d) := by
  induction l generalizing d with
  | nil => exact .nil
  | cons v l ih => exact .cons trivial (fun hr => by cases hr) ih

/-- Sinks are numbers that were given out. -/
theorem lt_size_of_mem_sinks {sink : List Operand × NodeId} (hsink : sink ∈ d.sinks f) :
    sink.2 < d.size := by
  obtain ⟨_, _, _, _, hop, _⟩ := Draft.mem_sinks.mp hsink
  exact Draft.lt_size_of_operator? hop

/-- The requests for the results that a node uses are proper. -/
theorem wireResults_serves (h : d.Intact) {sink : List Operand × NodeId} (hsink : sink.2 < d.size) :
    Draft.Serves f false d (wireResults f d sink) (d.wireResults f sink) :=
  steps_serves (fun d => d) h fun t v _ ht hle =>
    wire_serves f v sink.2 t ht (Nat.lt_of_lt_of_le hsink hle)

/-- Edges from leaves give no value another node. -/
theorem find?_wireLeaves (sink : List Operand × NodeId) (v : Operand) :
    (d.wireLeaves sink).graph.find? v = d.graph.find? v := by
  unfold Draft.wireLeaves
  exact List.foldlRecOn _ _ (motive := fun e : Draft => e.graph.find? v = d.graph.find? v) rfl
    fun _ he _ _ => (Graph.find?_connect _ _).trans he

/-- The requests for the leaves that a node uses are proper: each leaf has its node by then. -/
theorem wireLeaves_serves (h : d.Intact) {sink : List Operand × NodeId} (hsink : sink.2 < d.size)
    (hleaf : ∀ v ∈ sink.1, v.isLeaf = true → ∃ n, d.graph.find? v = some n) :
    Draft.Serves f false d (wireLeaves d sink) (d.wireLeaves sink) := by
  refine steps_serves_of (fun d => d)
    (fun e => ∀ v ∈ sink.1, v.isLeaf = true → ∃ n, e.graph.find? v = some n) h hleaf
    fun t v hv ht hle hfind => ⟨?_, fun w hw hl => ?_⟩
  · obtain ⟨hmem, hl⟩ := List.mem_filter.mp hv
    obtain ⟨n, hn⟩ := hfind v hmem hl
    rw [hn]
    exact link_serves ht (ht.full.lt_of_find? hn) (Nat.lt_of_lt_of_le hsink hle)
  · obtain ⟨n, hn⟩ := hfind w hw hl
    exact ⟨n, (Graph.find?_connect _ _).trans hn⟩

/-- Leaves are asked for before they are wired. -/
theorem wireAllLeaves_serves (h : d.Intact) :
    Draft.Serves f false d (wireAllLeaves f d) (d.wireAllLeaves f) := by
  have hasked : Draft.Serves f false d _ _ := ensure_serves f.leaves
  obtain ⟨h', _⟩ := hasked.intact h
  refine hasked.append (steps_serves_of (fun d => d)
    (fun e => ∀ v ∈ f.leaves, ∃ n, e.graph.find? v = some n) h'
    (fun v hv => Draft.find?_foldl_ensure h.full hv (Draft.isLeaf_of_mem_leaves hv))
    fun t sink hsink ht hle hfind => ⟨?_, fun v hv => ?_⟩)
  · obtain ⟨x, i, hstep, _, _, hoperands⟩ := Draft.mem_sinks.mp hsink
    refine wireLeaves_serves ht (Nat.lt_of_lt_of_le (lt_size_of_mem_sinks hsink) hle)
      fun v hv hl => hfind v (List.mem_append_right _ (List.mem_filter.mpr ⟨?_, hl⟩))
    exact List.mem_flatMap.mpr ⟨(x, i), hstep, hoperands ▸ hv⟩
  · rw [find?_wireLeaves]
    exact hfind v hv

/-- The request for what decides on a carry is proper. -/
theorem wireDecider_serves (id : InstId) (h : d.Intact) (hjoin : join < d.size)
    (l : NaturalLoop) :
    Draft.Serves f false d (wireDecider f id join l d) (Draft.wireDecider f id join l d) := by
  unfold wireDecider Draft.wireDecider
  cases f.loopDecider l with
  | some cond => exact wire_serves f cond join d h hjoin
  | none => exact .one (fun _ => rfl) rfl

/-- The requests for a carry are proper. -/
theorem lowerCarry_serves (id : InstId) (h : d.Intact) (hjoin : join < d.size)
    (l : NaturalLoop) (arms : List Arm) :
    Draft.Serves f false d (lowerCarry f id join l arms d) (d.lowerCarry f id join l arms) := by
  have hcarry : Draft.Serves f false d [.carry join] (d.toCarry join) := .one trivial rfl
  obtain ⟨h₁, hle₁⟩ := hcarry.intact h
  have hjoin₁ := Nat.lt_of_lt_of_le hjoin hle₁
  have hdecider := wireDecider_serves (f := f) id h₁ hjoin₁ l
  obtain ⟨h₂, hle₂⟩ := hdecider.intact h₁
  rw [Draft.lowerCarry_eq]
  exact hcarry.append (hdecider.append (steps_serves (fun d => d) h₂
    fun t a _ ht hle => wire_serves f a.value join t ht
      (Nat.lt_of_lt_of_le (Nat.lt_of_lt_of_le hjoin₁ hle₂) hle)))

/-- The requests for a value of a merge are proper. -/
theorem lowerArm_serves (options : LowerOptions) (h : d.Intact) (hjoin : join < d.size)
    (b : BlockId) (a : Arm) :
    Draft.Serves f false d (lowerArm f options b join d a) (d.lowerArm f options b join a) := by
  unfold lowerArm Draft.lowerArm
  cases f.controlling options.traceBranches a.source b with
  | none => exact wire_serves f a.value join d h hjoin
  | some way =>
      obtain ⟨branch, taken⟩ := way
      obtain ⟨hsteers, hbelow⟩ := branchSteers_serves (f := f) options h branch
      obtain ⟨h₁, hle₁⟩ := hsteers.intact h
      simp only
      cases hpair : d.branchSteers f options branch with
      | mk e found =>
          rw [hpair] at hsteers hbelow h₁ hle₁
          have hjoin₁ := Nat.lt_of_lt_of_le hjoin hle₁
          cases found with
          | none => exact hsteers.append (wire_serves f a.value join e h₁ hjoin₁)
          | some p =>
              have hside := (hbelow p rfl).side taken
              have hwire := wire_serves f a.value (p.side taken) e h₁ hside
              obtain ⟨h₂, hle₂⟩ := hwire.intact h₁
              exact hsteers.append (hwire.append (link_serves h₂ (Nat.lt_of_lt_of_le hside hle₂)
                (Nat.lt_of_lt_of_le hjoin₁ hle₂)))

/-- The request for a user of a phi is proper. -/
theorem feedJoinUser_serves (h : d.Intact) (hjoin : join < d.size) (user : InstId) :
    Draft.Serves f false d (feedJoinUser f join d user) (d.feedJoinUser f join user) := by
  unfold feedJoinUser Draft.feedJoinUser
  split
  · exact .nil
  · exact into_serves h hjoin fun n hn => Draft.lt_size_of_operator? hn

/-- So are those for all its users. -/
theorem feedJoinUsers_serves (h : d.Intact) (hjoin : join < d.size) (users : List InstId) :
    Draft.Serves f false d (steps (Draft.feedJoinUser f join) (feedJoinUser f join) d users)
      (users.foldl (Draft.feedJoinUser f join) d) :=
  steps_serves (fun d => d) h fun _ user _ ht hle =>
    feedJoinUser_serves ht (Nat.lt_of_lt_of_le hjoin hle) user

/-- The requests for a phi are proper. -/
theorem lowerJoin_serves (h : d.Intact) (id : InstId) :
    Draft.Serves f false d (lowerJoin f forest options d id)
      (d.lowerJoin f forest options id) := by
  rw [lowerJoin, Draft.lowerJoin]
  cases f.slots[id]? with
  | none => exact .nil
  | some slot =>
      obtain ⟨name, i, block⟩ := slot
      cases hop : d.operator? id with
      | none => cases i <;> exact .nil
      | some join =>
          have hjoin := Draft.lt_size_of_operator? hop
          cases i with
          | phi ty arms =>
              -- a phi first takes its values, and then feeds its users
              simp only
              cases forest.carrying? block arms with
              | some l =>
                  have hcarry := lowerCarry_serves (f := f) id h hjoin l arms
                  obtain ⟨h', hle⟩ := hcarry.intact h
                  exact hcarry.append (feedJoinUsers_serves h' (Nat.lt_of_lt_of_le hjoin hle) _)
              | none =>
                  have harms := steps_serves (f := f) (fun d => d) (l := arms) h
                    fun _ a _ ht hle =>
                      lowerArm_serves options ht (Nat.lt_of_lt_of_le hjoin hle) block a
                  obtain ⟨h', hle⟩ := harms.intact h
                  exact harms.append (feedJoinUsers_serves h' (Nat.lt_of_lt_of_le hjoin hle) _)
          | _ => exact .nil

/-- A memory access makes proper requests, and the last store so far has a number that was given
out. -/
theorem wireMemory_serves_step {last : Option NodeId} (h : d.Intact)
    (hlast : ∀ i, last = some i → i < d.size) (id : InstId) :
    Draft.Serves f false d (wireMemory (d, last) id) (Draft.wireMemory (d, last) id).1 ∧
      ∀ i, (Draft.wireMemory (d, last) id).2 = some i →
        i < (Draft.wireMemory (d, last) id).1.size := by
  have hidle : Draft.wireMemory (d, last) id = (d, last) → wireMemory (d, last) id = [] →
      Draft.Serves f false d (wireMemory (d, last) id) (Draft.wireMemory (d, last) id).1 ∧
        ∀ i, (Draft.wireMemory (d, last) id).2 = some i →
          i < (Draft.wireMemory (d, last) id).1.size := by
    intro hsame hnone
    rw [hsame, hnone]
    exact ⟨.nil, hlast⟩
  cases hop : d.operator? id with
  | none => exact hidle (by simp [Draft.wireMemory, hop]) (by simp [wireMemory, hop])
  | some i =>
      have hi := Draft.lt_size_of_operator? hop
      cases hkind : d.graph.kind? i with
      | none =>
          exact hidle (by simp [Draft.wireMemory, hop, hkind]) (by simp [wireMemory, hop, hkind])
      | some kind =>
          cases kind with
          | store =>
              simp only [wireMemory, Draft.wireMemory, hop, hkind, Option.some.injEq, forall_eq']
              exact ⟨.nil, hi⟩
          | load =>
              simp only [wireMemory, Draft.wireMemory, hop, hkind]
              cases last with
              | none => exact ⟨.nil, hlast⟩
              | some store =>
                  have hlink := link_serves (f := f) h (hlast store rfl) hi
                  exact ⟨hlink, fun n hn =>
                    Nat.lt_of_lt_of_le (hlast n hn) (hlink.intact h).2⟩
          | _ =>
              exact hidle (by simp [Draft.wireMemory, hop, hkind])
                (by simp [wireMemory, hop, hkind])

/-- The requests of the memory stage are proper. -/
theorem wireMemory_serves (h : d.Intact) (ids : List InstId) :
    Draft.Serves f false d (steps Draft.wireMemory wireMemory (d, none) ids)
      (ids.foldl Draft.wireMemory (d, none)).1 :=
  steps_serves_of Prod.fst (s := (d, none))
    (fun state => ∀ i, state.2 = some i → i < state.1.size) h (fun i hi => by cases hi)
    fun _ id _ ht _ hlast => wireMemory_serves_step ht hlast id

/-- Removing nodes that are there, each once. -/
theorem removals_serves {l : List NodeId} (hl : l.Nodup) (hlive : ∀ i ∈ l, d.Live i) :
    Draft.Serves f true d (l.map .removal)
      { d with graph := l.foldl Graph.removeNode d.graph } := by
  induction l generalizing d with
  | nil => exact .nil
  | cons i l ih =>
      obtain ⟨hi, hl⟩ := List.nodup_cons.mp hl
      refine .cons (hlive i List.mem_cons_self) (fun _ => rfl) (ih hl fun j hj => ?_)
      obtain ⟨n, hn⟩ := hlive j (List.mem_cons_of_mem _ hj)
      refine ⟨n, ?_⟩
      have hne : j ≠ i := fun heq => hi (heq ▸ hj)
      exact Graph.node?_removeNode.trans ((if_neg hne).trans hn)

/-- The requests of the last stage are proper: what it removes is there. -/
theorem cleanUp_serves : Draft.Serves f true d (cleanUp f d) (d.cleanUp f) := by
  have hremoved : Draft.Serves f true d _ _ :=
    removals_serves (d.graph.nodup_ofKind .unknown) fun i hi =>
      (Graph.mem_ofKind.mp hi).imp fun _ hn => hn.1
  unfold cleanUp Draft.cleanUp
  simp only
  split
  · rwa [List.append_nil]
  · exact hremoved.append (.cons (fun hw => by cases hw) (fun _ => rfl) .nil)

/-- Every stage but the last makes proper requests, without removals. -/
theorem run_serves (h : d.Intact) {stage : Stage} (hstage : stage ≠ .cleanup) :
    Draft.Serves f false d (run f forest options d stage) (d.run f forest options stage) := by
  cases stage with
  | nodes => exact steps_serves (fun d => d) h fun _ step _ _ _ => addRole_serves step
  | steers => exact lowerBranches_serves h
  | leaves => exact wireAllLeaves_serves h
  | results =>
      exact steps_serves (fun d => d) h fun t sink hsink ht hle =>
        wireResults_serves ht (Nat.lt_of_lt_of_le (lt_size_of_mem_sinks hsink) hle)
  | joins => exact steps_serves (fun d => d) h fun _ id _ ht _ => lowerJoin_serves ht id
  | memory =>
      simp only [run, Draft.run]
      split
      · exact wireMemory_serves h f.live
      · exact .nil
  | cleanup => exact absurd rfl hstage

/-- A stage before the last makes proper requests and removes nothing. -/
theorem enter_serves (h : d.Intact) {stage : Stage} (hstage : stage ≠ .cleanup) :
    Draft.Serves f false d (enter f forest options d stage) (d.enter f forest options stage) := by
  have hreport : Draft.Serves f false d [.report (.stage f.name stage.name)] _ :=
    .one (fun hw => by cases hw) rfl
  exact hreport.append (run_serves (hreport.intact h).1 hstage)

/-- So do all stages before the last, one after the other. -/
theorem stages_serves (h : d.Intact) {stages : List Stage} (hstages : .cleanup ∉ stages) :
    Draft.Serves f false d
      (steps (Draft.enter f forest options) (enter f forest options) d stages)
      (stages.foldl (Draft.enter f forest options) d) :=
  steps_serves (fun d => d) h fun _ _ hstage ht _ =>
    enter_serves ht (ne_of_mem_of_not_mem hstage hstages)

/-- The last stage makes proper requests. -/
theorem enter_cleanup_serves : Draft.Serves f true d (enter f forest options d .cleanup)
    (d.enter f forest options .cleanup) := by
  have hreport : Draft.Serves f true d [.report (.stage f.name Stage.cleanup.name)] _ :=
    .cons (fun hw => by cases hw) (fun _ => rfl) .nil
  exact hreport.append cleanUp_serves

end Requests

namespace Draft

variable {f : Function} {d e : Draft} {rs : List Request} {removing : Bool}

/-- The only warnings so far are those of carries. -/
def WarnsOfCarries (d : Draft) : Prop :=
  ∀ e ∈ d.journal, e.level = .warn → e.isUndecided = true

/-- Giving a condition an operator writes nothing into the journal. -/
theorem journal_promote (cond : Operand) : (d.promote f cond).journal = d.journal := by
  unfold promote
  split <;> rename_i heq <;> exact congrArg (fun r => r.1.journal) heq.symm

/-- Making the node of an instruction writes nothing into the journal. -/
theorem journal_addRole (step : InstId × Instruction) :
    (d.addRole f step).journal = d.journal := by
  unfold addRole
  split
  · rfl
  · split <;> rename_i heq <;> exact congrArg (fun r => r.1.journal) heq.symm

/-- Making the stream writes nothing into the journal. -/
theorem journal_streamNode : d.streamNode.1.journal = d.journal := by
  unfold streamNode
  split <;> rfl

/-- A proper request adds no other warning. -/
theorem WarnsOfCarries.serve (h : d.WarnsOfCarries) {r : Request} (hr : r.Proper d) :
    (d.serve f r).WarnsOfCarries := by
  have hsame : ∀ {e : Draft}, e.journal = d.journal → e.WarnsOfCarries := by
    intro e heq ev hev
    exact h ev (heq ▸ hev)
  cases r with
  | node | pair | carry | removal => exact h
  | role step => exact hsame (journal_addRole step)
  | promotion cond => exact hsame (journal_promote cond)
  | stream => exact hsame journal_streamNode
  | edge a b =>
      have hnone : (d.graph.connect a b).2 = none := Option.isNone_iff_eq_none.mp hr.2
      exact hsame (by simp [Draft.serve, connect, hnone])
  | report ev =>
      intro ev' hev'
      rcases List.mem_append.mp hev' with hev' | hev'
      · exact h ev' hev'
      · exact List.mem_singleton.mp hev' ▸ hr

/-- Proper requests warn of carries only. -/
theorem Serves.warnsOfCarries (hs : Serves f removing d rs e) (h : d.WarnsOfCarries) :
    e.WarnsOfCarries := by
  induction hs with
  | nil => exact h
  | cons hr _ _ ih => exact ih (h.serve hr)

end Draft

namespace Function

variable {f : Function} {forest : LoopForest} {options : LowerOptions}

/-- All requests that lowering makes, in order. -/
def requests (f : Function) (forest : LoopForest) (options : LowerOptions) : List Request :=
  Requests.steps (Draft.enter f forest options) (Requests.enter f forest options) {} Stage.all

/-- All requests of lowering are proper and lead from the empty draft to the lowered one. -/
theorem serves_requests (f : Function) (forest : LoopForest) (options : LowerOptions) :
    Draft.Serves f true {} (f.requests forest options) (f.lowering forest options) := by
  have hall : Stage.all = [.nodes, .steers, .leaves, .results, .joins, .memory] ++ [.cleanup] :=
    rfl
  rw [requests, lowering, hall, Requests.steps_append, List.foldl_append]
  refine (Requests.stages_serves .empty (by simp)).weaken.append ?_
  rw [Requests.steps, Requests.steps, List.append_nil]
  exact Requests.enter_cleanup_serves

/-- How the requests of lowering are served. -/
structure Served (f : Function) (forest : LoopForest) (options : LowerOptions) : Prop where
  /-- The graph comes from the requests. -/
  graph : (f.lowerWith forest options).graph =
    (Draft.replay f {} (f.requests forest options)).graph
  /-- So does the journal, to which lowering adds a last event. -/
  journal : ∃ e, e.level = .debug ∧ (f.lowerWith forest options).journal =
    (Draft.replay f {} (f.requests forest options)).journal ++ [e]
  /-- An edge is asked for between two nodes that are there then, and is there afterwards. -/
  edge : ∀ before a b after, f.requests forest options = before ++ .edge a b :: after →
    ∃ i j, a = some i ∧ b = some j ∧ (Draft.replay f {} before).Live i ∧
      (Draft.replay f {} before).Live j ∧ ((Draft.replay f {} before).connect a b).2 = true
  /-- A removal is asked for of a node that is there then. -/
  removal : ∀ before i after, f.requests forest options = before ++ .removal i :: after →
    ((Draft.replay f {} before).graph.remove (some i)).removed ≠ none
  /-- What the draft holds of its graph is there until something is removed. -/
  holds : ∀ before after, f.requests forest options = before ++ after →
    (∀ i, .removal i ∉ before) → (Draft.replay f {} before).HoldsLive
  /-- The journal warns of the carries that nothing decides on, and of nothing else. -/
  warnings : (f.lowerWith forest options).journal.filter (·.level = .warn) =
    (f.undecided forest).map f.warning

/-- Lowering asks for nothing that cannot be served. -/
theorem requests_served (f : Function) (forest : LoopForest) (options : LowerOptions) :
    f.Served forest options := by
  have hs := f.serves_requests forest options
  have hreplay := hs.replay_eq
  have hjournal : (f.lowerWith forest options).journal = (f.lowering forest options).journal ++
      [.finished f.name (f.lowering forest options).graph.entries.length
        (f.lowering forest options).graph.links.length] := rfl
  refine ⟨congrArg Draft.graph hreplay.symm, ⟨_, ?_, hreplay ▸ hjournal⟩,
    fun before a b after heq => ?_, fun before i after heq => ?_,
    fun before after heq hno => ?_, ?_⟩
  · rfl
  · obtain ⟨⟨i, j, ha, hb, hi, hj⟩, htrue⟩ := (heq ▸ hs).proper
    exact ⟨i, j, ha, hb, hi, hj, htrue⟩
  · obtain ⟨n, hn⟩ : (Draft.replay f {} before).Live i := (heq ▸ hs).proper
    simp [Graph.remove, hn]
  · have hbuilds : ∀ r ∈ before, r.isRemoval = false := by
      intro r hr
      cases r with
      | removal i => exact absurd hr (hno i)
      | _ => rfl
    exact (((heq ▸ hs).of_append.1.building hbuilds).intact .empty).1.holdsLive
  · rw [← f.undecided_lowerWith forest options, hjournal]
    refine List.filter_congr fun e he => ?_
    have hcarries := hs.warnsOfCarries (fun _ hmem => by cases hmem)
    rw [Bool.eq_iff_iff, decide_eq_true_eq]
    constructor
    · intro hwarn
      rcases List.mem_append.mp he with he | he
      · exact hcarries e he hwarn
      · rw [List.mem_singleton.mp he] at hwarn
        cases hwarn
    · intro hundecided
      cases e <;> first | rfl | cases hundecided

/-- A parameter that is cast and returned is wired once, past the cast. -/
example :
    let f : Function := {
      name := "f", ret := .int 64, params := [⟨"a", .int 32⟩], blocks := [⟨"entry", [0, 1]⟩],
      slots := [⟨some "x", .cast .sext ⟨.int 32, .param 0⟩ (.int 64), 0⟩,
        ⟨none, .ret (some ⟨.int 64, .result 0⟩), 0⟩] }
    (f.requests f.loopForest {}).filter (fun | .report _ => false | _ => true) =
      [.role (1, .ret (some ⟨.int 64, .result 0⟩)), .node (.param 0), .node (.param 0),
        .node (.param 0), .edge (some 1) (some 0)] := by
  decide

end Function

end Dataflow
