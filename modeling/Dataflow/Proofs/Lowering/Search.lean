import Dataflow.Proofs.Lowering.Reasons

/-!
# A search misses nothing

`Draft.Fed f opens target v d` says that everything that produces `v` feeds `target`: there is a set
of instructions, closed under what a search does from each of them, that `v` leads into. A search
leaves such a set behind as the instructions it has visited, if it is deep enough (`feed_complete`).
The depth has to cover one instruction after another and then, for each pair of steers made on the
way, all of them again. The steers that a search makes are fed in their turn (`Draft.Settles`).
-/

namespace Dataflow

/-! ## What a search leaves behind -/

section Fed

variable (f : Function) (d : Draft) (opens : InstId → Prop) (visited : List InstId)
  (target : NodeId)

/-- A search that has come to `visited` is done with a value. -/
def Reached : Operand → Prop
  | .function _ => True
  | .result id => id ∈ visited
  | v => ∃ n, d.graph.find? v = some n ∧ d.graph.hasEdge n target

/-- A search that has come to `visited` has gone on from an instruction. -/
inductive Expanded (id : InstId) : Prop where
  /-- Both steers of a select feed the target. -/
  | select {i p} : f.instruction? id = some i → i.isSelect = true →
      d.steers.lookup id = some p → (∀ taken, d.graph.hasEdge (SteerPair.side p taken) target) →
      Expanded id
  /-- The node of an operator feeds the target. -/
  | node {i n} : f.instruction? id = some i → i.isSelect = false → d.operator? id = some n →
      d.graph.hasEdge n target → Expanded id
  /-- The operands of anything else were searched. -/
  | operands {i} : f.instruction? id = some i → i.isSelect = false → opens id →
      (∀ v ∈ i.operands, Reached d visited target v) → Expanded id

/-- Everything that produces a value feeds a node. -/
def Draft.Fed (v : Operand) : Prop :=
  ∃ visited, (∀ id ∈ visited, Expanded f d opens visited target id) ∧ Reached d visited target v

end Fed

variable {f : Function} {forest : LoopForest} {options : LowerOptions} {d e g : Draft}
  {opens opens' : InstId → Prop} {visited visited' : List InstId} {target a : NodeId}
  {v : Operand} {id : InstId} {p : SteerPair} {s t : Feed}

/-- A search is done with a leaf when its node feeds the target. -/
theorem reached_of_isLeaf (hv : v.isLeaf = true) :
    Reached d visited target v ↔ ∃ n, d.graph.find? v = some n ∧ d.graph.hasEdge n target := by
  cases v <;> first | exact Iff.rfl | simp [Operand.isLeaf] at hv

/-- What a search is done with stays so while drafts grow and more is visited. -/
theorem Reached.mono (h : Reached d visited target v) (hle : d ≤ e)
    (hsub : ∀ id ∈ visited, id ∈ visited') : Reached e visited' target v := by
  cases v with
  | function => trivial
  | result id => exact hsub id h
  | param | const | global =>
      obtain ⟨n, hn, hedge⟩ := h
      exact ⟨n, hle.owner hn, hle.edge hedge⟩

/-- So does an instruction that a search has gone on from. -/
theorem Expanded.mono (h : Expanded f d opens visited target id) (hle : d ≤ e)
    (hsub : ∀ id ∈ visited, id ∈ visited') (hopens : ∀ id, opens id → opens' id) :
    Expanded f e opens' visited' target id := by
  cases h with
  | select hi hsel hp hedge => exact .select hi hsel (hle.steers hp) fun b => hle.edge (hedge b)
  | node hi hsel hn hedge => exact .node hi hsel (hle.operator hn) (hle.edge hedge)
  | operands hi hsel ho hv =>
      exact .operands hi hsel (hopens _ ho) fun w hw => (hv w hw).mono hle hsub

namespace Draft

/-- What feeds a node still feeds it in a later draft. -/
theorem Fed.mono (h : d.Fed f opens target v) (hle : d ≤ e)
    (hopens : ∀ id, opens id → opens' id) : e.Fed f opens' target v := by
  obtain ⟨visited, hclosed, hv⟩ := h
  exact ⟨visited, fun id hid => (hclosed id hid).mono hle (fun _ hx => hx) hopens,
    hv.mono hle fun _ hx => hx⟩

/-- What feeds a node feeds it from every producer, except for an operator that was open to the
search. There the operands feed the node instead. -/
theorem Fed.reaches (h : d.Fed f opens target v) (hsound : d.Sound f)
    (hopens : ∀ id n, d.operator? id = some n → ¬ opens' id) {a : NodeId}
    (ha : Supplies f d opens' v a) : d.graph.hasEdge a target ∨
      ∃ id i, d.operator? id = some a ∧ f.instruction? id = some i ∧ opens id ∧
        ∀ w ∈ i.operands, d.Fed f opens target w := by
  obtain ⟨visited, hclosed, hv⟩ := h
  have hselect : ∀ {id i n}, f.instruction? id = some i → i.isSelect = true →
      d.operator? id ≠ some n := by
    intro id i n hi hsel hn
    obtain ⟨j, hj, hnode⟩ := hsound.result (operator?_eq_some.mp hn).1
    rw [hi] at hj
    cases hj
    rw [(Instruction.not_isSolid_of_isSelect hsel).2] at hnode
    cases hnode
  -- each way to produce `v` meets its own case of `Expanded`; the other cases cannot be
  induction ha with
  | leaf hleaf hn =>
      obtain ⟨m, hm, hedge⟩ := (reached_of_isLeaf hleaf).mp hv
      rw [hn] at hm
      cases hm
      exact Or.inl hedge
  | @steer id i p taken hi hsel hp =>
      cases hclosed _ hv with
      | select _ _ hp' hedge =>
          rw [hp] at hp'
          cases hp'
          exact Or.inl (hedge taken)
      | node hi' hsel' | operands hi' hsel' =>
          rw [hi] at hi'
          cases hi'
          simp [hsel] at hsel'
  | node hn =>
      cases hclosed _ hv with
      | select hi hsel => exact absurd hn (hselect hi hsel)
      | node _ _ hm hedge =>
          rw [hn] at hm
          cases hm
          exact Or.inl hedge
      | operands hi _ ho hall =>
          exact Or.inr ⟨_, _, hn, hi, ho, fun w hw => ⟨visited, hclosed, hall w hw⟩⟩
  | operand hi hsel ho hw _ ih =>
      cases hclosed _ hv with
      | select hi' hsel' =>
          rw [hi] at hi'
          cases hi'
          simp [hsel] at hsel'
      | node _ _ hm => exact absurd ho (hopens _ _ hm)
      | operands hi' _ _ hall =>
          rw [hi] at hi'
          cases hi'
          exact ih (hall _ hw)

/-- What feeds a node feeds it from every producer, if nothing open has an operator. -/
theorem Fed.hasEdge (h : d.Fed f opens target v) (hsound : d.Sound f)
    (hopens : ∀ id n, d.operator? id = some n → ¬ opens id) {a : NodeId}
    (ha : Supplies f d opens v a) : d.graph.hasEdge a target :=
  (h.reaches hsound hopens ha).resolve_right fun ⟨id, _, hop, _, ho, _⟩ => hopens id a hop ho

/-! ## New pairs of steers -/

/-- Everything that produces a value feeds a steer of `id`, past no operator that is in time. -/
def SideFed (f : Function) (id : InstId) (target : NodeId) (v : Operand) (d : Draft) : Prop :=
  d.Fed f (fun x => ¬ f.InTime d.steers id x) target v

/-- What feeds a steer still feeds it. -/
theorem SideFed.mono (h : d.SideFed f id target v) (hp : d.steers.lookup id = some p)
    (hle : d ≤ e) : e.SideFed f id target v :=
  Fed.mono h hle fun _ => mt (hle.inTime hp).mp

/-- Both steers of a pair take the condition and the value of their side. -/
def PairFed (f : Function) (id : InstId) (p : SteerPair) (d : Draft) : Prop :=
  ∀ j taken v, f.instruction? id = some j → j.condition? = some v ∨ j.choice? taken = some v →
    d.SideFed f id (p.side taken) v

/-- From `d` to `e` nothing was lost, and the steers that were made are fed. -/
structure Settles (f : Function) (d e : Draft) : Prop where
  le : d ≤ e
  pair : ∀ {id p}, e.steers.lookup id = some p → d.steers.lookup id = some p ∨ e.PairFed f id p

/-- A pair of steers that is fed stays fed. -/
theorem PairFed.mono (h : d.PairFed f id p) (hp : d.steers.lookup id = some p) (hle : d ≤ e) :
    e.PairFed f id p :=
  fun j taken v hj hv => (h j taken v hj hv).mono hp hle

/-- At least what is an operator by its role is not passed over. -/
theorem PairFed.traced (h : d.PairFed f id p) {j : Instruction} {taken : Bool}
    (hj : f.instruction? id = some j) (hv : j.condition? = some v ∨ j.choice? taken = some v) :
    d.Fed f (fun x => ¬ f.IsSolid x) (p.side taken) v :=
  Fed.mono (h j taken v hj hv) (Le.refl d) fun _ => mt Or.inl

/-- A growing draft that makes no steers settles. -/
theorem Settles.of_le (hle : d ≤ e) (hs : e.steers = d.steers) : Settles f d e :=
  ⟨hle, fun hp => Or.inl (by rwa [hs] at hp)⟩

theorem Settles.refl (d : Draft) : Settles f d d := .of_le (Le.refl d) rfl

theorem Settles.trans (hde : Settles f d e) (heg : Settles f e g) : Settles f d g := by
  refine ⟨hde.le.trans heg.le, fun hp => ?_⟩
  rcases heg.pair hp with hold | hfed
  · rcases hde.pair hold with hold | hfed
    · exact Or.inl hold
    · exact Or.inr (hfed.mono hold heg.le)
  · exact Or.inr hfed

end Draft

/-- The number of instructions without a pair of steers. -/
def Function.unsteered (f : Function) (d : Draft) : Nat :=
  (List.range f.slots.length).countP fun id => (d.steers.lookup id).isNone

/-- There are at most as many choices without steers as instructions. -/
theorem Function.unsteered_le : f.unsteered d ≤ f.slots.length := by
  have h := List.countP_le_length (p := fun id => (d.steers.lookup id).isNone)
    (l := List.range f.slots.length)
  rwa [List.length_range] at h

section Unsteered

variable (h : ∀ id, (e.steers.lookup id).isNone = true → (d.steers.lookup id).isNone = true)

include h

/-- While no pair is lost, no more instructions are without one. -/
theorem Function.unsteered_mono : f.unsteered e ≤ f.unsteered d :=
  List.countP_mono_left fun id _ => h id

/-- A new pair leaves fewer instructions without one. -/
theorem Function.unsteered_lt (hid : id < f.slots.length) (hnew : d.steers.lookup id = none)
    (hp : e.steers.lookup id = some p) : f.unsteered e < f.unsteered d := by
  obtain ⟨front, rest, hsplit⟩ := List.append_of_mem (List.mem_range.mpr hid)
  have hmono : ∀ l : List InstId, l.countP (fun x => (e.steers.lookup x).isNone) ≤
      l.countP fun x => (d.steers.lookup x).isNone :=
    fun l => List.countP_mono_left fun id _ => h id
  have hfront := hmono front
  have hrest := hmono rest
  simp only [Function.unsteered, hsplit, List.countP_append, List.countP_cons, hnew, hp,
    Option.isNone_none, Option.isNone_some, if_true, Bool.false_eq_true, if_false]
  omega

end Unsteered

/-- Pairs of steers are never lost. -/
theorem Draft.Le.isNone_lookup (h : d ≤ e) (id : InstId)
    (hnone : (e.steers.lookup id).isNone = true) : (d.steers.lookup id).isNone = true := by
  cases hp : d.steers.lookup id with
  | none => rfl
  | some p =>
      rw [h.steers hp] at hnone
      cases hnone

/-- No choice loses its steers. -/
theorem Draft.Le.unsteered (h : d ≤ e) : f.unsteered e ≤ f.unsteered d :=
  Function.unsteered_mono h.isNone_lookup

/-- A value refers to an instruction that is in the table, if it refers to one. -/
def Function.Binds (f : Function) (v : Operand) : Prop := ∀ id, v = .result id → id < f.slots.length

/-- The operands of an instruction exist. -/
theorem Function.Resolved.binds (h : f.Resolved) {i : Instruction} (hi : f.instruction? id = some i)
    (hv : v ∈ i.operands) : f.Binds v := by
  intro x heq
  subst heq
  exact h.result hi hv

namespace Draft

/-- A way to wire feeds what it is to feed, if at most `bound` pairs are still to be made. -/
def WireFeeds (f : Function) (forest : LoopForest) (options : LowerOptions) (bound : Nat)
    (opens : InstId → Prop) (wire : Operand → NodeId → Draft → Draft) : Prop :=
  ∀ v target d, Admits f forest options opens v target d → f.Binds v → f.unsteered d < bound →
    Settles f d (wire v target d) ∧ (wire v target d).Fed f opens target v

section Steers

variable {wire : Operand → NodeId → Draft → Draft} {j : Instruction} {cond : Operand} {bound : Nat}
  (hres : f.Resolved)
  (hlawful : ∀ opens, WireLawful f forest options opens wire)
  (hwire : ∀ opens, WireFeeds f forest options bound opens wire)

include hres hlawful hwire

/-- Feeding one side of a pair that is recorded. -/
theorem wire_side (h : Lawful f forest options d) (hp : d.steers.lookup id = some p)
    (hj : f.instruction? id = some j) (hbound : f.unsteered d < bound) {taken : Bool} {w : Operand}
    (hw : j.condition? = some w ∨ j.choice? taken = some w) :
    Lawful f forest options (wire w (p.side taken) d) ∧
      Settles f d (wire w (p.side taken) d) ∧
      (wire w (p.side taken) d).SideFed f id (p.side taken) w := by
  have hadmits := h.admits_side hp hj hw
  have hmem : w ∈ j.operands := by
    rcases hw with hcond | hchoice
    · exact Instruction.mem_operands_of_condition? hcond
    · exact Instruction.mem_operands_of_choice? hchoice
  obtain ⟨hs, hfed⟩ := hwire _ _ _ _ hadmits (hres.binds hj hmem) hbound
  exact ⟨(hlawful _ _ _ _ hadmits).1, hs,
    hfed.mono (Le.refl _) fun _ => mt (hs.le.inTime hp).mp⟩

/-- A pair of steers is fed once it is made. -/
theorem openSteers_settles (h : Lawful f forest options d) (hlive : id ∈ f.live)
    (hj : f.instruction? id = some j) (hcond : j.condition? = some cond)
    (hnew : d.steers.lookup id = none) (hid : id < f.slots.length)
    (hbound : f.unsteered d ≤ bound) :
    Settles f d (d.openSteers f wire id cond (j.choice? true) (j.choice? false)).1 := by
  obtain ⟨hl, hle⟩ := h.newPair hlive hj hcond hnew
  have hsteers : ((d.promote f cond).newPair id).1.steers =
      (id, ((d.promote f cond).newPair id).2) :: d.steers := by
    rw [newPair_steers, (h.sound.promote hlive hj hcond).2.2.2.1]
  rw [openSteers_eq]
  simp only
  generalize ((d.promote f cond).newPair id).1 = d₁ at hl hle hsteers ⊢
  generalize ((d.promote f cond).newPair id).2 = p at hsteers ⊢
  have hp : d₁.steers.lookup id = some p := by rw [hsteers, List.lookup_cons_self]
  have hlt : f.unsteered d₁ < bound :=
    Nat.lt_of_lt_of_le (Function.unsteered_lt hle.isNone_lookup hid hnew hp) hbound
  -- four wires one after another; what one of them has fed stays fed by the later ones
  have hside : ∀ e, Settles f d₁ e → Lawful f forest options e → ∀ taken (v : Option Operand),
      v = j.condition? ∨ v = j.choice? taken →
      Lawful f forest options (wireOption wire v (p.side taken) e) ∧
        Settles f e (wireOption wire v (p.side taken) e) ∧ ∀ w ∈ v,
          (wireOption wire v (p.side taken) e).SideFed f id (p.side taken) w := by
    intro e he hle' taken v hv
    cases v with
    | none => exact ⟨hle', .refl e, by simp⟩
    | some w =>
        obtain ⟨hl', hs', hfed⟩ := wire_side hres hlawful hwire hle' (he.le.steers hp) hj
          (Nat.lt_of_le_of_lt he.le.unsteered hlt) (hv.imp Eq.symm Eq.symm)
        refine ⟨hl', hs', fun x hx => ?_⟩
        cases hx
        exact hfed
  obtain ⟨hl₂, hs₂, hfed₂⟩ := hside d₁ (.refl d₁) hl true (some cond) (Or.inl hcond.symm)
  obtain ⟨hl₃, hs₃, hfed₃⟩ := hside _ hs₂ hl₂ false (some cond) (Or.inl hcond.symm)
  obtain ⟨hl₄, hs₄, hfed₄⟩ := hside _ (hs₂.trans hs₃) hl₃ true (j.choice? true) (Or.inr rfl)
  obtain ⟨hl₅, hs₅, hfed₅⟩ := hside _ ((hs₂.trans hs₃).trans hs₄) hl₄ false (j.choice? false)
    (Or.inr rfl)
  have hlater := hs₄.trans hs₅
  have hall := hs₂.trans (hs₃.trans hlater)
  have hp₂ := hs₂.le.steers hp
  have hp₃ := hs₃.le.steers hp₂
  refine ⟨hle.trans hall.le, fun {x q} hq => ?_⟩
  -- a pair of the later draft is older than the new one, the new one, or made by a wire
  rcases hall.pair hq with hold | hfed
  · rw [hsteers, List.lookup_cons] at hold
    by_cases hx : x = id
    · subst hx
      rw [beq_self_eq_true, Option.some.injEq] at hold
      subst hold
      refine Or.inr fun k taken w hk hw => ?_
      rw [hj] at hk
      cases hk
      rcases hw with hw | hw
      · rw [hcond] at hw
        cases hw
        cases taken with
        | true => exact (hfed₂ cond rfl).mono hp₂ (hs₃.trans hlater).le
        | false => exact (hfed₃ cond rfl).mono hp₃ hlater.le
      · cases taken with
        | true => exact (hfed₄ w hw).mono (hs₄.le.steers hp₃) hs₅.le
        | false => exact hfed₅ w hw
    · rw [beq_false_of_ne hx] at hold
      exact Or.inl hold
  · exact Or.inr hfed

/-- The steers of a select are fed once they are made. -/
theorem selectSteers_settles (h : Lawful f forest options d) (hlive : id ∈ f.live)
    (hj : f.instruction? id = some j) (hsel : j.isSelect = true) (hid : id < f.slots.length)
    (hbound : f.unsteered d ≤ bound) : Settles f d (d.selectSteers f wire id).1 := by
  unfold selectSteers
  cases hp : d.steers.lookup id with
  | some p => exact .refl d
  | none =>
      cases j with
      | select cond ty onTrue onFalse =>
          simp only [hj]
          obtain ⟨hl, hle, hpair⟩ := openSteers_lawful hlawful h hlive hj rfl hp rfl rfl
          have hs := openSteers_settles hres hlawful hwire h hlive hj rfl hp hid hbound
          refine hs.trans ?_
          -- feeding the users makes no further pair
          obtain ⟨_, hsettles⟩ := foldl_keeps (R := Settles f) Settles.refl Settles.trans
            (P := Lawful f forest options)
            (fun e user huser he hle' => by
              obtain ⟨hl', hle'', hsteers⟩ := feedUser_lawful hle' (he.le.steers hpair) hj rfl huser
              exact ⟨hl', .of_le hle'' hsteers⟩) hl
          exact hsettles
      | _ => simp [Instruction.isSelect] at hsel

end Steers

end Draft

/-! ## The search -/

namespace Feed

/-- A search has come to no instruction twice, and to none outside the table. -/
structure Proper (f : Function) (s : Feed) : Prop where
  nodup : s.visited.Nodup
  bound : ∀ id ∈ s.visited, id < f.slots.length

/-- The depth a search may still need: past every instruction it has not come to, and past all of
them for each pair of steers to be made. -/
def effort (f : Function) (s : Feed) : Nat :=
  f.unsteered s.draft * (f.slots.length + 1) + (f.slots.length + 1 - s.visited.length)

/-- How a search gets from `s` to `t`: it goes on from each instruction it comes to. -/
structure Goes (f : Function) (opens : InstId → Prop) (target : NodeId) (s t : Feed) : Prop where
  settles : Draft.Settles f s.draft t.draft
  visited : ∀ id ∈ s.visited, id ∈ t.visited
  expanded : ∀ id ∈ t.visited, id ∈ s.visited ∨ Expanded f t.draft opens t.visited target id

variable {u : Feed} {depth : Nat} {i : Instruction}

theorem Goes.refl (s : Feed) : Goes f opens target s s :=
  ⟨.refl s.draft, fun _ h => h, fun _ h => Or.inl h⟩

theorem Goes.trans (hst : Goes f opens target s t) (htu : Goes f opens target t u) :
    Goes f opens target s u := by
  refine ⟨hst.settles.trans htu.settles, fun id h => htu.visited id (hst.visited id h),
    fun id h => ?_⟩
  rcases htu.expanded id h with hold | hnew
  · rcases hst.expanded id hold with hold | hnew
    · exact Or.inl hold
    · exact Or.inr (hnew.mono htu.settles.le htu.visited fun _ hx => hx)
  · exact Or.inr hnew

/-- A step that makes no pair and comes to no instruction. -/
theorem Goes.of_le (hle : s.draft ≤ t.draft) (hs : t.draft.steers = s.draft.steers)
    (hv : t.visited = s.visited) : Goes f opens target s t :=
  ⟨.of_le hle hs, fun id h => by rwa [hv], fun id h => Or.inl (by rwa [hv] at h)⟩

/-- The instructions that a search has come to are all there is to its start. -/
theorem Goes.fed (h : Goes f opens target { draft := d } t)
    (hv : Reached t.draft t.visited target v) : t.draft.Fed f opens target v := by
  refine ⟨t.visited, fun id hid => ?_, hv⟩
  rcases h.expanded id hid with hnone | hnew
  · cases hnone
  · exact hnew

/-- A search that goes on needs no more depth than before. -/
theorem effort_mono (hs : s.Proper f) (hsteers : f.unsteered t.draft ≤ f.unsteered s.draft)
    (hvisited : ∀ id ∈ s.visited, id ∈ t.visited) : t.effort f ≤ s.effort f := by
  have hlength := List.Nodup.length_le_of_subset hs.nodup fun id hid => hvisited id hid
  have hmul := Nat.mul_le_mul_right (f.slots.length + 1) hsteers
  unfold Feed.effort
  omega

/-- A search never has more to do than before. -/
theorem Goes.effort (h : Goes f opens target s t) (hs : s.Proper f) : t.effort f ≤ s.effort f :=
  effort_mono hs h.settles.le.unsteered h.visited

/-- Visiting an instruction of the table for the first time keeps a search proper. -/
theorem Proper.visit (hs : s.Proper f) (hid : id ∉ s.visited) (hlt : id < f.slots.length) :
    (s.visit id).Proper f := by
  refine ⟨List.nodup_cons.mpr ⟨hid, hs.nodup⟩, fun x hx => ?_⟩
  rcases List.mem_cons.mp hx with rfl | hx
  · exact hlt
  · exact hs.bound x hx

/-- A search visits at most every instruction. -/
theorem Proper.length_le (hs : s.Proper f) : s.visited.length ≤ f.slots.length := by
  have h := List.Nodup.length_le_of_subset hs.nodup
    fun id hid => List.mem_range.mpr (hs.bound id hid)
  rwa [List.length_range] at h

/-- Coming to an instruction takes one step of the depth. -/
theorem effort_visit (hs : (s.visit id).Proper f) : (s.visit id).effort f + 1 = s.effort f := by
  have hle := hs.length_le
  simp only [Feed.effort, Feed.visit, List.length_cons] at hle ⊢
  omega

end Feed

/-- A report at the end of a search takes no edge away. -/
theorem wireBy_feeds {search : Operand → NodeId → Feed → Feed}
    (hgoes : Feed.Goes f opens target { draft := d } (search v target { draft := d }))
    (hv : Reached (search v target { draft := d }).draft (search v target { draft := d }).visited
      target v) :
    Draft.Settles f d (d.wireBy f search v target) ∧
      (d.wireBy f search v target).Fed f opens target v := by
  have hfed := hgoes.fed hv
  have hsettles := hgoes.settles
  simp only [Draft.wireBy]
  split
  · exact ⟨hsettles, hfed⟩
  · have hle := Draft.Le.of_eq (d := (search v target { draft := d }).draft)
      (e := (search v target { draft := d }).draft.report
        (.noProducer f.name (f.operandText v) target)) rfl rfl rfl
    exact ⟨hsettles.trans (.of_le hle rfl), hfed.mono hle fun _ hx => hx⟩

/-- What a search makes of `s` when it is done with `v`. -/
structure Feed.Done (f : Function) (opens : InstId → Prop) (v : Operand) (target : NodeId)
    (s t : Feed) : Prop where
  proper : t.Proper f
  goes : s.Goes f opens target t
  reached : Reached t.draft t.visited target v

/-- A search is done with a leaf after the edge from its node. -/
theorem Feed.fromLeaf_done (h : Draft.Admits f forest options opens v target s.draft)
    (hs : s.Proper f) (hv : v.isLeaf = true) : s.Done f opens v target (s.fromLeaf f v target) := by
  obtain ⟨_, hgrow⟩ := Feed.fromLeaf_lawful h.lawful h.node hv
    fun e a he ha => h.reason e a he (.leaf hv ha)
  obtain ⟨hsound, hle, hfind⟩ := h.lawful.sound.nodeFor v
  obtain ⟨i, hi⟩ := Draft.nodeFor_leaf (f := f) (d := s.draft) hv
  rw [hi] at hfind
  obtain ⟨n, hn, _⟩ := hsound.full.owner hfind
  refine ⟨⟨hs.nodup, hs.bound⟩, .of_le hgrow rfl rfl, (reached_of_isLeaf hv).mpr ⟨i, ?_, ?_⟩⟩
  · rw [fromLeaf_draft, hi]
    simpa [Draft.connect] using hfind
  · rw [fromLeaf_draft, hi]
    exact (Draft.hasEdge_link ⟨n, hn⟩ (hle.node_exists h.node)).mpr (Or.inr ⟨rfl, rfl⟩)

/-- Searches of the given depth are done with every value they have the depth for. -/
def SearchDone (f : Function) (forest : LoopForest) (options : LowerOptions) (depth : Nat) : Prop :=
  ∀ opens v target (s : Feed), Draft.Admits f forest options opens v target s.draft → f.Binds v →
    s.Proper f → s.effort f ≤ depth → s.Done f opens v target (feed f depth v target s)

/-- Wiring feeds its target when searches of enough depth are done. -/
theorem wireFeeds_of_searchDone {depth bound : Nat} (h : SearchDone f forest options depth)
    (hbound : bound * (f.slots.length + 1) ≤ depth) (opens : InstId → Prop) :
    Draft.WireFeeds f forest options bound opens (Draft.wireBy f (feed f depth)) := by
  intro v target d hadmits hv hlt
  have hmul := Nat.mul_le_mul_right (f.slots.length + 1) (Nat.succ_le_of_lt hlt)
  have hdone := h opens v target { draft := d } hadmits hv ⟨List.nodup_nil, by simp⟩ (by
    simp only [Feed.effort, List.length_nil, Nat.sub_zero]
    rw [Nat.succ_mul] at hmul
    omega)
  exact wireBy_feeds hdone.goes hdone.reached

section Step

variable {depth : Nat} {i : Instruction} (hlive : ∀ id i, f.instruction? id = some i → id ∈ f.live)
  (hres : f.Resolved) (ih : SearchDone f forest options depth)
  (h : Draft.Admits f forest options opens (.result id) target s.draft)
  (hs : (s.visit id).Proper f) (hmem : id ∉ s.visited) (hi : f.instruction? id = some i)

include h hs hmem hi

/-- A search is done with an operator after the edge from it. -/
theorem feed_operator_done (hsel : i.isSelect = false) {n : NodeId}
    (hop : s.draft.operator? id = some n) :
    s.Done f opens (.result id) target (feed f (depth + 1) (.result id) target s) := by
  have hn := h.lawful.operator_node hop
  obtain ⟨_, hle⟩ := h.lawful.connect hn h.node (h.reason _ _ (Draft.Le.refl _) (.node hop))
  rw [feed_of_operator hmem hi hsel hop]
  refine ⟨⟨hs.nodup, hs.bound⟩, ⟨.of_le hle rfl, fun x hx => List.mem_cons_of_mem _ hx,
    fun x hx => ?_⟩, List.mem_cons_self⟩
  rcases List.mem_cons.mp hx with rfl | hx
  · exact Or.inr (.node hi hsel (hle.operator hop)
      ((Draft.hasEdge_link hn h.node).mpr (Or.inr ⟨rfl, rfl⟩)))
  · exact Or.inl hx

include hlive hres ih

/-- A search is done with a select after the edges from both its steers. -/
theorem feed_select_done (hsel : i.isSelect = true) (hdepth : (s.visit id).effort f ≤ depth) :
    s.Done f opens (.result id) target (feed f (depth + 1) (.result id) target s) := by
  have hbound : f.unsteered s.draft * (f.slots.length + 1) ≤ depth :=
    Nat.le_trans (Nat.le_add_right _ _) hdepth
  have hwire : ∀ opens, Draft.WireLawful f forest options opens _ :=
    Draft.wireBy_lawful hlive depth
  obtain ⟨hl, hle, p, hpair, hp⟩ :=
    Draft.selectSteers_lawful hwire h.lawful (hlive id i hi) hi hsel
  have hsettles := Draft.selectSteers_settles hres hwire (wireFeeds_of_searchDone ih hbound)
    h.lawful (hlive id i hi) hi hsel (hs.bound id List.mem_cons_self) (Nat.le_refl _)
  rw [feed_of_isSelect hmem hi hsel (Prod.ext rfl hpair)]
  obtain ⟨_, hle', hedge⟩ := Feed.fromSteers_lawful (s := { s.visit id with draft := _ }) hl
    (hle.node_exists h.node) hp
    fun e taken he => h.reason e _ (hle.trans he) (.steer hi hsel (he.steers hp))
  refine ⟨⟨hs.nodup, hs.bound⟩, ⟨hsettles.trans (.of_le hle' rfl),
    fun x hx => List.mem_cons_of_mem _ hx, fun x hx => ?_⟩, List.mem_cons_self⟩
  rcases List.mem_cons.mp hx with rfl | hx
  · exact Or.inr (.select hi hsel (hle'.steers hp) hedge)
  · exact Or.inl hx

/-- A search is done with an instruction without an operator after its operands. -/
theorem feed_open_done (hsel : i.isSelect = false) (hop : s.draft.operator? id = none)
    (hdepth : (s.visit id).effort f ≤ depth) :
    s.Done f opens (.result id) target (feed f (depth + 1) (.result id) target s) := by
  rw [feed_of_open hmem hi hsel hop]
  obtain ⟨⟨_, hproper⟩, hgoes, hall⟩ := foldl_grows (s := s.visit id)
    (R := Feed.Goes f opens target) Feed.Goes.refl Feed.Goes.trans
    (P := fun t => Draft.Lawful f forest options t.draft ∧ t.Proper f)
    (Q := fun w t => Reached t.draft t.visited target w) (g := fun t w => feed f depth w target t)
    (l := i.operands)
    (fun t w hw hgoes ⟨hl, ht⟩ => by
      have hadmits := (h.operand hi hsel hop hw).later hl hgoes.settles.le
      have hdone := ih opens w target t hadmits (hres.binds hi hw) ht
        (Nat.le_trans (hgoes.effort hs) hdepth)
      exact ⟨⟨(feed_lawful hlive depth hadmits).1, hdone.proper⟩, hdone.goes, hdone.reached⟩)
    (fun w t u hw hgoes _ => hw.mono hgoes.settles.le hgoes.visited) ⟨h.lawful, hs⟩
  refine ⟨hproper, ⟨hgoes.settles, fun x hx => hgoes.visited x (List.mem_cons_of_mem _ hx),
    fun x hx => ?_⟩, hgoes.visited id List.mem_cons_self⟩
  rcases hgoes.expanded x hx with hold | hnew
  · rcases List.mem_cons.mp hold with rfl | hold
    · exact Or.inr (.operands hi hsel (h.covers _ hop) hall)
    · exact Or.inl hold
  · exact Or.inr hnew

end Step

/-- A search that is deep enough misses nothing. -/
theorem feed_complete (hlive : ∀ id i, f.instruction? id = some i → id ∈ f.live)
    (hres : f.Resolved) (depth : Nat) : SearchDone f forest options depth := by
  -- coming to an instruction takes one off the effort, so the depth is never used up
  induction depth with
  | zero =>
      intro opens v target s h hv hs hdepth
      cases v with
      | function => exact ⟨hs, .refl s, trivial⟩
      | param | const | global => exact Feed.fromLeaf_done h hs rfl
      | result id =>
          have hle := hs.length_le
          unfold Feed.effort at hdepth
          omega
  | succ depth ih =>
      intro opens v target s h hv hs hdepth
      cases v with
      | function => exact ⟨hs, .refl s, trivial⟩
      | param | const | global => exact Feed.fromLeaf_done h hs rfl
      | result id =>
          by_cases hmem : id ∈ s.visited
          · rw [feed_of_mem hmem]
            exact ⟨hs, .refl s, hmem⟩
          have hid := hv id rfl
          obtain ⟨i, hi⟩ : ∃ i, f.instruction? id = some i := by
            simp [Function.instruction?, List.getElem?_eq_getElem hid]
          have hvisit := hs.visit hmem hid
          have heffort : (s.visit id).effort f ≤ depth := by
            have hstep := Feed.effort_visit hvisit
            omega
          cases hsel : i.isSelect with
          | true => exact feed_select_done hlive hres ih h hvisit hmem hi hsel heffort
          | false =>
              cases hop : s.draft.operator? id with
              | some n => exact feed_operator_done h hvisit hmem hi hsel hop
              | none => exact feed_open_done hlive hres ih h hvisit hmem hi hsel hop heffort

/-- Wiring a value misses nothing, however many pairs of steers are still to be made. -/
theorem Draft.wire_feeds (hlive : ∀ id i, f.instruction? id = some i → id ∈ f.live)
    (hres : f.Resolved) (opens : InstId → Prop) :
    WireFeeds f forest options (f.slots.length + 1) opens (wire f) :=
  wireFeeds_of_searchDone (feed_complete hlive hres f.feedDepth) (Nat.le_refl _) opens

end Dataflow
