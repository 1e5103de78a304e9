import Dataflow.Proofs.Lowering.Changes
import Dataflow.Proofs.Lowering.Search

/-!
# Searches end

`Wires`, `Resolves`, `Selects` and `Opens` tell how a value is wired, how its producers are searched
for, and how pairs of steers are made, without a bound on the depth: each calls the others as the
search goes, and a derivation is a run that comes to its end. In a function whose references lead
somewhere every run ends, in the draft that the bounded search gives (`wires_iff`). Each nested wire
starts with nothing visited, so that visited instructions alone do not bound the depth; but a nested
wire comes after another pair of steers was recorded, and there are no more pairs than instructions
(`Feed.effort`). Nothing is asked of the draft, and nothing of the order of definitions and uses.
-/

namespace Dataflow

/-- The parameter or the instruction that a value refers to is there. -/
def Function.Refers (f : Function) : Operand → Prop
  | .param k => k < f.params.length
  | .result id => id < f.slots.length
  | _ => True

/-- Whether an operand refers to something is decided by its number. -/
instance (f : Function) : DecidablePred f.Refers
  | .param k => inferInstanceAs (Decidable (k < f.params.length))
  | .result id => inferInstanceAs (Decidable (id < f.slots.length))
  | .const _ | .global _ | .function _ => inferInstanceAs (Decidable True)

/-- What instructions and blocks refer to is there. Operands may refer to one another in circles, to
later instructions and to detached ones. -/
structure Function.InRange (f : Function) : Prop where
  /-- Blocks list instructions. -/
  listed : ∀ id ∈ f.live, id < f.slots.length
  /-- Operands are there. -/
  operands : ∀ s ∈ f.slots, ∀ v ∈ s.instruction.operands, f.Refers v
  /-- Branches and arms name blocks. -/
  blocks : ∀ s ∈ f.slots, ∀ b ∈ s.instruction.blockRefs, b < f.blocks.length

namespace Function

variable {f : Function} {id : InstId} {i : Instruction} {v : Operand} {b : BlockId}

/-- An instruction that is there is in the table. -/
theorem lt_length_of_instruction? (h : f.instruction? id = some i) : id < f.slots.length := by
  obtain ⟨s, hs, _⟩ := Option.map_eq_some_iff.mp h
  exact (List.getElem?_eq_some_iff.mp hs).1

/-- Every number in the table leads to an instruction. -/
theorem exists_instruction? (h : id < f.slots.length) : ∃ i, f.instruction? id = some i := by
  simp [instruction?, List.getElem?_eq_getElem h]

/-- The operands of an instruction refer to something. -/
theorem InRange.operand (h : f.InRange) (hi : f.instruction? id = some i) (hv : v ∈ i.operands) :
    f.Refers v := by
  obtain ⟨s, hs, rfl⟩ := Option.map_eq_some_iff.mp hi
  exact h.operands s (List.mem_of_getElem? hs) v hv

/-- An instruction refers to blocks of the function. -/
theorem InRange.block (h : f.InRange) (hi : f.instruction? id = some i) (hb : b ∈ i.blockRefs) :
    b < f.blocks.length := by
  obtain ⟨s, hs, rfl⟩ := Option.map_eq_some_iff.mp hi
  exact h.blocks s (List.mem_of_getElem? hs) b hb

end Function

/-! ## Runs without a bound -/

mutual

/-- Wiring a value into a node comes to an end, and makes one draft of another. -/
inductive Wires (f : Function) : Operand → NodeId → Draft → Draft → Prop where
  /-- Something produces the value. -/
  | found {v target d s} : Resolves f v target { draft := d } s → s.fed = true →
      Wires f v target d s.draft
  /-- Nothing does. -/
  | missing {v target d s} : Resolves f v target { draft := d } s → s.fed = false →
      Wires f v target d (s.draft.report (.noProducer f.name (f.operandText v) target))

/-- A search for what produces a value comes to an end. -/
inductive Resolves (f : Function) : Operand → NodeId → Feed → Feed → Prop where
  | function {name target s} : Resolves f (.function name) target s s
  | leaf {v target s} : v.isLeaf = true → f.Refers v →
      Resolves f v target s (s.fromLeaf f v target)
  | visited {id target s} : id ∈ s.visited → Resolves f (.result id) target s s
  | select {id target s i d p} : id ∉ s.visited → f.instruction? id = some i →
      i.isSelect = true → Selects f id s.draft d p →
      Resolves f (.result id) target s ({ s.visit id with draft := d }.fromSteers p target)
  | operator {id target s i n} : id ∉ s.visited → f.instruction? id = some i →
      i.isSelect = false → s.draft.operator? id = some n →
      Resolves f (.result id) target s ((s.visit id).fromNode n target)
  | operands {id target s t i} : id ∉ s.visited → f.instruction? id = some i →
      i.isSelect = false → s.draft.operator? id = none →
      ResolvesAll f i.operands target (s.visit id) t → Resolves f (.result id) target s t

/-- Searches for operands, one after another, come to an end. -/
inductive ResolvesAll (f : Function) : List Operand → NodeId → Feed → Feed → Prop where
  | nil {target s} : ResolvesAll f [] target s s
  | cons {v rest target s t u} : Resolves f v target s t → ResolvesAll f rest target t u →
      ResolvesAll f (v :: rest) target s u

/-- Asking for the pair of steers of a select comes to an end. -/
inductive Selects (f : Function) : InstId → Draft → Draft → SteerPair → Prop where
  /-- The pair is there. -/
  | known {id d p} : d.steers.lookup id = some p → Selects f id d d p
  /-- The pair is made, and feeds the users. -/
  | made {id cond ty onTrue onFalse d e p} : d.steers.lookup id = none →
      f.instruction? id = some (.select cond ty onTrue onFalse) →
      Opens f id cond (some onTrue) (some onFalse) d e p →
      Selects f id d ((f.users (.result id)).foldl (Draft.feedUser f p) e) p

/-- Making a pair of steers comes to an end. The pair is recorded before anything is wired. -/
inductive Opens (f : Function) :
    InstId → Operand → Option Operand → Option Operand → Draft → Draft → SteerPair → Prop where
  | pair {id cond onTrue onFalse d d₁ d₂ d₃ d₄ d₅ p} : (d.promote f cond).newPair id = (d₁, p) →
      Wires f cond (p.side true) d₁ d₂ → Wires f cond (p.side false) d₂ d₃ →
      WiresOption f onTrue (p.side true) d₃ d₄ → WiresOption f onFalse (p.side false) d₄ d₅ →
      Opens f id cond onTrue onFalse d d₅ p

/-- Wiring a value that may not be given comes to an end. -/
inductive WiresOption (f : Function) : Option Operand → NodeId → Draft → Draft → Prop where
  | none {target d} : WiresOption f none target d d
  | some {v target d e} : Wires f v target d e → WiresOption f (some v) target d e

end

variable {f : Function} {d e : Draft} {v : Operand} {target : NodeId} {id : InstId}
  {p : SteerPair} {s t : Feed} {i : Instruction} {depth : Nat}

/-! ## Pairs of steers -/

/-- A choice without steers had none before. -/
theorem Draft.isNone_lookup_of_suffix (h : d.steers <:+ e.steers) (id : InstId)
    (hnone : (e.steers.lookup id).isNone = true) : (d.steers.lookup id).isNone = true := by
  obtain ⟨front, heq⟩ := h
  rw [← heq, List.lookup_append] at hnone
  cases hp : d.steers.lookup id with
  | none => rfl
  | some p =>
      rw [hp, Option.isNone_iff_eq_none, Option.or_eq_none_iff] at hnone
      cases hnone.2

namespace Draft

/-- Feeding a user opens no steers. -/
@[simp] theorem feedUser_steers (user : InstId) : (d.feedUser f p user).steers = d.steers := by
  unfold feedUser
  split
  · rfl
  · cases d.operator? user <;> rfl

/-- Feeding all users opens no steers. -/
theorem foldl_feedUser_steers (users : List InstId) :
    (users.foldl (feedUser f p) d).steers = d.steers :=
  List.foldlRecOn users _ (motive := fun e : Draft => e.steers = d.steers) rfl
    fun _ he user _ => (feedUser_steers user).trans he

/-- A way to wire ends and loses no pair, if fewer than `bound` pairs are still to be made. -/
def WireEnds (f : Function) (bound : Nat) (wire : Operand → NodeId → Draft → Draft) : Prop :=
  ∀ v target d, f.Refers v → f.unsteered d < bound →
    Wires f v target d (wire v target d) ∧ d.steers <:+ (wire v target d).steers

section Steers

variable {wire : Operand → NodeId → Draft → Draft} {bound : Nat} {cond : Operand}
  {onTrue onFalse : Option Operand} (hwire : WireEnds f bound wire)

include hwire

/-- Wiring a value that may be missing runs to its end within the bound. -/
theorem wiresOption_wireOption (target : NodeId) {v : Option Operand} (hv : ∀ w ∈ v, f.Refers w)
    (hbound : f.unsteered d < bound) :
    WiresOption f v target d (wireOption wire v target d) ∧
      d.steers <:+ (wireOption wire v target d).steers := by
  cases v with
  | none => exact ⟨.none, List.suffix_refl _⟩
  | some w =>
      obtain ⟨hrun, hsteers⟩ := hwire w target d (hv w rfl) hbound
      exact ⟨.some hrun, hsteers⟩

/-- Making a pair ends, as one pair less is to be made from when the pair is recorded. -/
theorem opens_openSteers (hid : id < f.slots.length) (hnew : d.steers.lookup id = none)
    (hbound : f.unsteered d ≤ bound) (hcond : f.Refers cond) (htrue : ∀ v ∈ onTrue, f.Refers v)
    (hfalse : ∀ v ∈ onFalse, f.Refers v) :
    Opens f id cond onTrue onFalse d (d.openSteers f wire id cond onTrue onFalse).1
      (d.openSteers f wire id cond onTrue onFalse).2 ∧
      d.steers <:+ (d.openSteers f wire id cond onTrue onFalse).1.steers := by
  rw [openSteers_eq]
  simp only
  cases hpair : (d.promote f cond).newPair id with
  | mk d₁ p =>
      have hsteers : d₁.steers = (id, p) :: d.steers := by
        have h : ((d.promote f cond).newPair id).1.steers = _ := newPair_steers
        rwa [hpair, promote_steers] at h
      have hrecord : d.steers <:+ d₁.steers := hsteers ▸ List.suffix_cons _ _
      have hlt : f.unsteered d₁ < bound :=
        Nat.lt_of_lt_of_le (Function.unsteered_lt (isNone_lookup_of_suffix hrecord) hid hnew
          (by rw [hsteers, List.lookup_cons_self])) hbound
      have hlater : ∀ e : Draft, d₁.steers <:+ e.steers → f.unsteered e < bound := fun e he =>
        Nat.lt_of_le_of_lt (Function.unsteered_mono (isNone_lookup_of_suffix he)) hlt
      obtain ⟨h₂, hs₂⟩ := hwire cond (p.side true) d₁ hcond hlt
      obtain ⟨h₃, hs₃⟩ := hwire cond (p.side false) _ hcond (hlater _ hs₂)
      obtain ⟨h₄, hs₄⟩ := wiresOption_wireOption hwire (p.side true) htrue
        (hlater _ (hs₂.trans hs₃))
      obtain ⟨h₅, hs₅⟩ := wiresOption_wireOption hwire (p.side false) hfalse
        (hlater _ ((hs₂.trans hs₃).trans hs₄))
      exact ⟨.pair hpair h₂ h₃ h₄ h₅, hrecord.trans (((hs₂.trans hs₃).trans hs₄).trans hs₅)⟩

/-- Asking for the pair of a select ends. -/
theorem selects_selectSteers (hf : f.InRange) (hi : f.instruction? id = some i)
    (hsel : i.isSelect = true) (hid : id < f.slots.length) (hbound : f.unsteered d ≤ bound) :
    ∃ e p, d.selectSteers f wire id = (e, some p) ∧ Selects f id d e p ∧
      d.steers <:+ e.steers := by
  unfold selectSteers
  cases hp : d.steers.lookup id with
  | some p => exact ⟨d, p, rfl, .known hp, List.suffix_refl _⟩
  | none =>
      cases i with
      | select cond ty onTrue onFalse =>
          have hrefers : ∀ {v}, v ∈ [cond, onTrue, onFalse] → f.Refers v := hf.operand hi
          obtain ⟨hopen, hsteers⟩ : Opens f id cond (some onTrue) (some onFalse) d _ _ ∧ _ :=
            opens_openSteers hwire hid hp hbound (hrefers (by simp))
              (fun v hv => hrefers (by simp_all)) (fun v hv => hrefers (by simp_all))
          simp only [hi]
          exact ⟨_, _, rfl, .made hp hi hopen, by rwa [foldl_feedUser_steers]⟩
      | _ => cases hsel

end Steers

end Draft

/-! ## The search -/

/-- What is true of a search that ends. -/
structure Feed.Ends (f : Function) (v : Operand) (target : NodeId) (s t : Feed) : Prop where
  run : Resolves f v target s t
  proper : t.Proper f
  visited : ∀ id ∈ s.visited, id ∈ t.visited
  steers : s.draft.steers <:+ t.draft.steers

/-- Searches of the given depth end with every value they have the depth for. -/
def SearchEnds (f : Function) (depth : Nat) : Prop :=
  ∀ v target (s : Feed), f.Refers v → s.Proper f → s.effort f ≤ depth →
    s.Ends f v target (feed f depth v target s)

/-- Wiring runs to its end when the search does, for as many choices as the depth covers. -/
theorem wireEnds_of_searchEnds {bound : Nat} (h : SearchEnds f depth)
    (hbound : bound * (f.slots.length + 1) ≤ depth) :
    Draft.WireEnds f bound (Draft.wireBy f (feed f depth)) := by
  intro v target d hv hlt
  have hmul := Nat.mul_le_mul_right (f.slots.length + 1) (Nat.succ_le_of_lt hlt)
  have hends := h v target { draft := d } hv ⟨List.nodup_nil, by simp⟩ (by
    simp only [Feed.effort, List.length_nil, Nat.sub_zero]
    rw [Nat.succ_mul] at hmul
    omega)
  simp only [Draft.wireBy]
  split
  · rename_i hfed
    exact ⟨.found hends.run hfed, hends.steers⟩
  · rename_i hfed
    exact ⟨.missing hends.run (by simpa using hfed), hends.steers⟩

/-- Searches for operands end if each search does. -/
theorem resolvesAll_foldl (h : SearchEnds f depth) (target : NodeId) {vs : List Operand}
    (hvs : ∀ v ∈ vs, f.Refers v) (hs : s.Proper f) (hdepth : s.effort f ≤ depth) :
    ResolvesAll f vs target s (vs.foldl (fun s v => feed f depth v target s) s) ∧
      (vs.foldl (fun s v => feed f depth v target s) s).Proper f ∧
      (∀ id ∈ s.visited, id ∈ (vs.foldl (fun s v => feed f depth v target s) s).visited) ∧
      s.draft.steers <:+ (vs.foldl (fun s v => feed f depth v target s) s).draft.steers := by
  induction vs generalizing s with
  | nil => exact ⟨.nil, hs, fun _ hid => hid, List.suffix_refl _⟩
  | cons v vs ih =>
      have hend := h v target s (hvs v List.mem_cons_self) hs hdepth
      have hless := Feed.effort_mono hs
        (Function.unsteered_mono (Draft.isNone_lookup_of_suffix hend.steers)) hend.visited
      obtain ⟨hrun, hproper, hvisited, hsteers⟩ := ih
        (fun w hw => hvs w (List.mem_cons_of_mem v hw)) hend.proper (Nat.le_trans hless hdepth)
      exact ⟨.cons hend.run hrun, hproper, fun id hid => hvisited id (hend.visited id hid),
        hend.steers.trans hsteers⟩

/-- A search that is deep enough ends. -/
theorem feed_ends (hf : f.InRange) (depth : Nat) : SearchEnds f depth := by
  -- coming to an instruction takes one off the effort, so the depth is never used up
  induction depth with
  | zero =>
      intro v target s hv hs hdepth
      cases v with
      | function => exact ⟨.function, hs, fun _ hid => hid, List.suffix_refl _⟩
      | param | const | global =>
          exact ⟨.leaf rfl hv, ⟨hs.nodup, hs.bound⟩, fun _ hid => hid, List.suffix_refl _⟩
      | result id =>
          have hle := hs.length_le
          unfold Feed.effort at hdepth
          omega
  | succ depth ih =>
      intro v target s hv hs hdepth
      cases v with
      | function => exact ⟨.function, hs, fun _ hid => hid, List.suffix_refl _⟩
      | param | const | global =>
          exact ⟨.leaf rfl hv, ⟨hs.nodup, hs.bound⟩, fun _ hid => hid, List.suffix_refl _⟩
      | result id =>
          by_cases hmem : id ∈ s.visited
          · rw [feed_of_mem hmem]
            exact ⟨.visited hmem, hs, fun _ hid => hid, List.suffix_refl _⟩
          have hid : id < f.slots.length := hv
          obtain ⟨i, hi⟩ := Function.exists_instruction? hid
          have hvisit := hs.visit hmem hid
          have heffort : (s.visit id).effort f ≤ depth := by
            have hstep := Feed.effort_visit hvisit
            omega
          cases hsel : i.isSelect with
          | true =>
              have hbound : f.unsteered s.draft * (f.slots.length + 1) ≤ depth :=
                Nat.le_trans (Nat.le_add_right _ _) heffort
              obtain ⟨e, p, hsteers, hrun, hsuffix⟩ := Draft.selects_selectSteers
                (wireEnds_of_searchEnds ih hbound) hf hi hsel hid (Nat.le_refl _)
              rw [feed_of_isSelect hmem hi hsel hsteers]
              exact ⟨.select hmem hi hsel hrun, ⟨hvisit.nodup, hvisit.bound⟩,
                fun x hx => List.mem_cons_of_mem _ hx, hsuffix⟩
          | false =>
              cases hop : s.draft.operator? id with
              | some n =>
                  rw [feed_of_operator hmem hi hsel hop]
                  exact ⟨.operator hmem hi hsel hop, ⟨hvisit.nodup, hvisit.bound⟩,
                    fun x hx => List.mem_cons_of_mem _ hx, List.suffix_refl _⟩
              | none =>
                  rw [feed_of_open hmem hi hsel hop]
                  obtain ⟨hrun, hproper, hvisited, hsteers⟩ := resolvesAll_foldl ih
                    target (fun v hv => hf.operand hi hv) hvisit heffort
                  exact ⟨.operands hmem hi hsel hop hrun, hproper,
                    fun x hx => hvisited x (List.mem_cons_of_mem _ hx), hsteers⟩

/-- Wiring a value ends, however many pairs of steers are still to be made. -/
theorem Draft.wire_ends (hf : f.InRange) : WireEnds f (f.slots.length + 1) (wire f) :=
  wireEnds_of_searchEnds (feed_ends hf f.feedDepth) (Nat.le_refl _)

/-! ## A run has one outcome -/

mutual

/-- A run that wires a value is what every wire does that is deep enough. -/
theorem Wires.eventually {f : Function} {v : Operand} {target : NodeId} {d e : Draft}
    (h : Wires f v target d e) :
    ∃ least, ∀ depth, least ≤ depth → d.wireBy f (feed f depth) v target = e :=
  match h with
  | .found hrun hfed => by
      obtain ⟨least, h⟩ := hrun.eventually
      exact ⟨least, fun depth hdepth => by rw [Draft.wireBy, h depth hdepth, if_pos hfed]⟩
  | .missing hrun hfed => by
      obtain ⟨least, h⟩ := hrun.eventually
      exact ⟨least, fun depth hdepth => by
        rw [Draft.wireBy, h depth hdepth, if_neg (by simp [hfed])]⟩

/-- A search that ends is found by every depth from some depth on. -/
theorem Resolves.eventually {f : Function} {v : Operand} {target : NodeId} {s t : Feed}
    (h : Resolves f v target s t) :
    ∃ least, ∀ depth, least ≤ depth → feed f depth v target s = t :=
  match h with
  | .function => ⟨0, fun depth _ => by cases depth <;> rfl⟩
  | .leaf hv _ => by
      refine ⟨0, fun depth _ => ?_⟩
      cases v with
      | param | const | global => cases depth <;> rfl
      | _ => cases hv
  | .visited hmem => by
      refine ⟨1, fun depth hdepth => ?_⟩
      obtain ⟨depth, rfl⟩ := Nat.exists_eq_add_of_le' hdepth
      exact feed_of_mem hmem
  | .select hmem hi hsel hrun => by
      obtain ⟨least, h⟩ := hrun.eventually
      refine ⟨least + 1, fun depth hdepth => ?_⟩
      obtain ⟨depth, rfl⟩ := Nat.exists_eq_add_of_le' hdepth
      exact feed_of_isSelect hmem hi hsel (h (depth + least) (Nat.le_add_left _ _))
  | .operator hmem hi hsel hop => by
      refine ⟨1, fun depth hdepth => ?_⟩
      obtain ⟨depth, rfl⟩ := Nat.exists_eq_add_of_le' hdepth
      exact feed_of_operator hmem hi hsel hop
  | .operands hmem hi hsel hop hrun => by
      obtain ⟨least, h⟩ := hrun.eventually
      refine ⟨least + 1, fun depth hdepth => ?_⟩
      obtain ⟨depth, rfl⟩ := Nat.exists_eq_add_of_le' hdepth
      rw [← h (depth + least) (Nat.le_add_left _ _)]
      exact feed_of_open hmem hi hsel hop

/-- So are searches for one value after the other. -/
theorem ResolvesAll.eventually {f : Function} {vs : List Operand} {target : NodeId} {s t : Feed}
    (h : ResolvesAll f vs target s t) :
    ∃ least, ∀ depth, least ≤ depth → vs.foldl (fun s v => feed f depth v target s) s = t :=
  match h with
  | .nil => ⟨0, fun _ _ => rfl⟩
  | .cons hfirst hrest => by
      obtain ⟨m, hm⟩ := hfirst.eventually
      obtain ⟨n, hn⟩ := hrest.eventually
      refine ⟨max m n, fun depth hdepth => ?_⟩
      rw [List.foldl_cons, hm depth (by omega), hn depth (by omega)]

/-- So is the making of the steers of a select. -/
theorem Selects.eventually {f : Function} {id : InstId} {d e : Draft} {p : SteerPair}
    (h : Selects f id d e p) :
    ∃ least, ∀ depth, least ≤ depth →
      d.selectSteers f (Draft.wireBy f (feed f depth)) id = (e, some p) :=
  match h with
  | .known hp => ⟨0, fun depth _ => by rw [Draft.selectSteers, hp]⟩
  | .made hnew hi hrun => by
      obtain ⟨least, h⟩ := hrun.eventually
      exact ⟨least, fun depth hdepth => by
        simp only [Draft.selectSteers, hnew, hi, h depth hdepth]⟩

/-- So is the opening of a pair of steers. -/
theorem Opens.eventually {f : Function} {id : InstId} {cond : Operand}
    {onTrue onFalse : Option Operand} {d e : Draft} {p : SteerPair}
    (h : Opens f id cond onTrue onFalse d e p) :
    ∃ least, ∀ depth, least ≤ depth →
      d.openSteers f (Draft.wireBy f (feed f depth)) id cond onTrue onFalse = (e, p) :=
  match h with
  | .pair hpair h₂ h₃ h₄ h₅ => by
      obtain ⟨k, hk⟩ := h₂.eventually
      obtain ⟨l, hl⟩ := h₃.eventually
      obtain ⟨m, hm⟩ := h₄.eventually
      obtain ⟨n, hn⟩ := h₅.eventually
      refine ⟨max (max k l) (max m n), fun depth hdepth => ?_⟩
      rw [Draft.openSteers_eq]
      simp only [hpair]
      rw [hk depth (by omega), hl depth (by omega), hm depth (by omega), hn depth (by omega)]

/-- So is the wiring of a value that may be missing. -/
theorem WiresOption.eventually {f : Function} {v : Option Operand} {target : NodeId} {d e : Draft}
    (h : WiresOption f v target d e) :
    ∃ least, ∀ depth, least ≤ depth →
      Draft.wireOption (Draft.wireBy f (feed f depth)) v target d = e :=
  match h with
  | .none => ⟨0, fun _ _ => rfl⟩
  | .some hrun => hrun.eventually

end

/-- What every deep enough depth gives is one outcome. -/
theorem eq_of_eventually {α : Type} {outcome : Nat → α} {x y : α}
    (hx : ∃ least, ∀ depth, least ≤ depth → outcome depth = x)
    (hy : ∃ least, ∀ depth, least ≤ depth → outcome depth = y) : x = y := by
  obtain ⟨m, hm⟩ := hx
  obtain ⟨n, hn⟩ := hy
  rw [← hm (max m n) (by omega), ← hn (max m n) (by omega)]

section Outcome

variable {j : Instruction} {cond : Operand} {onTrue onFalse : Option Operand} (hf : f.InRange)

include hf

/-- Wiring a value ends, and in the draft that the bounded wire gives. -/
theorem wires_iff (hv : f.Refers v) : Wires f v target d e ↔ d.wire f v target = e := by
  have hrun := (Draft.wire_ends hf v target d hv (Nat.lt_succ_of_le Function.unsteered_le)).1
  constructor
  · intro h
    exact eq_of_eventually hrun.eventually h.eventually
  · rintro rfl
    exact hrun

/-- Making a pair of steers ends, and in the draft that bounded wires give. -/
theorem opens_iff (hi : f.instruction? id = some i) (hnew : d.steers.lookup id = none)
    (hcond : cond ∈ i.operands) (htrue : ∀ v ∈ onTrue, v ∈ i.operands)
    (hfalse : ∀ v ∈ onFalse, v ∈ i.operands) :
    Opens f id cond onTrue onFalse d e p ↔
      d.openSteers f (Draft.wire f) id cond onTrue onFalse = (e, p) := by
  have hid : id < f.slots.length := Function.lt_length_of_instruction? hi
  have hrun := (Draft.opens_openSteers (Draft.wire_ends hf) hid hnew
    (Nat.le_succ_of_le Function.unsteered_le) (hf.operand hi hcond)
    (fun v hv => hf.operand hi (htrue v hv)) (fun v hv => hf.operand hi (hfalse v hv))).1
  constructor
  · intro h
    exact eq_of_eventually hrun.eventually h.eventually
  · intro h
    rwa [h] at hrun

/-- Asking for the pair of a select ends, and in the draft that bounded wires give. -/
theorem selects_iff (hi : f.instruction? id = some i) (hsel : i.isSelect = true) :
    Selects f id d e p ↔ d.selectSteers f (Draft.wire f) id = (e, some p) := by
  have hid : id < f.slots.length := Function.lt_length_of_instruction? hi
  obtain ⟨g, q, heq, hrun, _⟩ := Draft.selects_selectSteers (d := d) (Draft.wire_ends hf) hf hi hsel
    hid (Nat.le_succ_of_le Function.unsteered_le)
  constructor
  · intro h
    rw [heq]
    exact eq_of_eventually hrun.eventually h.eventually
  · intro h
    cases heq.symm.trans h
    exact hrun

end Outcome

end Dataflow
