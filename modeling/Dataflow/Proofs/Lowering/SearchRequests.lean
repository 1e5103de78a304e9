import Dataflow.Proofs.Lowering.Requests

/-!
# What a search for producers asks for

`Requests.feed` and the definitions before it tell the requests of the definitions of the same name,
which make pairs of steers and feed a node from the producers of a value. These requests are proper
and lead where the search leads (`Requests.feed_serves`).
-/

namespace Dataflow

namespace Requests

/-- The requests of steps, one after another. -/
def steps {σ α : Type} (step : σ → α → σ) (asked : σ → α → List Request) :
    σ → List α → List Request
  | _, [] => []
  | s, a :: rest => asked s a ++ steps step asked (step s a) rest

/-- An edge from each steer of a pair. -/
def fromSteers (p : SteerPair) (target : NodeId) : List Request :=
  [.edge (some p.onTrue) (some target), .edge (some p.onFalse) (some target)]

/-- The requests of a way to wire, for a value if there is one. -/
def wireOption (asked : Operand → NodeId → Draft → List Request) (v : Option Operand)
    (target : NodeId) (d : Draft) : List Request := v.elim [] (asked · target d)

section Steers

variable (f : Function) (wire : Operand → NodeId → Draft → Draft)
  (asked : Operand → NodeId → Draft → List Request)

/-- For a pair of steers and what is wired into it: the condition into both, then each value. -/
def openSteers (id : InstId) (cond : Operand) (onTrue onFalse : Option Operand) (d : Draft) :
    List Request :=
  let r := (d.promote f cond).newPair id
  let d₁ := wire cond r.2.onTrue r.1
  let d₂ := wire cond r.2.onFalse d₁
  let d₃ := Draft.wireOption wire onTrue r.2.onTrue d₂
  [.promotion cond, .pair id] ++ (asked cond r.2.onTrue r.1 ++ (asked cond r.2.onFalse d₁ ++
    (wireOption asked onTrue r.2.onTrue d₂ ++ wireOption asked onFalse r.2.onFalse d₃)))

/-- For the edges from both steers of a select to an operator that uses it. Phis find their values
themselves. -/
def feedUser (p : SteerPair) (d : Draft) (user : InstId) : List Request :=
  if (f.instruction? user).any (·.isPhi) then [] else (d.operator? user).elim [] (fromSteers p)

/-- For the pair of steers of a select, and the edges to its users, if it is made now. -/
def selectSteers (id : InstId) (d : Draft) : List Request :=
  match d.steers.lookup id with
  | some _ => []
  | none =>
    match f.instruction? id with
    | some (.select cond _ onTrue onFalse) =>
      let r := d.openSteers f wire id cond (some onTrue) (some onFalse)
      openSteers f wire asked id cond (some onTrue) (some onFalse) d ++
        steps (Draft.feedUser f r.2) (feedUser f r.2) r.1 (f.users (.result id))
    | _ => []

end Steers

section Searches

variable (f : Function)

/-- For what a search asks for, and a report if it finds nothing. -/
def wireBy (search : Operand → NodeId → Feed → Feed)
    (asked : Operand → NodeId → Feed → List Request) (v : Operand) (target : NodeId) (d : Draft) :
    List Request :=
  asked v target { draft := d } ++ if (search v target { draft := d }).fed then []
    else [.report (.noProducer f.name (f.operandText v) target)]

/-- For the edges from whatever produces a value, and for the steers that are made on the way. -/
def feed (depth : Nat) (v : Operand) (target : NodeId) (s : Feed) : List Request :=
  match v with
  | .function _ => []
  | .param _ | .const _ | .global _ =>
    [.node v, .edge (s.draft.nodeFor f v).2 (some target)]
  | .result id =>
    match depth with
    | 0 => []
    | depth + 1 =>
      if id ∈ s.visited then []
      else
        match f.instruction? id with
        | none => []
        | some (.select _ _ _ _) =>
          let wire := Draft.wireBy f (Dataflow.feed f depth)
          selectSteers f wire (wireBy f (Dataflow.feed f depth) (feed depth)) id s.draft ++
            (s.draft.selectSteers f wire id).2.elim [] (fromSteers · target)
        | some i =>
          match s.draft.operator? id with
          | some node => [.edge (some node) (some target)]
          | none =>
            steps (fun s v => Dataflow.feed f depth v target s) (fun s v => feed depth v target s)
              (s.visit id) i.operands

/-- For the producers of a value, searched as deep as lowering does. -/
def wire (v : Operand) (target : NodeId) (d : Draft) : List Request :=
  wireBy f (Dataflow.feed f f.feedDepth) (feed f f.feedDepth) v target d

end Searches

/-! ## Searches make proper requests -/

variable {f : Function} {d : Draft} {i j target : NodeId} {p : SteerPair} {v : Operand}
  {id : InstId} {s : Feed}

/-- The requests of steps are told part by part. -/
theorem steps_append {σ α : Type} {step : σ → α → σ} {asked : σ → α → List Request}
    {l l' : List α} {s : σ} : steps step asked s (l ++ l') =
      steps step asked s l ++ steps step asked (l.foldl step s) l' := by
  induction l generalizing s with
  | nil => rfl
  | cons a l ih => rw [List.cons_append, steps, steps, ih, List.append_assoc, List.foldl_cons]

/-- Steps that each make proper requests if `I` holds, and keep `I`. No step makes the draft
smaller. -/
theorem steps_serves_of {σ α : Type} {step : σ → α → σ} {asked : σ → α → List Request}
    (draft : σ → Draft) (I : σ → Prop) {l : List α} {s : σ} (h : (draft s).Intact) (hI : I s)
    (hstep : ∀ t a, a ∈ l → (draft t).Intact → (draft s).size ≤ (draft t).size → I t →
      Draft.Serves f false (draft t) (asked t a) (draft (step t a)) ∧ I (step t a)) :
    Draft.Serves f false (draft s) (steps step asked s l) (draft (l.foldl step s)) := by
  induction l generalizing s with
  | nil => exact .nil
  | cons a l ih =>
      obtain ⟨hfirst, hI'⟩ := hstep s a List.mem_cons_self h (Nat.le_refl _) hI
      obtain ⟨h', hle⟩ := hfirst.intact h
      exact hfirst.append (ih h' hI' fun t b hb ht hle' =>
        hstep t b (List.mem_cons_of_mem _ hb) ht (Nat.le_trans hle hle'))

/-- Steps that each make proper requests make proper requests together. -/
theorem steps_serves {σ α : Type} {step : σ → α → σ} {asked : σ → α → List Request}
    (draft : σ → Draft) {l : List α} {s : σ} (h : (draft s).Intact)
    (hstep : ∀ t a, a ∈ l → (draft t).Intact → (draft s).size ≤ (draft t).size →
      Draft.Serves f false (draft t) (asked t a) (draft (step t a))) :
    Draft.Serves f false (draft s) (steps step asked s l) (draft (l.foldl step s)) :=
  steps_serves_of draft (fun _ => True) h trivial fun t a ha ht hle _ =>
    ⟨hstep t a ha ht hle, trivial⟩

/-- The request for an edge between two nodes is proper. -/
theorem link_serves (h : d.Intact) (hi : i < d.size) (hj : j < d.size) :
    Draft.Serves f false d [.edge (some i) (some j)] (d.link i j) :=
  .one (h.edge hi hj) rfl

/-- The edges from the steers of a pair are proper. -/
theorem fromSteers_serves (h : d.Intact) (hp : p.Below d.size) (ht : target < d.size) :
    Draft.Serves f false d (fromSteers p target) (d.linkPair p target) := by
  have hfirst : Draft.Serves f false d _ _ := link_serves h hp.1 ht
  obtain ⟨h', hle⟩ := hfirst.intact h
  exact hfirst.append (link_serves h' (hp.mono hle).2 (Nat.lt_of_lt_of_le ht hle))

/-- The requests of a way to wire are proper and lead where it leads. -/
def WireServes (f : Function) (wire : Operand → NodeId → Draft → Draft)
    (asked : Operand → NodeId → Draft → List Request) : Prop :=
  ∀ v target d, d.Intact → target < d.size → Draft.Serves f false d (asked v target d)
    (wire v target d)

section Steers

variable {wire : Operand → NodeId → Draft → Draft}
  {asked : Operand → NodeId → Draft → List Request} (hwire : WireServes f wire asked)

include hwire

/-- Wiring a value that may be missing is proper when wiring a value is. -/
theorem wireOption_serves (v : Option Operand) (h : d.Intact) (ht : target < d.size) :
    Draft.Serves f false d (wireOption asked v target d) (Draft.wireOption wire v target d) := by
  cases v with
  | none => exact .nil
  | some v => exact hwire v target d h ht

/-- Opening a pair of steers is proper when wiring a value is, and the steers are there
afterwards. -/
theorem openSteers_serves (h : d.Intact) (id : InstId) (cond : Operand)
    (onTrue onFalse : Option Operand) :
    Draft.Serves f false d (openSteers f wire asked id cond onTrue onFalse d)
        (d.openSteers f wire id cond onTrue onFalse).1 ∧
      (d.openSteers f wire id cond onTrue onFalse).2.Below
        (d.openSteers f wire id cond onTrue onFalse).1.size := by
  have hpair : Draft.Serves f false d [.promotion cond, .pair id]
      ((d.promote f cond).newPair id).1 :=
    .cons trivial (fun hr => by cases hr) (.one (r := .pair id) trivial rfl)
  obtain ⟨h₀, _⟩ := hpair.intact h
  have hbelow := ((h.promote (f := f) cond).1.newPair id).2.2
  rw [Draft.openSteers_eq, openSteers]
  simp only [SteerPair.side]
  generalize ((d.promote f cond).newPair id).1 = d₀ at hpair h₀ hbelow ⊢
  generalize ((d.promote f cond).newPair id).2 = p at hbelow ⊢
  have hs₁ := hwire cond p.onTrue d₀ h₀ hbelow.1
  obtain ⟨h₁, hle₁⟩ := hs₁.intact h₀
  have hs₂ := hwire cond p.onFalse _ h₁ (hbelow.mono hle₁).2
  obtain ⟨h₂, hle₂⟩ := hs₂.intact h₁
  have hbelow₂ := (hbelow.mono hle₁).mono hle₂
  have hs₃ := wireOption_serves hwire onTrue h₂ hbelow₂.1
  obtain ⟨h₃, hle₃⟩ := hs₃.intact h₂
  have hs₄ := wireOption_serves hwire onFalse h₃ (hbelow₂.mono hle₃).2
  obtain ⟨_, hle₄⟩ := hs₄.intact h₃
  exact ⟨hpair.append (hs₁.append (hs₂.append (hs₃.append hs₄))),
    (hbelow₂.mono hle₃).mono hle₄⟩

omit hwire in
/-- The edges from steers to a user are proper. -/
theorem feedUser_serves (h : d.Intact) (hp : p.Below d.size) (user : InstId) :
    Draft.Serves f false d (feedUser f p d user) (d.feedUser f p user) := by
  unfold feedUser Draft.feedUser
  split
  · exact .nil
  · cases hop : d.operator? user with
    | none => exact .nil
    | some n => exact fromSteers_serves h hp (Draft.lt_size_of_operator? hop)

/-- The requests for the steers of a select are proper, and the steers are there afterwards. -/
theorem selectSteers_serves (h : d.Intact) (id : InstId) :
    Draft.Serves f false d (selectSteers f wire asked id d) (d.selectSteers f wire id).1 ∧
      ∀ p, (d.selectSteers f wire id).2 = some p → p.Below (d.selectSteers f wire id).1.size := by
  cases hp : d.steers.lookup id with
  | some p =>
      simp only [selectSteers, Draft.selectSteers, hp, Option.some.injEq, forall_eq']
      exact ⟨.nil, h.lookup hp⟩
  | none =>
      cases hi : f.instruction? id with
      | none => simpa [selectSteers, Draft.selectSteers, hp, hi] using Draft.Serves.nil
      | some i =>
          cases i with
          | select cond ty onTrue onFalse =>
              obtain ⟨hopen, hbelow⟩ :=
                openSteers_serves hwire h id cond (some onTrue) (some onFalse)
              obtain ⟨h', _⟩ := hopen.intact h
              simp only [selectSteers, Draft.selectSteers, hp, hi, Option.some.injEq, forall_eq']
              have husers := steps_serves (f := f) (fun d => d)
                (l := f.users (.result id)) h'
                fun t user _ ht hle => feedUser_serves ht (hbelow.mono hle) user
              exact ⟨hopen.append husers, hbelow.mono (husers.intact h').2⟩
          | _ => simpa [selectSteers, Draft.selectSteers, hp, hi] using Draft.Serves.nil

end Steers

/-- The edge from a leaf is proper: its node is made first. -/
theorem fromLeaf_serves (hv : v.isLeaf = true) (h : s.draft.Intact) (ht : target < s.draft.size) :
    Draft.Serves f false s.draft [.node v, .edge (s.draft.nodeFor f v).2 (some target)]
      (s.fromLeaf f v target).draft := by
  obtain ⟨i, hi⟩ := Draft.nodeFor_leaf (f := f) (d := s.draft) hv
  obtain ⟨h', hle⟩ := h.nodeFor (f := f) v
  have hdraft : (s.fromLeaf f v target).draft =
      ((s.draft.nodeFor f v).1.connect (s.draft.nodeFor f v).2 (some target)).1 := rfl
  refine .cons trivial (fun hr => by cases hr) ?_
  rw [hdraft, hi]
  exact link_serves h' (h.lt_size_nodeFor hi) (Nat.lt_of_lt_of_le ht hle)

/-- Wiring by a search is proper when the search is. -/
theorem wireBy_serves {search : Operand → NodeId → Feed → Feed}
    {asked : Operand → NodeId → Feed → List Request}
    (h : Draft.Serves f false d (asked v target { draft := d })
      (search v target { draft := d }).draft) :
    Draft.Serves f false d (wireBy f search asked v target d) (d.wireBy f search v target) := by
  rw [wireBy, Draft.wireBy]
  split
  · rwa [List.append_nil]
  · exact h.append (.one (fun hw => by cases hw) rfl)

section Equations

variable {depth : Nat} {i : Instruction} (hid : id ∉ s.visited) (hi : f.instruction? id = some i)
  (hsel : i.isSelect = false)

include hid hi hsel

/-- A search stops at an operator, with the one edge from it. -/
theorem feed_of_operator {n : NodeId} (hn : s.draft.operator? id = some n) :
    feed f (depth + 1) (.result id) target s = [.edge (some n) (some target)] := by
  cases i with
  | select => cases hsel
  | _ => simp only [feed, if_neg hid, hi, hn]

/-- A search goes on past an instruction without an operator to each of its operands. -/
theorem feed_of_open (hnone : s.draft.operator? id = none) :
    feed f (depth + 1) (.result id) target s =
      steps (fun s v => Dataflow.feed f depth v target s) (fun s v => feed f depth v target s)
        (s.visit id) i.operands := by
  cases i with
  | select => cases hsel
  | _ => simp only [feed, if_neg hid, hi, hnone]

end Equations

/-- A search that comes to a select takes its pair of steers, which searches of their own have fed
if they are made now. -/
theorem feed_select_serves {depth : Nat} {i : Instruction} (hid : id ∉ s.visited)
    (hi : f.instruction? id = some i) (hsel : i.isSelect = true)
    (hwire : WireServes f (Draft.wireBy f (Dataflow.feed f depth))
      (wireBy f (Dataflow.feed f depth) (feed f depth)))
    (h : s.draft.Intact) (ht : target < s.draft.size) :
    Draft.Serves f false s.draft (feed f (depth + 1) (.result id) target s)
      (Dataflow.feed f (depth + 1) (.result id) target s).draft := by
  obtain ⟨hsteers, hbelow⟩ := selectSteers_serves hwire h id
  obtain ⟨h', hle⟩ := hsteers.intact h
  cases i with
  | select =>
      simp only [feed, Dataflow.feed, if_neg hid, hi]
      generalize s.draft.selectSteers f (Draft.wireBy f (Dataflow.feed f depth)) id = made
        at hsteers hbelow h' hle
      obtain ⟨d, found⟩ := made
      cases found with
      | none => exact hsteers.append .nil
      | some p =>
          exact hsteers.append (fromSteers_serves h' (hbelow p rfl) (Nat.lt_of_lt_of_le ht hle))
  | _ => cases hsel

/-- The requests of a search are proper and lead where the search leads. -/
theorem feed_serves (depth : Nat) (h : s.draft.Intact) (ht : target < s.draft.size) :
    Draft.Serves f false s.draft (feed f depth v target s)
      (Dataflow.feed f depth v target s).draft := by
  induction depth generalizing v target s with
  | zero =>
      cases v with
      | function | result => exact .nil
      | param | const | global => exact fromLeaf_serves rfl h ht
  | succ depth ih =>
      cases v with
      | function => exact .nil
      | param | const | global => exact fromLeaf_serves rfl h ht
      | result id =>
          by_cases hid : id ∈ s.visited
          · rw [feed_of_mem hid, feed, if_pos hid]
            exact .nil
          cases hi : f.instruction? id with
          | none =>
              simp only [feed, Dataflow.feed, if_neg hid, hi]
              exact .nil
          | some i =>
              cases hsel : i.isSelect with
              | true =>
                  exact feed_select_serves hid hi hsel
                    (fun w t e he ht => wireBy_serves (ih (s := { draft := e }) he ht)) h ht
              | false =>
                  cases hop : s.draft.operator? id with
                  | some n =>
                      rw [feed_of_operator hid hi hsel hop,
                        Dataflow.feed_of_operator hid hi hsel hop]
                      exact link_serves h (Draft.lt_size_of_operator? hop) ht
                  | none =>
                      rw [feed_of_open hid hi hsel hop, Dataflow.feed_of_open hid hi hsel hop]
                      exact steps_serves Feed.draft (s := s.visit id) h
                        fun t w _ ht' hle => ih ht' (Nat.lt_of_lt_of_le ht hle)

/-- Wiring a value in lowering is proper. -/
theorem wire_serves (f : Function) : WireServes f (Draft.wire f) (wire f) :=
  fun _ _ d h ht => wireBy_serves (feed_serves f.feedDepth (s := { draft := d }) h ht)

end Requests

end Dataflow
