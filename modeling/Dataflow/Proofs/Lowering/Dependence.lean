import Dataflow.Proofs.Lowering.Operands
import Mathlib.Logic.Relation

/-!
# Data dependence survives lowering

If an instruction depends on a value through any chain of operands, the graph has a path from the
node of the value to the node of the instruction (`dependence_path`). The induction is on the chain:
what a search owes to a value (`Draft.Fed`) is passed on to its operands, whether the instruction is
an operator, a phi, a select or none of these (`Draft.Wired.passes`).
-/

namespace Dataflow

variable {f : Function} {forest : LoopForest} {options : LowerOptions} {d : Draft}
  {id : InstId} {i : Instruction} {v w : Operand} {a b target : NodeId}

/-- An instruction reads a value, or reads the result of one that depends on it. -/
inductive DependsOn (f : Function) : InstId → Operand → Prop where
  | read {u i w} : f.instruction? u = some i → w ∈ i.operands → DependsOn f u w
  | through {u i x w} : f.instruction? u = some i → .result x ∈ i.operands → DependsOn f x w →
      DependsOn f u w

/-- There is a path of at least one edge. -/
def Graph.Path (g : Graph) : NodeId → NodeId → Prop := Relation.TransGen fun a b => g.hasEdge a b

namespace Draft

/-- Whatever a value feeds has a path from the node of `w`. -/
def Passes (f : Function) (d : Draft) (w v : Operand) : Prop :=
  ∀ target, d.Fed f (fun x => ¬ f.IsSolid x) target v →
    ∃ a, d.graph.find? w = some a ∧ d.graph.Path a target

/-- What is never to have an operator has none by its role. -/
theorem Fed.of_hasOperator (h : d.Fed f (fun x => ¬ f.HasOperator x) target v) :
    d.Fed f (fun x => ¬ f.IsSolid x) target v :=
  h.mono (Le.refl d) fun _ hx hsolid => hx (Or.inl hsolid)

/-- A value that has a node of its own passes itself on. -/
theorem passes_self (hw : w.isLeaf = true ∨ ∃ x, w = .result x ∧ f.IsSolid x) :
    d.Passes f w w := by
  intro target hex
  obtain ⟨visited, hclosed, hreached⟩ := hex
  rcases hw with hleaf | ⟨x, rfl, hsolid⟩
  · obtain ⟨n, hn, hedge⟩ := (reached_of_isLeaf hleaf).mp hreached
    exact ⟨n, hn, .single hedge⟩
  · cases hclosed x hreached with
    | select hi hsel =>
        obtain ⟨j, hj, hj'⟩ := hsolid
        rw [hi] at hj
        cases hj
        rw [(Instruction.not_isSolid_of_isSelect hsel).1] at hj'
        cases hj'
    | node _ _ hn hedge => exact ⟨_, (operator?_eq_some.mp hn).1, .single hedge⟩
    | operands _ _ hopen => exact absurd hsolid hopen

/-- What an operand passes on comes to the node of the instruction that reads it. -/
theorem Wired.into_operator (h : Wired f forest options d) (hv : d.Passes f w v)
    (hi : f.instruction? id = some i) (hmem : v ∈ i.operands) (hb : d.operator? id = some b) :
    ∃ a, d.graph.find? w = some a ∧ d.graph.Path a b := by
  cases hphi : i.isPhi with
  | false => exact hv b (h.operand hi hphi hb hmem).of_hasOperator
  | true =>
      cases i with
      | phi ty arms =>
          obtain ⟨s, hs, hsi⟩ := Option.map_eq_some_iff.mp hi
          obtain ⟨arm, harm, rfl⟩ := List.mem_map.mp hmem
          obtain ⟨target, hfed, hedge⟩ := h.arm_fed ⟨s, ty, hs, hsi, rfl⟩ hb arm harm
          obtain ⟨a, ha, hpath⟩ := hv target hfed.of_hasOperator
          rcases hedge with rfl | hedge
          · exact ⟨a, ha, hpath⟩
          · exact ⟨a, ha, hpath.tail hedge⟩
      | _ => cases hphi

/-- What an operand passes on is passed on by the instruction that reads it. -/
theorem Wired.passes (h : Wired f forest options d) (hv : d.Passes f w v)
    (hi : f.instruction? id = some i) (hmem : v ∈ i.operands) : d.Passes f w (.result id) := by
  intro target hex
  obtain ⟨visited, hclosed, hreached⟩ := hex
  cases hclosed id hreached with
  | @select j p hj hsel hp hedge =>
      rw [hi] at hj
      cases hj
      -- the operand feeds one of the steers, as the condition or as the value of its side
      have hside : ∃ taken, i.condition? = some v ∨ i.choice? taken = some v := by
        cases i with
        | select cond ty onTrue onFalse =>
            simp only [Instruction.operands, List.mem_cons, List.not_mem_nil, or_false] at hmem
            rcases hmem with rfl | rfl | rfl
            · exact ⟨true, Or.inl rfl⟩
            · exact ⟨true, Or.inr rfl⟩
            · exact ⟨false, Or.inr rfl⟩
        | _ => cases hsel
      obtain ⟨taken, hside⟩ := hside
      obtain ⟨a, ha, hpath⟩ := hv _ ((h.fed hp).traced hi hside)
      exact ⟨a, ha, hpath.tail (hedge taken)⟩
  | @node j n hj _ hn hedge =>
      obtain ⟨a, ha, hpath⟩ := h.into_operator hv hi hmem hn
      exact ⟨a, ha, hpath.tail hedge⟩
  | operands hj _ _ hall =>
      rw [hi] at hj
      cases hj
      exact hv target ⟨visited, hclosed, hall v hmem⟩

/-- What depends on a value that has a node passes it on. -/
theorem Wired.passes_of_dependsOn (h : Wired f forest options d) (hdep : DependsOn f id w)
    (hw : w.isLeaf = true ∨ ∃ x, w = .result x ∧ f.IsSolid x) : d.Passes f w (.result id) := by
  induction hdep with
  | read hi hmem => exact h.passes (passes_self hw) hi hmem
  | through hi hmem _ ih => exact h.passes (ih hw) hi hmem

end Draft

/-! ## The result -/

/-- If an instruction that has a node depends on a leaf or on a live instruction that has an
operator by its role, then there is a path from the node of the one to the node of the other. -/
theorem dependence_path {text : String} {m : Module} (hread : Module.readChecked text = .ok m)
    (hf : f ∈ m.functions) (hw : w.isLeaf = true ∨ ∃ x ∈ f.live, w = .result x ∧ f.IsSolid x)
    (hdep : DependsOn f id w)
    (hb : (f.lowerWith forest options).graph.find? (.result id) = some b) :
    ∃ a, (f.lowerWith forest options).graph.find? w = some a ∧
      (f.lowerWith forest options).graph.Path a b := by
  obtain ⟨d, h⟩ :=
    Draft.finishes_lowering (Module.readChecked_checked hread hf).toBound forest options
  rw [f.graph_lowerWith] at hb ⊢
  rw [h.operator] at hb
  have hw' : w.isLeaf = true ∨ ∃ x, w = .result x ∧ f.IsSolid x :=
    hw.imp_right fun ⟨x, _, hx⟩ => ⟨x, hx⟩
  have hpath : ∃ a, d.graph.find? w = some a ∧ d.graph.Path a b := by
    cases hdep with
    | read hi hmem => exact h.wired.into_operator (Draft.passes_self hw') hi hmem hb
    | through hi hmem hdep =>
        exact h.wired.into_operator (h.wired.passes_of_dependsOn hdep hw') hi hmem hb
  obtain ⟨a, ha, hpath⟩ := hpath
  refine ⟨a, ?_, by simpa only [Graph.Path, h.edge] using hpath⟩
  rcases hw' with hleaf | ⟨x, rfl, hsolid⟩
  · rwa [h.leaf hleaf]
  · obtain ⟨n, hn⟩ := h.wired.lawful.classified hsolid
    rw [h.operator, hn, ← ha, (Draft.operator?_eq_some.mp hn).1]

theorem dependence_path_chosenSum :
    ∃ a, (chosenSum.lowerWith {} {}).graph.find? (.param 0) = some a ∧
      (chosenSum.lowerWith {} {}).graph.Path a 1 :=
  -- from the parameter through the conversion, the choice and the sum to the return
  have hdep : DependsOn chosenSum 3 (.param 0) :=
    .through rfl List.mem_cons_self (.through rfl List.mem_cons_self
      (.through rfl (List.mem_cons_of_mem _ List.mem_cons_self) (.read rfl List.mem_cons_self)))
  dependence_path read_chosenSum List.mem_cons_self (Or.inl rfl) hdep (by decide +kernel)

end Dataflow
