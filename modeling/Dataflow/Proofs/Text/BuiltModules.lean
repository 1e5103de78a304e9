import Dataflow.Failure
import Dataflow.Proofs.Text.PairModules
import Dataflow.Proofs.Text.Rebinding

/-!
# Modules that were built

A text that follows the grammar has a tree of pairs, and building goes over the pairs of a pair by
their places. It never finds another pair than the one it expects, and no word that is in no table:
what it comes to is the module that is read, or one of the six errors of binding
(`Module.read_or_binding_error`). In that module everything that is written is found again
(`Pair.WrittenIn`): an instruction for each instruction of the text, which refers to what the text
refers to, one for one and in order, through names that lead where the function says they do.
-/

namespace Dataflow

open Surface

/-! ## Names of a function -/

namespace Function

/-- The value that a local name stands for in a function: the last parameter of that name, or a
result of that name if no parameter has it. -/
def Bears (f : Function) (name : String) : Operand → Prop
  | .param k => (f.params.map (·.name))[k]? = some name ∧
      ∀ later, k < later → (f.params.map (·.name))[later]? ≠ some name
  | .result id => (f.slots[id]?).bind (·.name) = some name ∧ name ∉ f.params.map (·.name)
  | .const _ | .global _ | .function _ => False

end Function

namespace Surface

namespace Scope

/-- The results of a scope are the names of the lines so far, each with the number of its line. -/
def Counts (s : Scope) (done : List Line) : Prop :=
  s.nextInst = done.length ∧ ∀ r ∈ s.results, (done[r.2]?).bind (·.name) = some r.1

/-- A line that enters a scope is counted after those before it. -/
theorem addLine_counts {s t : Scope} {line : Line} {done : List Line} (hs : s.Counts done)
    (h : s.addLine line = .ok t) : t.Counts (done ++ [line]) := by
  obtain ⟨hnext, hresults⟩ := hs
  have hold : ∀ r ∈ s.results, ((done ++ [line])[r.2]?).bind (·.name) = some r.1 := by
    intro r hr
    obtain ⟨l, hl, hname⟩ := Option.bind_eq_some_iff.mp (hresults r hr)
    rw [List.getElem?_append_left (List.getElem?_eq_some_iff.mp hl).1, hl]
    exact hname
  have hlength : s.nextInst + 1 = (done ++ [line]).length := by
    rw [hnext, List.length_append, List.length_singleton]
  unfold addLine at h
  split at h
  · cases h
    exact ⟨hlength, hold⟩
  · rename_i name hname
    split at h
    · cases h
    · cases h
      refine ⟨hlength, fun r hr => ?_⟩
      rcases List.mem_append.mp hr with hr | hr
      · exact hold r hr
      · rw [List.mem_singleton.mp hr, hnext]
        simp [hname]

/-- What each line and each label keep, the lines of all blocks keep. -/
theorem foldlM_addBlock_lines {P : List Line → Scope → Prop}
    (hline : ∀ {done line u v}, P done u → u.addLine line = .ok v → P (done ++ [line]) v)
    (hlabel : ∀ {done u label next}, label ∉ u.labels → P done u →
      P done { u with labels := u.labels ++ [label], nextNumber := next })
    {blocks : List BlockText} {s t : Scope} {done : List Line} (hs : P done s)
    (h : blocks.foldlM addBlock s = .ok t) : P (done ++ blocks.flatMap (·.lines)) t := by
  induction blocks generalizing s done with
  | nil =>
      cases h
      simpa using hs
  | cons block blocks ih =>
      simp only [List.foldlM_cons, bind_eq_ok] at h
      obtain ⟨u, hu, h⟩ := h
      rw [List.flatMap_cons, ← List.append_assoc]
      refine ih ?_ h
      unfold addBlock at hu
      generalize blockLabel s.nextNumber block.label = numbered at hu
      obtain ⟨label, next⟩ := numbered
      simp only at hu
      split at hu
      · cases hu
      · have hend := foldlM_eq_ok (fun rest (u : Scope) => ∃ now,
          now ++ rest = done ++ block.lines ∧ P now u) ?_ ⟨done, rfl, hlabel ‹_› hs⟩ hu
        · obtain ⟨now, hnow, hkept⟩ := hend
          rwa [← hnow, List.append_nil]
        · rintro line rest u v ⟨now, hnow, hkept⟩ hv
          exact ⟨now ++ [line], by simpa using hnow, hline hkept hv⟩

/-- The lines of all blocks are counted in order. -/
theorem foldlM_addBlock_counts {blocks : List BlockText} {s t : Scope} {done : List Line}
    (hs : s.Counts done) (h : blocks.foldlM addBlock s = .ok t) :
    t.Counts (done ++ blocks.flatMap (·.lines)) :=
  foldlM_addBlock_lines (P := fun done u => u.Counts done) addLine_counts
    (fun _ hu => ⟨hu.1, hu.2⟩) hs h

end Scope

variable {t : FunctionText} {scope : Scope} {f : Function} {name : String}

/-- A name of the scope stands for the value that bears it in the function. -/
theorem Sourced.bears (h : Sourced t scope f)
    (hlines : List.Forall₂ (Line.Makes scope) (t.blocks.flatMap (·.lines)) f.slots) {v : Operand}
    (hv : scope.value? name = some v) : f.Bears name v := by
  obtain ⟨next, hadded⟩ := h.added
  have hparams : scope.params = f.params.map (·.name) :=
    (foldlM_addBlock (fun r hr => by cases hr) hadded).2.2.2
  have hcounts : scope.Counts ([] ++ t.blocks.flatMap (·.lines)) :=
    Scope.foldlM_addBlock_counts ⟨rfl, fun r hr => by cases hr⟩ hadded
  unfold Scope.value? at hv
  split at hv
  · rename_i written index hfind
    cases hv
    obtain ⟨_, hget, hlater⟩ := Function.find?_reverse_zipIdx.mp hfind
    rw [hparams] at hget hlater
    exact ⟨hget, hlater⟩
  · rename_i hnone
    obtain ⟨r, hr, rfl⟩ := Option.map_eq_some_iff.mp hv
    have hname : r.1 = name :=
      beq_iff_eq.mp (List.find?_some (p := fun r : String × InstId => r.1 == name) hr)
    obtain ⟨l, hl, hwritten⟩ :=
      Option.bind_eq_some_iff.mp (hcounts.2 r (List.mem_of_find?_eq_some hr))
    refine ⟨?_, hparams ▸ Function.find?_reverse_zipIdx_eq_none.mp hnone⟩
    obtain ⟨hlt, rfl⟩ := List.getElem?_eq_some_iff.mp hl
    have hslot := hlines.get hlt (hlines.length_eq ▸ hlt)
    rw [List.getElem?_eq_getElem (hlines.length_eq ▸ hlt), Option.bind_some, ← hname, ← hwritten]
    exact hslot.1

/-- A sourced function finds a block by name where its scope does. -/
theorem Sourced.findBlock? (h : Sourced t scope f) : f.findBlock? name = scope.block? name := by
  rw [Scope.block?, ← h.labels, Function.labels, List.idxOf?, List.findIdx?_map]
  rfl

end Surface

/-! ## What is written -/

namespace Pair

/-- The instructions inside a function, in the order in which they stand. -/
def instructions (t : Pair) : List Pair := (t.inside .block).flatMap (inside .instruction)

/-- A slot of a function holds what the pair of an instruction says: the name of the result, and
each value and each block that the pair refers to, in the order in which it does. -/
structure HeldIn (f : Function) (t : Pair) (s : Slot) : Prop where
  name : s.name = t.resultName?
  /-- Each operand, callee and label that is written is in the instruction. -/
  mentions : List.Forall₂ (Names f.Bears fun name b => f.findBlock? name = some b) t.written
    s.instruction.mentions

/-- A module holds everything that is written in a tree: a function for each function, with a slot
for each instruction. -/
def WrittenIn (t : Pair) (m : Module) : Prop :=
  List.Forall₂ (fun u f => List.Forall₂ (HeldIn f) u.instructions f.slots) (t.inside .function)
    m.functions

/-- What two lists have with one list they have with each other. -/
theorem forall₂_across {α β γ : Type} {R : α → β → Prop} {S : α → γ → Prop} {T : β → γ → Prop}
    (hT : ∀ a b c, R a b → S a c → T b c) {as : List α} {bs : List β} {cs : List γ}
    (h : List.Forall₂ R as bs) (h' : List.Forall₂ S as cs) : List.Forall₂ T bs cs := by
  induction h generalizing cs with
  | nil =>
      cases h'
      exact .nil
  | cons hab _ ih =>
      cases h' with
      | cons hac h' => exact .cons (hT _ _ _ hab hac) (ih h')

/-- The instruction pairs of a function are those of its lines, in order. -/
theorem IsFunction.lines {g : FunctionText} {t : Pair} (h : IsFunction g t) :
    List.Forall₂ IsLine (g.blocks.flatMap (·.lines)) t.instructions :=
  List.rel_flatMap h.blocks fun _ _ hb => hb.lines

/-- A function that was built holds what is written. -/
theorem IsFunction.heldIn {g : FunctionText} {t : Pair} (h : IsFunction g t) {f : Function}
    (hf : g.bind = .ok f) : List.Forall₂ (HeldIn f) t.instructions f.slots := by
  obtain ⟨scope, hsourced, hslots⟩ := g.bind_lines hf
  refine forall₂_across (fun l u s hline hmakes => ⟨?_, ?_⟩) h.lines hslots
  · rw [hmakes.1, hline.name]
  · refine (hline.names hmakes.2).imp fun u m => Names.imp
      (fun name v => hsourced.bears hslots) fun name b hb => ?_
    rw [hsourced.findBlock?, hb]

end Pair

/-! ## Reading and building -/

/-- Which of the six errors it is. -/
def BindingError.kind : BindingError → Fin 6
  | unknownValue _ _ => 0
  | unknownLabel _ _ => 1
  | duplicateDefinition _ _ => 2
  | duplicateLabel _ _ => 3
  | badIntegerType _ => 4
  | badAggregateLength _ => 5

/-- There are texts for each of the six errors. -/
theorem Module.read_error_kind (k : Fin 6) :
    ∃ text e, read text = .error (.binding e) ∧ e.kind = k := by
  match k with
  | 0 => exact ⟨"define i32 @f() \x7b ret i32 %x \x7d", .unknownValue "x" "f",
      by decide +kernel, rfl⟩
  | 1 => exact ⟨"define void @f() \x7b br label %x \x7d", .unknownLabel "x" "f",
      by decide +kernel, rfl⟩
  | 2 => exact ⟨"define void @f(i32 %x) \x7b %x = add i32 1, 2 ret void \x7d",
      .duplicateDefinition "x" "f", by decide +kernel, rfl⟩
  | 3 => exact ⟨"define void @f() \x7b x: ret void x: ret void \x7d", .duplicateLabel "x" "f",
      by decide +kernel, rfl⟩
  | 4 => exact ⟨"define i4294967296 @f() \x7b unreachable \x7d", .badIntegerType "4294967296",
      by decide +kernel, rfl⟩
  | 5 => exact ⟨"define [-1 x i8] @f() \x7b unreachable \x7d", .badAggregateLength "-1",
      by decide +kernel, rfl⟩

/-- Reading a text that follows the grammar ends in a module that holds all that is written, or in
one of six errors, each of which there is. Building its tree ends in the same, so none of the other
ways in which a build can fail is ever taken. -/
theorem Module.read_or_binding_error :
    (∀ text, match Pair.ofText? text with
      | none => ∃ refusal, read text = .error (.grammar refusal)
      | some t =>
        (∃ m, t.module = .ok m ∧ read text = .ok m ∧ t.WrittenIn m) ∨
          ∃ e, t.module = .error (.binding e) ∧ read text = .error (.binding e)) ∧
      ∀ k : Fin 6, ∃ text e, read text = .error (.binding e) ∧ e.kind = k := by
  refine ⟨fun text => ?_, read_error_kind⟩
  obtain ⟨hgrammar, htree⟩ | ⟨trees, t, hgrammar, htree, hall⟩ := Pair.ofText?_agrees text
  · rw [htree]
    exact ⟨.ofText text, by rw [read, hgrammar]⟩
  · have hmodule : t.module = BuildError.lift (do
        let functions ← trees.mapM (·.bind)
        return { functions }) := by
      rw [BuildError.lift_bind, ← BuildError.lift_mapM (hall.imp fun _ _ h => h.build)]
      rfl
    rw [htree]
    cases hbind : trees.mapM (·.bind) with
    | error e =>
        refine .inr ⟨e, ?_, ?_⟩
        · rw [hmodule, hbind]
          rfl
        · simp only [read, hgrammar, hbind]
    | ok functions =>
        refine .inl ⟨{ functions }, ?_, ?_, ?_⟩
        · rw [hmodule, hbind]
          rfl
        · simp only [read, hgrammar, hbind]
        · exact Pair.forall₂_across (fun g u f hg hf => hg.heldIn hf) hall
            (forall₂_of_mapM_eq_ok hbind)

end Dataflow
