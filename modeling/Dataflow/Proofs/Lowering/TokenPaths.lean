import Dataflow.Proofs.Lowering.Dependence
import Dataflow.Proofs.Transform.TokenOrder
import Dataflow.Proofs.Transform.TokenUse

/-!
# Tokens reach the graph

After threading, a store from which control can come to a load with no other store in between has a
path to that load in the graph (`store_load_path`). The token that the load takes comes from the
store through any number of phis (`Threads.token_of_unbroken`), and each of them passes on what it
reads, whatever it becomes (`Draft.Wired.passes`). The names of the calls tell lowering which of
them are loads and stores.
-/

namespace Dataflow

/-! ## Calls that take and give tokens -/

theorem callRole_loadCallee (text : String) :
    (callRole (.function s!"{MemoryToken.loadCallee}.{text}")).kind = .load := by
  simp [callRole, MemoryToken.loadCallee, toString]

theorem callRole_storeCallee (text : String) :
    (callRole (.function s!"{MemoryToken.storeCallee}.{text}")).kind = .store := by
  simp [callRole, MemoryToken.loadCallee, MemoryToken.storeCallee, toString]

namespace Instruction

variable {i : Instruction} {token : Operand}

/-- A load that is tied to a token reads the token and is still a load. -/
theorem tie_of_isLoad (h : i.isLoad = true) : (i.tie token).isPhi = false ∧
    token ∈ (i.tie token).operands ∧ ∃ r, (i.tie token).role? = some r ∧ r.kind = .load := by
  cases i with
  | load ty address =>
      exact ⟨rfl, by simp [tie, operands], _, rfl, callRole_loadCallee ty.text⟩
  | _ => cases h

/-- A store that is tied to a token is still a store. -/
theorem tie_of_isStore (h : i.isStore = true) : (i.tie token).isPhi = false ∧
    ∃ r, (i.tie token).role? = some r ∧ r.kind = .store := by
  cases i with
  | store value address => exact ⟨rfl, _, rfl, callRole_storeCallee value.ty.text⟩
  | _ => cases h

end Instruction

namespace Function.Threads

variable {f g : Function} {phi : BlockId → Option InstId} {b : BlockId} {done after : List InstId}
  {x : InstId} {forest : LoopForest} {options : LowerOptions} (hf : f.Bound)
  (ht : f.Threads g phi)

include hf ht

/-- What was a store is one in the graph. -/
theorem kind_store (hstore : f.storesAt x = true) : g.IsSolid x ∧
    ∃ n, (g.lowerWith forest options).graph.find? (.result x) = some n ∧
      (g.lowerWith forest options).graph.kind? n = some .store := by
  rw [storesAt, Option.any_eq_true] at hstore
  obtain ⟨i, hi, hstore⟩ := hstore
  obtain ⟨b, hb⟩ := mem_live.mp (hf.whole.mem_live hi)
  obtain ⟨done, after, hsplit⟩ := List.append_of_mem hb
  have htied := ht.tied hsplit
  rw [hi, Option.map_some] at htied
  obtain ⟨hphi, r, hrole, hr⟩ := Instruction.tie_of_isStore hstore
  have hsolid : g.IsSolid x := ⟨_, htied, by rw [Instruction.isSolid, hrole]; simp [hr]⟩
  refine ⟨hsolid, ?_⟩
  have hstep := mem_steps.mpr ⟨(ht.whole hf).mem_live htied, htied⟩
  rw [← hr]
  exact g.kind_of_role forest options hstep hphi hrole (by simp [hr])

/-- What was a load is one in the graph, and reads the token. -/
theorem kind_load (hload : f.loadsAt x = true) (hbody : g.body b = done ++ x :: after) :
    (∃ j, g.instruction? x = some j ∧ f.tokenAfter (startToken phi b) done ∈ j.operands) ∧
      ∃ n, (g.lowerWith forest options).graph.find? (.result x) = some n ∧
        (g.lowerWith forest options).graph.kind? n = some .load := by
  rw [loadsAt, Option.any_eq_true] at hload
  obtain ⟨i, hi, hload⟩ := hload
  obtain ⟨front, rfl, hsplit⟩ :=
    ht.split_body (hf.whole.lt_length (hf.whole.mem_live hi)) hbody
  have htied := ht.tied hsplit
  rw [hi, Option.map_some] at htied
  obtain ⟨hphi, htoken, r, hrole, hr⟩ := Instruction.tie_of_isLoad hload
  refine ⟨⟨_, htied, by rw [ht.tokenAfter_phi]; exact htoken⟩, ?_⟩
  have hstep := mem_steps.mpr ⟨(ht.whole hf).mem_live htied, htied⟩
  rw [← hr]
  exact g.kind_of_role forest options hstep hphi hrole (by simp [hr])

end Function.Threads

/-! ## The result -/

/-- If control can come from a store to a load with no other store in between and without entering
the first block, then the graph of the threaded function has a path from the node of the store to
the node of the load. -/
theorem store_load_path {text : String} {m : Module} {f : Function}
    (hread : Module.readChecked text = .ok m) (hf : f ∈ m.functions) (forest : LoopForest)
    (options : LowerOptions) {s l : InstId} {b : BlockId} {done after : List InstId}
    (hs : f.storesAt s = true) (hl : f.loadsAt l = true)
    (hrun : f.threadMemory.function.Unbroken f.storesAt s b done)
    (hbody : f.threadMemory.function.body b = done ++ l :: after) :
    ∃ a c, (f.threadMemory.function.lowerWith forest options).graph.find? (.result s) = some a ∧
      (f.threadMemory.function.lowerWith forest options).graph.kind? a = some .store ∧
      (f.threadMemory.function.lowerWith forest options).graph.find? (.result l) = some c ∧
      (f.threadMemory.function.lowerWith forest options).graph.kind? c = some .load ∧
      (f.threadMemory.function.lowerWith forest options).graph.Path a c := by
  have h := (Module.readChecked_checked hread hf).toBound
  obtain ⟨phi, ht⟩ := Function.threads_threadMemory h.placed
  generalize f.threadMemory.function = g at hrun hbody ht ⊢
  obtain ⟨hsolid, a, ha, hka⟩ := ht.kind_store h hs
  obtain ⟨⟨j, hj, htoken⟩, c, hc, hkc⟩ := ht.kind_load h hl hbody
  refine ⟨a, c, ha, hka, hc, hkc, ?_⟩
  obtain ⟨d, hfinal⟩ := Draft.finishes_of_whole (ht.whole h) forest options
  rw [g.graph_lowerWith, hfinal.operator] at ha hc
  -- whatever the token feeds has a path from the store
  have hpasses : d.Passes g (.result s) (f.tokenAfter (Function.startToken phi b) done) :=
    ht.token_of_unbroken h.target (fun hi hmem hv => hfinal.wired.passes hv hi hmem) hs
      (Draft.passes_self (Or.inr ⟨s, rfl, hsolid⟩)) hrun
  obtain ⟨a', ha', hpath⟩ := hfinal.wired.into_operator hpasses hj htoken hc
  rw [(Draft.operator?_eq_some.mp ha).1] at ha'
  cases ha'
  simpa only [Graph.Path, g.graph_lowerWith, hfinal.edge] using hpath

theorem store_load_path_selfCopy :
    ∃ a c, (selfCopy.threadMemory.function.lower {}).graph.find? (.result 3) = some a ∧
      (selfCopy.threadMemory.function.lower {}).graph.kind? a = some .store ∧
      (selfCopy.threadMemory.function.lower {}).graph.find? (.result 2) = some c ∧
      (selfCopy.threadMemory.function.lower {}).graph.kind? c = some .load ∧
      (selfCopy.threadMemory.function.lower {}).graph.Path a c :=
  -- from the store in one round to the load in the next
  have hbody : selfCopy.threadMemory.function.body 1 = [6, 2] ++ 3 :: [4] := by decide +kernel
  have hstart : selfCopy.threadMemory.function.Unbroken selfCopy.storesAt 3 1 [6, 2, 3] :=
    .start hbody
  have hend : selfCopy.threadMemory.function.Unbroken selfCopy.storesAt 3 1 [6, 2, 3, 4] :=
    .run hstart hbody rfl
  have hround : selfCopy.threadMemory.function.Unbroken selfCopy.storesAt 3 1 [] :=
    .go hend (by decide +kernel) (by decide)
  have hrun : selfCopy.threadMemory.function.Unbroken selfCopy.storesAt 3 1 [6] :=
    .run hround hbody rfl
  store_load_path read_selfCopy List.mem_cons_self _ {} rfl rfl hrun hbody

end Dataflow
