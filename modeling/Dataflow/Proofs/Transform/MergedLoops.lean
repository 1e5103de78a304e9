import Dataflow.Proofs.Transform.ContractedLoops
import Dataflow.Proofs.Transform.MergeRuns

/-!
# Merging keeps the loops

Each merge contracts the ways of a function, so the loops after all merges are the images of those
before (`keepsLoops_mergeChains`). Where a block goes is followed from merge to merge
(`Function.mergedBlock`).
-/

namespace Dataflow

namespace Function

/-- The block that block `b` is in after at most `bound` merges. -/
def mergedBlockUpTo : Nat → Function → BlockId → BlockId
  | 0, _, b => b
  | bound + 1, f, b =>
    match f.chainPair? with
    | none => b
    | some (l, r) => mergedBlockUpTo bound (f.mergePair l r) (mergedIndex l r b)

/-- One of at most `bound` merges appends block `b`, or what it has become, to another block. -/
def IsAppendedUpTo : Nat → Function → BlockId → Prop
  | 0, _, _ => False
  | bound + 1, f, b =>
    match f.chainPair? with
    | none => False
    | some (l, r) => b = r ∨ IsAppendedUpTo bound (f.mergePair l r) (mergedIndex l r b)

/-- The block that block `b` is in after all merges. -/
def mergedBlock (f : Function) (b : BlockId) : BlockId := mergedBlockUpTo f.blocks.length f b

/-- Some merge appends block `b`, or what it has become, to another block. -/
def IsAppended (f : Function) (b : BlockId) : Prop := IsAppendedUpTo f.blocks.length f b

/-- Function `g` is `f` after merges: `a` says where the blocks went, and `Gone` which of them were
appended to others. -/
structure KeepsLoops (f g : Function) (a : BlockId → BlockId) (Gone : BlockId → Prop) : Prop where
  /-- A block goes to a block. -/
  lt_length : ∀ b, b < f.blocks.length → a b < g.blocks.length
  /-- What a block lists comes from a block that went there. -/
  body : ∀ e, ∀ x ∈ g.body e, ∃ b, x ∈ f.body b ∧ a b = e
  /-- Of the blocks that went to a block, one was not appended. -/
  stays : ∀ e, e < g.blocks.length → ∃! b, b < f.blocks.length ∧ ¬ Gone b ∧ a b = e
  /-- The loops are the images of the loops, in the same order. -/
  loops : g.loopForest.loops = f.loopForest.loops.map (·.image a g.blocks.length)
  /-- No header was appended. -/
  header : ∀ m ∈ f.loopForest.loops, ¬ Gone m.header
  /-- The innermost loop around a block goes where the block goes. -/
  innermost : ∀ b, g.loopForest.innermost? (a b) =
    (f.loopForest.innermost? b).map (·.image a g.blocks.length)

variable {f g k : Function} {a a' : BlockId → BlockId} {Gone Gone' : BlockId → Prop}
  {b l r : BlockId} {t : InstId} {front : List InstId} {σ : Operand → Operand} {m : NaturalLoop}

/-- Without a merge a loop is its own image. -/
theorem image_id (hm : m ∈ f.loopForest.loops) : m.image id f.blocks.length = m := by
  obtain ⟨_, hm⟩ := mem_loops.mp hm
  obtain ⟨hlatches, hbody, hexiting⟩ := sorted_of_loopAt? hm
  have hbelow := below_of_loopAt? hm
  exact (NaturalLoop.eq_image rfl (eq_blockImage hlatches (by simp) hbelow.latches)
    (eq_blockImage hbody (by simp) hbelow.body) Option.map_id_apply.symm
    (eq_blockImage hexiting (by simp) hbelow.exiting)).symm

/-- Images may be taken one after the other. -/
theorem image_image {n n' : Nat} (hm : m ∈ f.loopForest.loops)
    (ha : ∀ b, b < f.blocks.length → a b < n) :
    (m.image a n).image a' n' = m.image (a' ∘ a) n' :=
  NaturalLoop.image_image (below_of_loopAt? (mem_loops.mp hm).2) ha

namespace KeepsLoops

theorem refl (f : Function) : f.KeepsLoops f id fun _ => False where
  lt_length _ hb := hb
  body e x hx := ⟨e, hx, rfl⟩
  stays e he := ⟨e, ⟨he, not_false, rfl⟩, fun b hb => hb.2.2⟩
  loops := by
    have hid : ∀ m ∈ f.loopForest.loops, m.image id f.blocks.length = id m :=
      fun _ hm => image_id hm
    rw [List.map_congr_left hid, List.map_id]
  header _ _ := not_false
  innermost b := by
    have hid : ∀ m ∈ f.loopForest.innermost? b, m.image id f.blocks.length = id m :=
      fun m hm => image_id (innermost?_eq_some_iff.mp hm).1
    rw [Option.map_congr hid, Option.map_id, id, id]

/-- Loops that are kept in steps are kept. -/
theorem trans (h : f.KeepsLoops g a Gone) (h' : g.KeepsLoops k a' Gone') :
    f.KeepsLoops k (a' ∘ a) fun b => Gone b ∨ Gone' (a b) where
  lt_length b hb := h'.lt_length _ (h.lt_length b hb)
  body e x hx := by
    obtain ⟨c, hc, rfl⟩ := h'.body e x hx
    obtain ⟨b, hb, rfl⟩ := h.body c x hc
    exact ⟨b, hb, rfl⟩
  stays e he := by
    obtain ⟨c, ⟨hc, hgone, rfl⟩, honly⟩ := h'.stays e he
    obtain ⟨b, ⟨hb, hgone', rfl⟩, honly'⟩ := h.stays c hc
    refine ⟨b, ⟨hb, fun hor => hor.elim hgone' hgone, rfl⟩, fun b' hb' => ?_⟩
    obtain ⟨hlt, hnot, heq⟩ := hb'
    rw [not_or] at hnot
    exact honly' b' ⟨hlt, hnot.1, honly _ ⟨h.lt_length b' hlt, hnot.2, heq⟩⟩
  loops := by
    rw [h'.loops, h.loops, List.map_map]
    exact List.map_congr_left fun m hm => image_image hm h.lt_length
  header m hm := by
    rintro (hgone | hgone)
    · exact h.header m hm hgone
    · exact h'.header (m.image a g.blocks.length) (h.loops ▸ List.mem_map_of_mem hm) hgone
  innermost b := by
    rw [Function.comp_apply, h'.innermost, h.innermost, Option.map_map]
    exact Option.map_congr fun m hm =>
      image_image (innermost?_eq_some_iff.mp hm).1 h.lt_length

end KeepsLoops

/-- A merge keeps the loops. -/
theorem Merges.keepsLoops (h : f.Flows) (m : f.Merges g l r t front σ) :
    f.KeepsLoops g (mergedIndex l r) (· = r) where
  lt_length _ := (m.contracts h).mergedIndex_lt_length.mpr
  body e x hx := by
    obtain ⟨b, hb, heq, _⟩ := m.mem_body hx
    exact ⟨b, hb, heq⟩
  stays e he := by
    obtain ⟨b, hb, rfl⟩ := exists_mergedIndex l r e
    rw [m.length] at he
    refine ⟨b, ⟨(mergedIndex_lt (h.lt_right m.pair) hb).mp he, hb, rfl⟩, fun c hc => ?_⟩
    exact mergedIndex_inj hc.2.1 hb hc.2.2
  loops := (m.contracts h).loops_image
  header m' hm' := (m.contracts h).header_ne (mem_loops.mp hm').2
  innermost := (m.contracts h).innermost?_image

/-- Any number of merges keeps the loops. -/
theorem keepsLoops_mergePairs (h : f.Flows) (bound : Nat) : f.KeepsLoops (mergePairs bound f).1
    (mergedBlockUpTo bound f) (IsAppendedUpTo bound f) := by
  induction bound generalizing f with
  | zero => exact .refl f
  | succ bound ih =>
      cases hpair : f.chainPair? with
      | none =>
          have hblock : mergedBlockUpTo (bound + 1) f = id := by
            funext b
            simp [mergedBlockUpTo, hpair]
          have hgone : IsAppendedUpTo (bound + 1) f = fun _ => False := by
            funext b
            simp [IsAppendedUpTo, hpair]
          simpa only [mergePairs, hpair, hblock, hgone] using KeepsLoops.refl f
      | some pair =>
          obtain ⟨l, r⟩ := pair
          obtain ⟨t, hchain⟩ := chainPair?_eq_some hpair
          obtain ⟨front, σ, m⟩ := h.merges hchain
          have hblock : mergedBlockUpTo (bound + 1) f =
              mergedBlockUpTo bound (f.mergePair l r) ∘ mergedIndex l r := by
            funext b
            simp [mergedBlockUpTo, hpair]
          have hgone : IsAppendedUpTo (bound + 1) f = fun b =>
              b = r ∨ IsAppendedUpTo bound (f.mergePair l r) (mergedIndex l r b) := by
            funext b
            simp [IsAppendedUpTo, hpair]
          simp only [mergePairs, hpair, hblock, hgone]
          exact (m.keepsLoops h).trans (ih (m.flows h))

end Function

/-- Merging chains of blocks keeps the loops: those of the result are what the loops became, in the
same order, with headers that were not appended to other blocks. -/
theorem keepsLoops_mergeChains {text : String} {source : Module} {f : Function}
    (hread : Module.readChecked text = .ok source) (hf : f ∈ source.functions) :
    f.KeepsLoops f.mergeChains.function f.mergedBlock f.IsAppended := by
  rw [Function.mergeChains_function]
  exact Function.keepsLoops_mergePairs
    (Function.flows_of_checked (Module.readChecked_checked hread hf)) f.blocks.length

/-- A loop whose last block can be appended to the block before it. -/
def twoStepLoop : Function where
  name := "f"
  ret := .int 32
  params := [⟨"n", .int 32⟩]
  blocks := [⟨"entry", [0]⟩, ⟨"head", [1, 2, 3]⟩, ⟨"body", [4, 5]⟩, ⟨"latch", [6]⟩, ⟨"exit", [7]⟩]
  slots := [
    ⟨none, .jump 1, 0⟩,
    ⟨some "i", .phi (.int 32) [⟨.const ⟨.int 32, "0"⟩, 0⟩, ⟨.result 4, 3⟩], 1⟩,
    ⟨some "go", .compare (.int .slt) (.int 32) (.result 1) (.param 0), 1⟩,
    ⟨none, .branch (.result 2) 2 4, 1⟩,
    ⟨some "j", .binary .add (.int 32) (.result 1) (.const ⟨.int 32, "1"⟩), 2⟩,
    ⟨none, .jump 3, 2⟩,
    ⟨none, .jump 1, 3⟩,
    ⟨none, .ret (some ⟨.int 32, .result 1⟩), 4⟩]

/-- The text of `twoStepLoop`. -/
def twoStepLoopText : String :=
  "define i32 @f(i32 %n) \x7b\nentry:\n  br label %head\nhead:\n" ++
    "  %i = phi i32 [ 0, %entry ], [ %j, %latch ]\n  %go = icmp slt i32 %i, %n\n" ++
    "  br i1 %go, label %body, label %exit\nbody:\n  %j = add i32 %i, 1\n  br label %latch\n" ++
    "latch:\n  br label %head\nexit:\n  ret i32 %i\n\x7d\n"

/-- The text of the loop is read as the function. -/
theorem read_twoStepLoop : Module.readChecked twoStepLoopText = .ok ⟨[twoStepLoop]⟩ := by
  decide +kernel

/-- The loop is merged into two blocks, and still is the one loop around its header. -/
theorem keepsLoops_mergeChains_twoStepLoop :
    twoStepLoop.loopForest.loops = [⟨1, [3], [1, 2, 3], some 0, [1]⟩] ∧
      twoStepLoop.mergeChains.function.loopForest.loops = [⟨1, [2], [1, 2], some 0, [1]⟩] ∧
      ¬ twoStepLoop.IsAppended 1 := by
  have hloops : twoStepLoop.loopForest.loops = [⟨1, [3], [1, 2, 3], some 0, [1]⟩] := by
    decide +kernel
  have h := keepsLoops_mergeChains read_twoStepLoop List.mem_cons_self
  refine ⟨hloops, ?_, h.header ⟨1, [3], [1, 2, 3], some 0, [1]⟩ (by rw [hloops]; simp)⟩
  rw [h.loops, hloops]
  decide +kernel

end Dataflow
