import Dataflow.Proofs.Transform.Legible
import Dataflow.Proofs.Transform.MergeSteps
import Mathlib.Data.List.Flatten

/-!
# What transformations report

Whether a transformation tells truly if it changed what is printed. A report of a change is right:
merging leaves fewer labels, and threading, where nothing was merged, more calls, so the text is
another one. No report of a change is right only where threading is not asked for or puts no phi for
the token: the phis come first, and only loads and stores are counted (`Module.read_reports`,
`plainJump_unreported`).
-/

namespace Dataflow

open MemoryToken

namespace Function

variable {f g : Function} {b : BlockId} {x : InstId}

/-! ## What merging reports -/

/-- Either nothing was merged and the function is what it was, or it has fewer blocks. -/
theorem reports_mergePairs (h : f.Linked) (bound : Nat) :
    (mergePairs bound f).2 = [] ∧ (mergePairs bound f).1 = f ∨
      (mergePairs bound f).2 ≠ [] ∧ (mergePairs bound f).1.blocks.length < f.blocks.length := by
  cases bound with
  | zero => exact .inl ⟨rfl, rfl⟩
  | succ bound =>
      rw [Function.mergePairs]
      split
      · exact .inl ⟨rfl, rfl⟩
      · rename_i l r hpair
        obtain ⟨t, hchain⟩ := chainPair?_eq_some hpair
        obtain ⟨front, σ, m⟩ := h.merges hchain
        have hless : (f.mergePair l r).blocks.length < f.blocks.length := by
          rw [m.length]
          exact Nat.sub_one_lt_of_lt (h.lt_right hchain)
        have hrest : (Function.mergePairs bound (f.mergePair l r)).1.blocks.length ≤
            (f.mergePair l r).blocks.length :=
          (m.linked h).mergePairs (P := fun f h => h.blocks.length ≤ f.blocks.length)
            (fun _ => Nat.le_refl _)
            (fun _ m hle => hle.trans (m.length.trans_le (Nat.sub_le _ _))) bound
        exact .inr ⟨List.cons_ne_nil _ _, Nat.lt_of_le_of_lt hrest hless⟩

/-- Merging chains says whether it changed the function, and then there are fewer blocks. -/
theorem reports_mergeChains (h : f.Linked) :
    f.mergeChains.changed = false ∧ f.mergeChains.function = f ∨
      f.mergeChains.changed = true ∧
        f.mergeChains.function.blocks.length < f.blocks.length := by
  rw [mergeChains_function, mergeChains_changed, ← Bool.not_eq_true, mergeChains_changed, not_not]
  exact reports_mergePairs h _

/-! ## What threading reports -/

/-- Whether instruction `x` reads or writes memory. -/
def memoryAt (f : Function) (x : InstId) : Bool := f.loadsAt x || f.storesAt x

section Count

variable {s : State} {ids : List InstId} {phis : List (BlockId × InstId)} {bs : List BlockId}

/-- A step does nothing for what is no memory access. -/
theorem step_of_memoryAt_false (h : s.function.memoryAt x = false) : s.step x = s := by
  rw [memoryAt, Bool.or_eq_false_iff] at h
  exact step_of_not_memory h.1 h.2

/-- A step counts the memory access it rewrites. -/
theorem count_step (h : s.function.memoryAt x = true) : (s.step x).count = s.count + 1 := by
  unfold State.step
  split
  · rfl
  · rfl
  · rename_i hload hstore
    cases hi : s.function.instruction? x with
    | none => simp [memoryAt, loadsAt, storesAt, hi] at h
    | some i =>
        cases i with
        | load ty address => exact absurd hi (hload ty address)
        | store value address => exact absurd hi (hstore value address)
        | _ => simp [memoryAt, loadsAt, storesAt, hi, Instruction.isLoad, Instruction.isStore] at h

/-- Steps never count down. -/
theorem count_le_foldl : s.count ≤ (ids.foldl State.step s).count := by
  induction ids generalizing s with
  | nil => exact Nat.le_refl _
  | cons x ids ih =>
      refine Nat.le_trans ?_ ih
      cases h : s.function.memoryAt x with
      | false => rw [step_of_memoryAt_false h]
      | true => rw [count_step h]; exact Nat.le_succ _

theorem foldl_of_memoryAt_false (h : ∀ x ∈ ids, s.function.memoryAt x = false) :
    ids.foldl State.step s = s := by
  induction ids with
  | nil => rfl
  | cons x ids ih =>
      obtain ⟨hx, hids⟩ := List.forall_mem_cons.mp h
      rw [List.foldl_cons, step_of_memoryAt_false hx, ih hids]

/-- Each access to memory is counted. -/
theorem memoryAt_of_count_foldl (hcount : (ids.foldl State.step s).count = s.count) :
    ∀ x ∈ ids, s.function.memoryAt x = false := by
  induction ids with
  | nil => exact fun _ hx => absurd hx List.not_mem_nil
  | cons x ids ih =>
      have hx : s.function.memoryAt x = false := by
        by_contra h
        have hle : (s.step x).count ≤ ((x :: ids).foldl State.step s).count := count_le_foldl
        rw [hcount, count_step (Bool.eq_true_of_not_eq_false h)] at hle
        exact Nat.not_succ_le_self _ hle
      rw [List.foldl_cons, step_of_memoryAt_false hx] at hcount
      exact List.forall_mem_cons.mpr ⟨hx, ih hcount⟩

/-- Blocks without memory accesses are left alone. -/
theorem threadBlocks_of_memoryAt_false (h : ∀ b ∈ bs, ∀ x ∈ f.body b, f.memoryAt x = false) :
    (threadBlocks phis bs f).1 = f ∧ (threadBlocks phis bs f).2.2 = 0 := by
  induction bs with
  | nil => exact ⟨rfl, rfl⟩
  | cons b bs ih =>
      obtain ⟨hb, hbs⟩ := List.forall_mem_cons.mp h
      rw [threadBlocks, foldl_of_memoryAt_false hb]
      obtain ⟨hsame, hcount⟩ := ih hbs
      exact ⟨hsame, (Nat.zero_add _).trans hcount⟩

/-- Where nothing is counted, no block has a memory access. -/
theorem memoryAt_of_count_threadBlocks (hcount : (threadBlocks phis bs f).2.2 = 0) :
    ∀ b ∈ bs, ∀ x ∈ f.body b, f.memoryAt x = false := by
  induction bs with
  | nil => exact fun _ hb => absurd hb List.not_mem_nil
  | cons b bs ih =>
      rw [threadBlocks] at hcount
      obtain ⟨hdone, hrest⟩ := Nat.add_eq_zero_iff.mp hcount
      have hb : ∀ x ∈ f.body b, f.memoryAt x = false :=
        memoryAt_of_count_foldl (s := ⟨f, firstToken phis b, 0⟩) hdone
      rw [foldl_of_memoryAt_false (s := ⟨f, firstToken phis b, 0⟩) hb] at hrest
      exact List.forall_mem_cons.mpr ⟨hb, ih hrest⟩

end Count

theorem memoryAt_congr (h : g.instruction? x = f.instruction? x) : g.memoryAt x = f.memoryAt x := by
  rw [memoryAt, memoryAt, loadsAt_congr h, storesAt_congr h]

/-- The phis for the token are in no one's way: the accesses to memory are those from before. -/
theorem AddsPhis.memoryAt_body {bs : List BlockId} {phis : List (BlockId × InstId)} (hf : f.Placed)
    (ha : f.AddsPhis bs g phis) :
    (∀ x ∈ g.body b, g.memoryAt x = false) ↔ ∀ x ∈ f.body b, f.memoryAt x = false := by
  have hold : ∀ x ∈ f.body b, g.memoryAt x = f.memoryAt x := fun x hx =>
    memoryAt_congr (ha.instruction? (hf.lt_length hx))
  have hphi : ∀ x ∈ (phis.lookup b).toList, g.memoryAt x = false := by
    intro x hx
    have hi := ha.new (ha.mem (Option.mem_toList.mp hx)).1
    simp [memoryAt, loadsAt, storesAt, hi, Instruction.isLoad, Instruction.isStore]
  rw [ha.body]
  constructor
  · intro h x hx
    rw [← hold x hx]
    exact h x (List.mem_append_right _ hx)
  · intro h x hx
    rcases List.mem_append.mp hx with hx | hx
    · exact hphi x hx
    · rw [hold x hx]
      exact h x hx

/-- A memory access is no call yet. -/
theorem callAt_of_memoryAt (h : f.memoryAt x = true) : f.callAt x = false := by
  rw [memoryAt, loadsAt, storesAt] at h
  rw [callAt]
  cases hi : f.instruction? x with
  | none => rfl
  | some i =>
      rw [hi] at h
      cases i with
      | call => cases h
      | _ => rfl

theorem forall_live {P : InstId → Prop} :
    (∀ x ∈ f.live, P x) ↔ ∀ b < f.blocks.length, ∀ x ∈ f.body b, P x := by
  refine ⟨fun h b _ x hx => h x (mem_live_of_mem_body hx), fun h x hx => ?_⟩
  obtain ⟨b, hb⟩ := mem_live.mp hx
  exact h b (lt_length_of_mem_body hb) x hb

/-- Threading reports a change just when some instruction of the program reads or writes memory. If
none does, there is nothing but the phis for the token that is new. -/
theorem reports_threadMemory (hf : f.Placed) :
    f.threadMemory.changed = false ∧ (f.tokenBlocks = [] → f.threadMemory.function = f) ∨
      f.threadMemory.changed = true ∧ ∃ x ∈ f.live, f.memoryAt x = true := by
  unfold threadMemory
  split
  · exact .inl ⟨rfl, fun _ => rfl⟩
  have ha : f.AddsPhis f.tokenBlocks _ _ :=
    addsPhis_addTokenPhis (List.nodup_range.filter _) fun b hb => (mem_tokenBlocks.mp hb).1
  generalize hresult : addTokenPhis f.tokenBlocks f = result at ha
  obtain ⟨g, phis⟩ := result
  dsimp only at ha ⊢
  have hlive : (∀ x ∈ f.live, f.memoryAt x = false) ↔
      ∀ b ∈ g.blockIds, ∀ x ∈ g.body b, g.memoryAt x = false := by
    simp only [forall_live, mem_blockIds, ha.length, ha.memoryAt_body hf]
  by_cases hcount : (threadBlocks phis g.blockIds g).2.2 = 0
  · refine .inl ⟨decide_eq_false (not_not.mpr hcount), fun hnil => ?_⟩
    have hbodies := memoryAt_of_count_threadBlocks hcount
    rw [hnil] at hresult
    cases hresult
    exact (threadBlocks_of_memoryAt_false hbodies).1
  · refine .inr ⟨decide_eq_true hcount, ?_⟩
    by_contra hnone
    refine hcount (threadBlocks_of_memoryAt_false (hlive.mp fun x hx => ?_)).2
    exact Bool.eq_false_iff.mpr fun hmemory => hnone ⟨x, hx, hmemory⟩

namespace Threads

variable {phi : BlockId → Option InstId} (h : f.Threads g phi)

include h

/-- Nothing leaves the program. -/
theorem live_sublist : List.Sublist f.live g.live := by
  rw [live_eq_flatMap_body, live_eq_flatMap_body, blockIds, blockIds, h.length]
  refine List.Sublist.flatMap_right _ fun b _ => ?_
  rw [h.body]
  exact List.sublist_append_right _ _

/-- Accesses to memory are calls afterwards. -/
theorem callAt (hx : x ∈ f.live) : g.callAt x = (f.callAt x || f.memoryAt x) := by
  obtain ⟨b, hb⟩ := mem_live.mp hx
  obtain ⟨done, after, hsplit⟩ := List.append_of_mem hb
  rw [Function.callAt, Function.callAt, memoryAt, loadsAt, storesAt, h.tied hsplit]
  cases f.instruction? x with
  | none => rfl
  | some i => cases i <;> rfl

/-- Calls of the program stay calls. -/
theorem calls_le (ids : List InstId) (hids : ∀ x ∈ ids, x ∈ f.live) :
    ids.countP f.callAt ≤ ids.countP g.callAt :=
  List.countP_mono_left fun x hx hcall => by rw [h.callAt (hids x hx), hcall, Bool.true_or]

theorem calls_live_le : f.live.countP f.callAt ≤ g.live.countP g.callAt :=
  (h.calls_le _ fun _ hx => hx).trans h.live_sublist.countP_le

/-- There are more calls where a memory access was rewritten. -/
theorem calls_live_lt (hx : x ∈ f.live) (hmemory : f.memoryAt x = true) :
    f.live.countP f.callAt < g.live.countP g.callAt := by
  refine Nat.lt_of_lt_of_le ?_ h.live_sublist.countP_le
  obtain ⟨front, rest, hsplit⟩ := List.append_of_mem hx
  have hfront := h.calls_le front fun y hy => by simp [hsplit, hy]
  have hrest := h.calls_le rest fun y hy => by simp [hsplit, hy]
  have hbefore : ¬ f.callAt x = true := by simp [callAt_of_memoryAt hmemory]
  have hafter : g.callAt x = true := by rw [h.callAt hx, hmemory, Bool.or_true]
  rw [hsplit, List.countP_append, List.countP_append, List.countP_cons_of_neg hbefore,
    List.countP_cons_of_pos hafter]
  omega

/-- Where a block gets a phi for the token, the program is longer. -/
theorem length_live_lt (hf : f.Placed) (hblocks : f.tokenBlocks ≠ []) :
    f.live.length < g.live.length := by
  refine Nat.lt_of_le_of_ne h.live_sublist.length_le fun heq => ?_
  obtain ⟨b, hb⟩ := List.exists_mem_of_ne_nil _ hblocks
  obtain ⟨hlt, hne, hpred⟩ := mem_tokenBlocks.mp hb
  obtain ⟨p, hp⟩ := h.needed hlt hne hpred
  have hmem : p ∈ g.live := mem_live_of_mem_body (b := b) (by simp [h.body, hp])
  rw [← h.live_sublist.eq_of_length heq] at hmem
  obtain ⟨c, hc⟩ := mem_live.mp hmem
  exact absurd (hf.lt_length hc) (Nat.not_lt.mpr (h.new hp))

end Threads

/-! ## What all transformations report -/

/-- What transformations may have made of `f`, and whether they say so. -/
inductive Outcome (f : Function) (options : TransformOptions) (c : Change) : Prop where
  /-- Blocks were merged. -/
  | merged (changed : c.changed = true) (fewer : c.function.blocks.length < f.blocks.length)
  /-- No blocks were merged, and accesses to memory became calls. -/
  | tied (changed : c.changed = true) (blocks : c.function.blocks.length = f.blocks.length)
      (calls : f.live.countP f.callAt < c.function.live.countP c.function.callAt)
  /-- There was nothing to merge and nothing to tie, and blocks got phis for the token. -/
  | padded (changed : c.changed = false) (blocks : c.function.blocks.length = f.blocks.length)
      (calls : f.live.countP f.callAt ≤ c.function.live.countP c.function.callAt)
      (longer : f.live.length < c.function.live.length) (wanted : options.threadMemory = true)
      (entered : f.tokenBlocks ≠ [])
  /-- The function is what it was. -/
  | same (changed : c.changed = false) (function : c.function = f)
      (quiet : options.threadMemory = true → f.tokenBlocks = [])

/-- What threading makes of a function, after nothing was merged. -/
theorem outcome_threadMemory (hf : f.Placed) {options : TransformOptions}
    (hwanted : options.threadMemory = true) (journal : Journal) : f.Outcome options
      { function := f.threadMemory.function, changed := f.threadMemory.changed, journal } := by
  obtain ⟨phi, ht⟩ := threads_threadMemory hf
  rcases reports_threadMemory hf with ⟨hchanged, hsame⟩ | ⟨hchanged, x, hx, hmemory⟩
  · by_cases hblocks : f.tokenBlocks = []
    · exact .same hchanged (hsame hblocks) fun _ => hblocks
    · exact .padded hchanged ht.length ht.calls_live_le (ht.length_live_lt hf hblocks) hwanted
        hblocks
  · exact .tied hchanged ht.length (ht.calls_live_lt hx hmemory)

/-- A transformation comes to one of the outcomes for its options. -/
theorem outcome_transform (h : f.Linked) (options : TransformOptions) :
    f.Outcome options (f.transform options) := by
  have hlinked : f.mergeChains.function.Linked := by
    rw [mergeChains_function]
    exact h.mergePairs (P := fun f h => f.Linked → h.Linked) (fun _ hf => hf)
      (fun hf m hstep _ => hstep (m.linked hf)) _ h
  obtain ⟨merge, thread⟩ := options
  cases merge <;> cases thread <;>
    simp only [Function.transform, Change.andThen, Bool.false_eq_true, if_false, if_true,
      Bool.false_or]
  · exact .same rfl rfl fun hwanted => absurd hwanted Bool.false_ne_true
  · exact outcome_threadMemory h.placed rfl _
  · rcases reports_mergeChains h with ⟨hchanged, hsame⟩ | ⟨hchanged, hfewer⟩
    · exact .same hchanged hsame fun hwanted => absurd hwanted Bool.false_ne_true
    · exact .merged hchanged hfewer
  · obtain ⟨phi, ht⟩ := threads_threadMemory hlinked.placed
    rcases reports_mergeChains h with ⟨hchanged, hsame⟩ | ⟨hchanged, hfewer⟩
    · rw [hchanged, hsame, Bool.false_or]
      exact outcome_threadMemory h.placed rfl _
    · exact .merged (by rw [hchanged, Bool.true_or]) (ht.length.trans_lt hfewer)

end Function

/-- What a report of a change is worth, where a text was `before` and is `after`: with a report it
is another text, and without one it is the same text just when `quiet` holds. -/
structure ReportsChange (before after : String) (changed : Bool) (quiet : Prop) : Prop where
  reported : changed = true → after ≠ before
  silent : changed = false → (after = before ↔ quiet)

namespace Module

variable {m : Module} {options : TransformOptions}

theorem functions_transform : (m.transform options).module.functions =
    m.functions.map fun f => (f.transform options).function := by
  simp [transform]

/-- A module is changed when one of its functions is. -/
theorem changed_transform : (m.transform options).changed = true ↔
    ∃ f ∈ m.functions, (f.transform options).changed = true := by
  simp [transform]

/-- The text differs where the number of a mark does. -/
theorem text_transform_ne (hm : ∀ f ∈ m.functions, f.Legible) (c : Char)
    (hne : (m.functions.flatMap fun f => (f.transform options).function.marks).count c ≠
      (m.functions.flatMap (·.marks)).count c) :
    (m.transform options).module.text ≠ m.text := by
  refine text_ne_of_count (fun g hg => ?_) hm (by simp [functions_transform]) c ?_
  · rw [functions_transform] at hg
    obtain ⟨f, hf, rfl⟩ := List.mem_map.mp hg
    exact (hm f hf).transform options
  · rwa [functions_transform, List.flatMap_map]

section Outcomes

variable (hm : ∀ f ∈ m.functions, f.Legible)
  (hout : ∀ f ∈ m.functions, f.Outcome options (f.transform options)) {f : Function}
  (hf : f ∈ m.functions)

include hm hout hf

/-- Merging takes labels away, and threading adds none. -/
theorem text_ne_of_merged
    (hfewer : (f.transform options).function.blocks.length < f.blocks.length) :
    (m.transform options).module.text ≠ m.text := by
  refine text_transform_ne hm ':' (Nat.ne_of_lt (Marks.count_flatMap_lt (fun g hg => ?_) hf ?_)) <;>
    rw [Function.count_colon, Function.count_colon]
  · cases hout g hg with
    | merged _ fewer => exact Nat.le_of_lt fewer
    | tied _ blocks | padded _ blocks => exact Nat.le_of_eq blocks
    | same _ function => rw [function]
  · exact hfewer

/-- Where nothing was merged, threading adds calls and takes none away. -/
theorem text_ne_of_tied (hmerged : ∀ g ∈ m.functions,
      ¬ (g.transform options).function.blocks.length < g.blocks.length)
    (hchanged : (f.transform options).changed = true) :
    (m.transform options).module.text ≠ m.text := by
  refine text_transform_ne hm '(' (Nat.ne_of_gt (Marks.count_flatMap_lt (fun g hg => ?_) hf ?_)) <;>
    rw [Function.count_parenthesis, Function.count_parenthesis]
  · cases hout g hg with
    | merged _ fewer => exact absurd fewer (hmerged g hg)
    | tied _ _ calls => exact Nat.succ_le_succ (Nat.le_of_lt calls)
    | padded _ _ calls => exact Nat.succ_le_succ calls
    | same _ function => rw [function]
  · cases hout f hf with
    | merged _ fewer => exact absurd fewer (hmerged f hf)
    | tied _ _ calls => exact Nat.succ_lt_succ calls
    | padded changed | same changed => rw [hchanged] at changed; cases changed

/-- Where no change is reported, a function that got phis has more lines, and none has fewer. -/
theorem text_ne_of_padded (hunchanged : ∀ g ∈ m.functions, (g.transform options).changed = false)
    (hwanted : options.threadMemory = true) (hentered : f.tokenBlocks ≠ []) :
    (m.transform options).module.text ≠ m.text := by
  refine text_transform_ne hm '\n'
    (Nat.ne_of_gt (Marks.count_flatMap_lt (fun g hg => ?_) hf ?_)) <;>
    rw [Function.count_line, Function.count_line]
  · cases hout g hg with
    | merged changed | tied changed => rw [hunchanged g hg] at changed; cases changed
    | padded _ blocks _ longer => rw [blocks]; omega
    | same _ function => rw [function]
  · cases hout f hf with
    | merged changed | tied changed => rw [hunchanged f hf] at changed; cases changed
    | padded _ blocks _ longer => rw [blocks]; omega
    | same _ _ quiet => exact absurd (quiet hwanted) hentered

end Outcomes

/-- A transformation reports a change when the text changes, except where threading only adds
phis. -/
theorem reportsChange_transform (hlinked : ∀ f ∈ m.functions, f.Linked)
    (hm : ∀ f ∈ m.functions, f.Legible) (options : TransformOptions) :
    ReportsChange m.text (m.transform options).module.text (m.transform options).changed
      (options.threadMemory = true → ∀ f ∈ m.functions, f.tokenBlocks = []) := by
  have hout : ∀ f ∈ m.functions, f.Outcome options (f.transform options) := fun f hf =>
    Function.outcome_transform (hlinked f hf) options
  refine ⟨fun hchanged => ?_, fun hchanged => ⟨fun htext hwanted f hf => ?_, fun hquiet => ?_⟩⟩
  · obtain ⟨f, hf, hchanged⟩ := changed_transform.mp hchanged
    by_cases hmerged : ∃ g ∈ m.functions,
        (g.transform options).function.blocks.length < g.blocks.length
    · obtain ⟨g, hg, hfewer⟩ := hmerged
      exact text_ne_of_merged hm hout hg hfewer
    · exact text_ne_of_tied hm hout hf (fun g hg hfewer => hmerged ⟨g, hg, hfewer⟩) hchanged
  all_goals
    have hunchanged : ∀ g ∈ m.functions, (g.transform options).changed = false := fun g hg =>
      Bool.eq_false_iff.mpr fun h =>
        Bool.eq_false_iff.mp hchanged (changed_transform.mpr ⟨g, hg, h⟩)
  · by_contra hentered
    exact text_ne_of_padded hm hout hf hunchanged hwanted hentered htext
  · have hsame : ∀ f ∈ m.functions, (f.transform options).function = f := by
      intro f hf
      cases hout f hf with
      | merged changed | tied changed => rw [hunchanged f hf] at changed; cases changed
      | padded _ _ _ _ wanted entered => exact absurd (hquiet wanted f hf) entered
      | same _ function => exact function
    rw [Module.text, Module.text, functions_transform, List.map_map]
    exact congrArg _ (List.map_congr_left fun f hf => congrArg Function.text (hsame f hf))

/-- A report of a change is right: what is printed is another text. Without a report what is printed
is the same text just when no block was to get a phi for the token, for each function and for the
whole module. -/
theorem read_reports {text : String} (h : read text = .ok m) (options : TransformOptions) :
    (∀ f ∈ m.functions, ReportsChange f.text (f.transform options).function.text
      (f.transform options).changed (options.threadMemory = true → f.tokenBlocks = [])) ∧
    ReportsChange m.text (m.transform options).module.text (m.transform options).changed
      (options.threadMemory = true → ∀ f ∈ m.functions, f.tokenBlocks = []) := by
  have hlinked : ∀ f ∈ m.functions, f.Linked := fun f hf => (read_bound h hf).linked
  have hlegible : ∀ f ∈ m.functions, f.Legible := fun f hf => (read_spelled h hf).legible
  refine ⟨fun f hf => ?_, reportsChange_transform hlinked hlegible options⟩
  -- a function is printed as the module that has it alone
  have hone := reportsChange_transform (m := ⟨[f]⟩) (by simpa using hlinked f hf)
    (by simpa using hlegible f hf) options
  simpa [Module.text, functions_transform, transform] using hone

end Module

/-- A function of two blocks that neither reads nor writes memory. -/
def plainJump : Function where
  name := "f"
  ret := .void
  params := []
  blocks := [⟨"entry", [0]⟩, ⟨"next", [1]⟩]
  slots := [⟨none, .jump 1, 0⟩, ⟨none, .ret none, 1⟩]

/-- The text of `plainJump`. -/
def plainJumpText : String :=
  "define void @f() \x7b\nentry:\n  br label %next\nnext:\n  ret void\n\x7d\n"

/-- A jump to another block gets a phi for the token, which is not reported. -/
theorem read_reports_plainJump : Module.read plainJumpText = .ok ⟨[plainJump]⟩ ∧
    ReportsChange (Module.text ⟨[plainJump]⟩)
      (Module.transform ⟨[plainJump]⟩ ⟨false, true⟩).module.text
      (Module.transform ⟨[plainJump]⟩ ⟨false, true⟩).changed
      (true = true → ∀ f ∈ [plainJump], f.tokenBlocks = []) :=
  have hread : Module.read plainJumpText = .ok ⟨[plainJump]⟩ := by decide +kernel
  ⟨hread, (Module.read_reports hread ⟨false, true⟩).2⟩

/-- Threading gives the second block a phi for a token that nothing takes, and reports no change. -/
theorem plainJump_unreported : Module.readChecked plainJumpText = .ok ⟨[plainJump]⟩ ∧
    (plainJump.transform ⟨false, true⟩).changed = false ∧
    (plainJump.transform ⟨false, true⟩).function.text ≠ plainJump.text ∧
    (Module.transform ⟨[plainJump]⟩ ⟨false, true⟩).changed = false ∧
    (Module.transform ⟨[plainJump]⟩ ⟨false, true⟩).module.text ≠ Module.text ⟨[plainJump]⟩ := by
  refine ⟨by decide +kernel, by decide +kernel, by decide +kernel, by decide +kernel,
    by decide +kernel⟩

end Dataflow
