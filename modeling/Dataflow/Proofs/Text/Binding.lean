import Dataflow.Failure
import Dataflow.Proofs.Ssa.Edit
import Dataflow.Proofs.Text.Reading
import Mathlib.Data.List.Basic

/-!
# Functions that were read

What binding promises of a function it makes. Instructions are numbered in program order, each
stands in the block it was put in, and every reference leads to something that exists
(`Surface.FunctionText.bind_placed`, `Surface.FunctionText.bind_resolved`). A checked module
promises also that its functions are well shaped (`Module.readChecked_checked`).
-/

namespace Dataflow

/-! ## Results of binding -/

/-- A sequence succeeds when both its steps do. -/
theorem bind_eq_ok {α β ε : Type} {x : Except ε α} {g : α → Except ε β} {r : β} :
    x >>= g = .ok r ↔ ∃ a, x = .ok a ∧ g a = .ok r := by
  cases x with
  | error e => simp [bind, Except.bind]
  | ok a => simp [bind, Except.bind]

/-- A result that is given is the one that is got. -/
theorem pure_eq_ok {α ε : Type} {a r : α} : (pure a : Except ε α) = .ok r ↔ a = r := by
  simp [pure, Except.pure]

/-- What a list is mapped to comes from it member by member. -/
theorem forall₂_of_mapM_eq_ok {α β ε : Type} {g : α → Except ε β} {xs : List α} {ys : List β}
    (h : xs.mapM g = .ok ys) : List.Forall₂ (fun x y => g x = .ok y) xs ys := by
  induction xs generalizing ys with
  | nil =>
      cases h
      exact .nil
  | cons x xs ih =>
      simp only [List.mapM_cons, bind_eq_ok, pure_eq_ok] at h
      obtain ⟨y, hy, zs, hzs, rfl⟩ := h
      exact .cons hy (ih hzs)

/-- A member of what a list is mapped to comes from a member of the list. -/
theorem mem_of_mapM_eq_ok {α β ε : Type} {g : α → Except ε β} {xs : List α} {ys : List β}
    (h : xs.mapM g = .ok ys) {y : β} (hy : y ∈ ys) : ∃ x ∈ xs, g x = .ok y := by
  have hall := forall₂_of_mapM_eq_ok h
  obtain ⟨k, hk, rfl⟩ := List.getElem_of_mem hy
  have hlt : k < xs.length := hall.length_eq ▸ hk
  exact ⟨xs[k], List.getElem_mem hlt, hall.get hlt hk⟩

/-- What holds of the state and the items still to come at the start holds at the end. -/
theorem foldlM_eq_ok {α β ε : Type} {g : β → α → Except ε β} (P : List α → β → Prop)
    (hstep : ∀ x rest s s', P (x :: rest) s → g s x = .ok s' → P rest s')
    {xs : List α} {s s' : β} (hstart : P xs s) (h : xs.foldlM g s = .ok s') : P [] s' := by
  induction xs generalizing s with
  | nil =>
      cases h
      exact hstart
  | cons x xs ih =>
      simp only [List.foldlM_cons, bind_eq_ok] at h
      obtain ⟨t, ht, h⟩ := h
      exact ih (hstep x xs s t hstart ht) h

namespace Surface

/-! ## Scopes -/

namespace Scope

/-- Every result of a scope has a number that is already given out. -/
def Numbered (s : Scope) : Prop := ∀ r ∈ s.results, r.2 < s.nextInst

/-- The operands that names and literals of a scope can stand for. -/
def Binds (s : Scope) : Operand → Prop
  | .param k => k < s.params.length
  | .result x => x < s.nextInst
  | .const _ | .global _ => True
  | .function _ => False

/-- A line that enters a scope takes the next number. -/
theorem addLine_eq_ok {s t : Scope} {line : Line} (h : s.addLine line = .ok t)
    (hs : s.Numbered) :
    t.Numbered ∧ t.nextInst = s.nextInst + 1 ∧ t.labels = s.labels ∧ t.params = s.params := by
  unfold addLine at h
  split at h
  · cases h
    exact ⟨fun r hr => Nat.lt_succ_of_lt (hs r hr), rfl, rfl, rfl⟩
  · split at h
    · cases h
    · cases h
      refine ⟨fun r hr => ?_, rfl, rfl, rfl⟩
      rcases List.mem_append.mp hr with hr | hr
      · exact Nat.lt_succ_of_lt (hs r hr)
      · rw [List.mem_singleton.mp hr]
        exact Nat.lt_succ_self _

/-- A block that enters a scope takes a number for each line, and adds its label. -/
theorem addBlock_eq_ok {s t : Scope} {block : BlockText} (h : s.addBlock block = .ok t)
    (hs : s.Numbered) :
    t.Numbered ∧ t.nextInst = s.nextInst + block.lines.length ∧
      t.labels.length = s.labels.length + 1 ∧ t.params = s.params := by
  unfold addBlock at h
  generalize blockLabel s.nextNumber block.label = numbered at h
  obtain ⟨label, next⟩ := numbered
  simp only at h
  split at h
  · cases h
  · refine foldlM_eq_ok (fun rest (u : Scope) => u.Numbered ∧
      u.nextInst + rest.length = s.nextInst + block.lines.length ∧
      u.labels.length = s.labels.length + 1 ∧ u.params = s.params) ?_ ?_ h
    · intro line rest u v hu hv
      obtain ⟨hnum, hnext, hlabels, hparams⟩ := addLine_eq_ok hv hu.1
      refine ⟨hnum, ?_, by rw [hlabels]; exact hu.2.2.1, hparams.trans hu.2.2.2⟩
      rw [hnext, Nat.add_right_comm]
      exact hu.2.1
    · exact ⟨hs, rfl, by simp, rfl⟩

variable {s : Scope}

/-- What a scope finds for a name is in it. -/
theorem value?_binds (hs : s.Numbered) {name : String} {v : Operand}
    (h : s.value? name = some v) : s.Binds v := by
  unfold value? at h
  split at h
  · rename_i index hfind
    cases h
    have hmem := List.mem_of_find?_eq_some hfind
    rw [List.mem_reverse, List.mem_zipIdx_iff_getElem?] at hmem
    exact (List.getElem?_eq_some_iff.mp hmem).1
  · simp only [Option.map_eq_some_iff] at h
    obtain ⟨r, hr, rfl⟩ := h
    exact hs r (List.mem_of_find?_eq_some hr)

/-- What a scope finds for a label is one of its blocks. -/
theorem block?_lt {name : String} {b : Nat} (h : s.block? name = some b) :
    b < s.labels.length := by
  rw [block?, List.idxOf?, List.findIdx?_eq_some_iff_getElem] at h
  exact h.1

end Scope

/-! ## Operands and instructions -/

section Operands

variable {scope : Scope}

/-- A local name is bound to what is in the scope. -/
theorem bindLocal_binds (hs : scope.Numbered) {name : String} {v : Operand}
    (h : bindLocal scope name = .ok v) : scope.Binds v := by
  unfold bindLocal at h
  split at h
  · cases h
    exact Scope.value?_binds hs ‹_›
  · cases h

/-- A label is bound to a block of the scope. -/
theorem bindLabel_lt {name : String} {b : Nat} (h : bindLabel scope name = .ok b) :
    b < scope.labels.length := by
  unfold bindLabel at h
  split at h
  · cases h
    exact Scope.block?_lt ‹_›
  · cases h

/-- An operand is bound to what is in the scope. -/
theorem OperandText.bind_binds (hs : scope.Numbered) {ty : Ty} {o : OperandText} {v : Operand}
    (h : o.bind scope ty = .ok v) : scope.Binds v := by
  cases o with
  | «local» name => exact bindLocal_binds hs h
  | global name =>
      cases h
      trivial
  | literal text =>
      cases h
      trivial

/-- A typed operand is bound to what is in the scope. -/
theorem TypedText.bind_binds (hs : scope.Numbered) {o : TypedText} {t : TypedOperand}
    (h : o.bind scope = .ok t) : scope.Binds t.value := by
  simp only [TypedText.bind, bind_eq_ok, pure_eq_ok] at h
  obtain ⟨ty, _, v, hv, rfl⟩ := h
  exact OperandText.bind_binds hs hv

/-- So is one that may be missing. -/
theorem bindOptional_binds (hs : scope.Numbered) {o : Option TypedText}
    {t : Option TypedOperand} (h : bindOptional scope o = .ok t) :
    ∀ u ∈ t, scope.Binds u.value := by
  cases o with
  | none =>
      cases h
      simp
  | some o =>
      simp only [bindOptional, bind_eq_ok, pure_eq_ok] at h
      obtain ⟨u, hu, rfl⟩ := h
      simpa using TypedText.bind_binds hs hu

/-- So is each of a list. -/
theorem mapM_bind_binds (hs : scope.Numbered) {os : List TypedText} {ts : List TypedOperand}
    (h : os.mapM (·.bind scope) = .ok ts) : ∀ u ∈ ts, scope.Binds u.value := by
  intro u hu
  obtain ⟨o, _, ho⟩ := mem_of_mapM_eq_ok h hu
  exact TypedText.bind_binds hs ho

/-- An arm is bound to what is in the scope, and to one of its blocks. -/
theorem ArmText.bind_binds (hs : scope.Numbered) {ty : Ty} {o : ArmText} {a : Arm}
    (h : o.bind scope ty = .ok a) : scope.Binds a.value ∧ a.source < scope.labels.length := by
  simp only [ArmText.bind, bind_eq_ok, pure_eq_ok] at h
  obtain ⟨v, hv, b, hb, rfl⟩ := h
  exact ⟨OperandText.bind_binds hs hv, bindLabel_lt hb⟩

/-- What an instruction reads as data, and the blocks it names, come from the scope. -/
theorem Statement.bind_binds (hs : scope.Numbered) {t : Statement} {i : Instruction}
    (h : t.bind scope = .ok i) :
    (∀ v ∈ i.operands, scope.Binds v) ∧ ∀ b ∈ i.blockRefs, b < scope.labels.length := by
  cases t <;> simp only [Statement.bind, bind_eq_ok, pure_eq_ok] at h
  case binary op lhs rhs =>
    obtain ⟨l, hl, r, hr, rfl⟩ := h
    simpa [Instruction.operands, Instruction.blockRefs] using
      ⟨TypedText.bind_binds hs hl, OperandText.bind_binds hs hr⟩
  case compare test lhs rhs =>
    obtain ⟨l, hl, r, hr, rfl⟩ := h
    simpa [Instruction.operands, Instruction.blockRefs] using
      ⟨TypedText.bind_binds hs hl, OperandText.bind_binds hs hr⟩
  case load ty address =>
    obtain ⟨_, _, a, ha, rfl⟩ := h
    simpa [Instruction.operands, Instruction.blockRefs] using TypedText.bind_binds hs ha
  case store value address =>
    obtain ⟨v, hv, a, ha, rfl⟩ := h
    simpa [Instruction.operands, Instruction.blockRefs] using
      ⟨TypedText.bind_binds hs hv, TypedText.bind_binds hs ha⟩
  case elementPtr source base indices =>
    obtain ⟨_, _, b, hb, is, his, rfl⟩ := h
    simpa [Instruction.operands, Instruction.blockRefs] using
      ⟨TypedText.bind_binds hs hb, mapM_bind_binds hs his⟩
  case cast op value target =>
    obtain ⟨v, hv, _, _, rfl⟩ := h
    simpa [Instruction.operands, Instruction.blockRefs] using TypedText.bind_binds hs hv
  case phi ty arms =>
    obtain ⟨ty', _, as, has, rfl⟩ := h
    have harm : ∀ a ∈ as, scope.Binds a.value ∧ a.source < scope.labels.length := by
      intro a ha
      obtain ⟨o, _, ho⟩ := mem_of_mapM_eq_ok has ha
      exact ArmText.bind_binds hs ho
    simpa [Instruction.operands, Instruction.blockRefs] using
      ⟨fun a ha => (harm a ha).1, fun a ha => (harm a ha).2⟩
  case select cond onTrue onFalse =>
    obtain ⟨c, hc, t, ht, e, he, rfl⟩ := h
    simpa [Instruction.operands, Instruction.blockRefs] using
      ⟨TypedText.bind_binds hs hc, TypedText.bind_binds hs ht, TypedText.bind_binds hs he⟩
  case call retTy callee args =>
    obtain ⟨_, _, _, _, as, has, rfl⟩ := h
    simpa [Instruction.operands, Instruction.blockRefs] using mapM_bind_binds hs has
  case alloca ty count =>
    obtain ⟨_, _, n, hn, rfl⟩ := h
    simpa [Instruction.operands, Instruction.blockRefs] using bindOptional_binds hs hn
  case jump target =>
    obtain ⟨b, hb, rfl⟩ := h
    simpa [Instruction.operands, Instruction.blockRefs] using bindLabel_lt hb
  case branch cond onTrue onFalse =>
    obtain ⟨c, hc, t, ht, e, he, rfl⟩ := h
    simpa [Instruction.operands, Instruction.blockRefs] using
      ⟨TypedText.bind_binds hs hc, bindLabel_lt ht, bindLabel_lt he⟩
  case ret value =>
    obtain ⟨v, hv, rfl⟩ := h
    simpa [Instruction.operands, Instruction.blockRefs] using bindOptional_binds hs hv
  case unreachable =>
    cases h
    simp [Instruction.operands, Instruction.blockRefs]

end Operands

/-! ## Functions

`Filling scope b f` is the state while the lines of block `b` are appended: blocks up to `b` hold
the instructions so far in program order, and the blocks after it are still empty. -/

/-- A function whose blocks are filled up to block `b`. -/
structure Filling (scope : Scope) (b : Nat) (f : Function) : Prop where
  /-- There is a block for each label. -/
  blocks : f.blocks.length = scope.labels.length
  /-- There is a parameter for each name. -/
  params : f.params.length = scope.params.length
  /-- The numbers of the instructions follow the program order. -/
  live_eq : f.live = List.range f.slots.length
  /-- The later blocks are empty. -/
  later : ∀ c, b < c → f.body c = []
  /-- A listed number leads to an instruction of that block. -/
  slot : ∀ {c id}, id ∈ f.body c → ∃ s, f.slots[id]? = some s ∧ s.block = c
  /-- Operands and blocks come from the scope. -/
  bound : ∀ {id i}, f.instruction? id = some i →
    (∀ v ∈ i.operands, scope.Binds v) ∧ ∀ c ∈ i.blockRefs, c < scope.labels.length

namespace Filling

variable {scope : Scope} {b : Nat} {f : Function}

/-- A filled block lets the next one start. -/
theorem next (h : Filling scope b f) : Filling scope (b + 1) f :=
  { h with later := fun c hc => h.later c (Nat.lt_of_succ_lt hc) }

/-- In program order, an instruction that is appended to block `b` comes last. -/
theorem live_push (h : Filling scope b f) (hb : b < f.blocks.length) (name : Option String)
    (i : Instruction) : (f.push b name i).live = f.live ++ [f.nextId] := by
  obtain ⟨rest, hrest⟩ := Nat.exists_eq_add_of_lt hb
  have hsplit : f.blockIds = List.range b ++ b :: List.range' (b + 1) rest := by
    rw [Function.blockIds, hrest, List.range_eq_range', List.range_eq_range', ← List.range'_succ,
      Nat.add_assoc, ← List.range'_append_1, Nat.zero_add]
  have hids : (f.push b name i).blockIds = f.blockIds := by
    simp [Function.blockIds, Function.push]
  have hbefore : (List.range b).flatMap (f.push b name i).body = (List.range b).flatMap f.body := by
    refine List.flatMap_congr fun c hc => ?_
    rw [Function.body_push hb, if_neg (Nat.ne_of_lt (List.mem_range.mp hc))]
  have hafter : ∀ g : Function, (∀ c, b < c → g.body c = []) →
      (List.range' (b + 1) rest).flatMap g.body = [] := by
    intro g hg
    refine List.flatMap_eq_nil_iff.mpr fun c hc => hg c ?_
    exact (List.mem_range'_1.mp hc).1
  rw [Function.live_eq_flatMap_body, Function.live_eq_flatMap_body, hids, hsplit,
    List.flatMap_append, List.flatMap_append, List.flatMap_cons, List.flatMap_cons, hbefore,
    hafter f h.later, hafter (f.push b name i), Function.body_push hb, if_pos rfl]
  · simp
  · intro c hc
    rw [Function.body_push hb, if_neg (Nat.ne_of_gt hc), h.later c hc]

/-- Appending a bound instruction to block `b` goes on filling it. -/
theorem push (h : Filling scope b f) (hb : b < f.blocks.length) (name : Option String)
    {i : Instruction}
    (hi : (∀ v ∈ i.operands, scope.Binds v) ∧ ∀ c ∈ i.blockRefs, c < scope.labels.length) :
    Filling scope b (f.push b name i) := by
  refine ⟨by simpa [Function.push] using h.blocks, h.params, ?_, ?_, ?_, ?_⟩
  · rw [h.live_push hb, h.live_eq, Function.push, Function.slots_insert, List.length_append,
      List.length_singleton, List.range_succ]
    rfl
  · intro c hc
    rw [Function.body_push hb, if_neg (Nat.ne_of_gt hc), h.later c hc]
  · intro c id hid
    -- what was appended earlier keeps its slot
    have hold : ∀ {d}, id ∈ f.body d →
        ∃ s, (f.push b name i).slots[id]? = some s ∧ s.block = d := by
      intro d hd
      obtain ⟨s, hs, hsd⟩ := h.slot hd
      refine ⟨s, ?_, hsd⟩
      rw [Function.push, Function.slots_insert,
        List.getElem?_append_left (List.getElem?_eq_some_iff.mp hs).1, hs]
    rw [Function.body_push hb] at hid
    split at hid
    · rename_i hcb
      subst hcb
      rcases List.mem_append.mp hid with hid | hid
      · exact hold hid
      · rw [List.mem_singleton.mp hid]
        exact ⟨{ name, instruction := i, block := c },
          by simp [Function.push, Function.nextId], rfl⟩
    · exact hold hid
  · intro id j hj
    rw [Function.push, Function.instruction?_insert] at hj
    split at hj
    · cases hj
      exact hi
    · exact h.bound hj

end Filling

/-- A line that is pushed keeps a function filled up to the same block, with one slot more. -/
theorem pushLine_filling {scope : Scope} (hs : scope.Numbered) {b : Nat} {f g : Function}
    {line : Line} (hf : Filling scope b f) (hb : b < scope.labels.length)
    (h : pushLine scope b f line = .ok g) :
    Filling scope b g ∧ g.slots.length = f.slots.length + 1 := by
  simp only [pushLine, bind_eq_ok, pure_eq_ok] at h
  obtain ⟨i, hi, rfl⟩ := h
  exact ⟨hf.push (by rw [hf.blocks]; exact hb) line.name (Statement.bind_binds hs hi),
    by simp [Function.push]⟩

/-- A block that is pushed lets the next one start, with a slot more for each line. -/
theorem pushBlock_filling {scope : Scope} (hs : scope.Numbered) {b : Nat} {f g : Function}
    {block : BlockText} (hf : Filling scope b f) (hb : b < scope.labels.length)
    (h : pushBlock scope f (block, b) = .ok g) :
    Filling scope (b + 1) g ∧ g.slots.length = f.slots.length + block.lines.length := by
  have hlines := foldlM_eq_ok (fun rest (g : Function) => Filling scope b g ∧
    g.slots.length + rest.length = f.slots.length + block.lines.length) ?_ ⟨hf, rfl⟩ h
  · exact ⟨hlines.1.next, by simpa using hlines.2⟩
  · intro line rest u v hu hv
    obtain ⟨hfill, hcount⟩ := pushLine_filling hs hu.1 hb hv
    refine ⟨hfill, ?_⟩
    rw [hcount, Nat.add_right_comm]
    exact hu.2

/-- The number of instructions that blocks have as written. -/
def lineCount (blocks : List BlockText) : Nat := (blocks.flatMap (·.lines)).length

/-- All blocks that enter a scope take a number for each line and a label for each block. -/
theorem foldlM_addBlock {blocks : List BlockText} {s t : Scope} (hs : s.Numbered)
    (h : blocks.foldlM Scope.addBlock s = .ok t) :
    t.Numbered ∧ t.nextInst = s.nextInst + lineCount blocks ∧
      t.labels.length = s.labels.length + blocks.length ∧ t.params = s.params := by
  refine foldlM_eq_ok (fun rest (u : Scope) => u.Numbered ∧
    u.nextInst + lineCount rest = s.nextInst + lineCount blocks ∧
    u.labels.length + rest.length = s.labels.length + blocks.length ∧ u.params = s.params)
    ?_ ⟨hs, rfl, rfl, rfl⟩ h
  intro block rest u v hu hv
  obtain ⟨hnum, hnext, hlabels, hparams⟩ := Scope.addBlock_eq_ok hv hu.1
  refine ⟨hnum, ?_, ?_, hparams.trans hu.2.2.2⟩
  · rw [hnext, Nat.add_assoc, ← hu.2.1]
    simp [lineCount]
  · rw [hlabels, ← hu.2.2.1, List.length_cons]
    omega

/-- Blocks that are added are empty and come after those there are. -/
theorem foldl_addBlock_eq (names : List String) (g : Function) :
    names.foldl Function.addBlock g = { g with
      blocks := g.blocks ++ names.map fun name => ⟨name, []⟩ } := by
  induction names generalizing g with
  | nil => simp
  | cons name names ih => simp [ih, Function.addBlock]

/-- Added blocks leave slots, parameters and bodies as they are. -/
theorem foldl_addBlock (names : List String) (f : Function) :
    (names.foldl Function.addBlock f).slots = f.slots ∧
      (names.foldl Function.addBlock f).params = f.params ∧
      (∀ c, (names.foldl Function.addBlock f).body c = f.body c) ∧
      (names.foldl Function.addBlock f).blocks.length = f.blocks.length + names.length := by
  induction names generalizing f with
  | nil => simp
  | cons name names ih =>
      obtain ⟨hslots, hparams, hbody, hlength⟩ := ih (f.addBlock name)
      refine ⟨by simpa using hslots, by simpa using hparams, fun c => by simpa using hbody c, ?_⟩
      rw [List.foldl_cons, hlength, Function.length_blocks_addBlock, List.length_cons]
      omega

/-- A function is filled when all blocks are pushed. -/
theorem foldlM_pushBlock {scope : Scope} (hs : scope.Numbered) {blocks : List BlockText}
    {f g : Function} (hf : Filling scope 0 f) (hblocks : blocks.length = scope.labels.length)
    (h : blocks.zipIdx.foldlM (pushBlock scope) f = .ok g) :
    (∃ b, Filling scope b g) ∧ g.slots.length = f.slots.length + lineCount blocks := by
  have hend := foldlM_eq_ok (fun rest (g : Function) => ∃ b later, rest = later.zipIdx b ∧
    b + later.length = scope.labels.length ∧ Filling scope b g ∧
    g.slots.length + lineCount later = f.slots.length + lineCount blocks) ?_
    ⟨0, blocks, rfl, by simpa using hblocks, hf, rfl⟩ h
  · obtain ⟨b, later, hlater, _, hfill, hcount⟩ := hend
    cases later with
    | nil => exact ⟨⟨b, hfill⟩, hcount⟩
    | cons block later => simp at hlater
  · intro hex rest u v hex' hv
    obtain ⟨block, c⟩ := hex
    obtain ⟨b, later, hlater, hb, hfill, hcount⟩ := hex'
    cases later with
    | nil => simp at hlater
    | cons first later =>
        simp only [List.zipIdx_cons, List.cons.injEq, Prod.mk.injEq] at hlater
        obtain ⟨⟨rfl, rfl⟩, rfl⟩ := hlater
        rw [List.length_cons] at hb
        obtain ⟨hnext, hslots⟩ := pushBlock_filling hs hfill (by omega) hv
        refine ⟨c + 1, later, rfl, by omega, hnext, ?_⟩
        rw [hslots, ← hcount]
        simp [lineCount, Nat.add_assoc]

/-- Binding fills every block, and the scope numbers exactly the instructions and the blocks. -/
theorem FunctionText.bind_filling {t : FunctionText} {f : Function} (h : t.bind = .ok f) :
    ∃ scope b, Filling scope b f ∧ scope.nextInst = f.slots.length ∧
      scope.labels.length = t.blocks.length := by
  simp only [FunctionText.bind, bind_eq_ok] at h
  obtain ⟨ret, _, ⟨params, next⟩, _, scope, hscope, h⟩ := h
  obtain ⟨hnum, hnext, hlabels, hparams⟩ := foldlM_addBlock (fun r hr => by cases hr) hscope
  obtain ⟨hslots, hps, hbody, hlength⟩ := foldl_addBlock scope.labels
    { name := t.name, ret, params }
  have hempty : ∀ c, (scope.labels.foldl Function.addBlock { name := t.name, ret, params }).body c
      = [] := fun c => (hbody c).trans rfl
  have hstart : Filling scope 0
      (scope.labels.foldl Function.addBlock { name := t.name, ret, params }) := by
    refine ⟨by simpa using hlength, by rw [hps, hparams, List.length_map], ?_, fun c _ => hempty c,
      fun {c id} hid => by simp [hempty c] at hid,
      fun {id i} hi => by simp [Function.instruction?, hslots] at hi⟩
    rw [Function.live_eq_flatMap_body, hslots]
    exact List.flatMap_eq_nil_iff.mpr fun c _ => hempty c
  have hblocks : scope.labels.length = t.blocks.length := by simpa using hlabels
  obtain ⟨⟨b, hfill⟩, hcount⟩ := foldlM_pushBlock hnum hstart hblocks.symm h
  refine ⟨scope, b, hfill, ?_, hblocks⟩
  rw [hnext, hcount, hslots]
  rfl

section Bound

variable {t : FunctionText} {f : Function}

/-- Instructions are numbered in program order, and every one stands in a block. -/
theorem FunctionText.bind_live (h : t.bind = .ok f) : f.live = List.range f.slots.length := by
  obtain ⟨_, _, hfill, _⟩ := bind_filling h
  exact hfill.live_eq

/-- There is a block for each block as written. -/
theorem FunctionText.bind_blocks (h : t.bind = .ok f) : f.blocks.length = t.blocks.length := by
  obtain ⟨_, _, hfill, _, hlabels⟩ := bind_filling h
  exact hfill.blocks.trans hlabels

/-- A bound function has its instructions in place. -/
theorem FunctionText.bind_placed (h : t.bind = .ok f) : f.Placed := by
  obtain ⟨_, _, hfill, _⟩ := bind_filling h
  refine ⟨fun b => ?_, hfill.slot⟩
  by_cases hb : b < f.blocks.length
  · have hnodup : (f.blockIds.flatMap f.body).Nodup := by
      rw [← Function.live_eq_flatMap_body, hfill.live_eq]
      exact List.nodup_range
    exact (List.nodup_flatMap.mp hnodup).1 b (Function.mem_blockIds.mpr hb)
  · simp [Function.body_eq_nil_of_le (Nat.le_of_not_lt hb)]

/-- The operands of a bound function exist. -/
theorem FunctionText.bind_resolved (h : t.bind = .ok f) : f.Resolved := by
  obtain ⟨_, _, hfill, hnext, _⟩ := bind_filling h
  refine ⟨fun {id i x} hi hx => ?_, fun {id i k} hi hk => ?_, fun {id i name} hi hname => ?_,
    fun {id i b} hi hb => ?_⟩
  · rw [← hnext]
    exact (hfill.bound hi).1 _ hx
  · rw [hfill.params]
    exact (hfill.bound hi).1 _ hk
  · exact (hfill.bound hi).1 _ hname
  · rw [hfill.blocks]
    exact (hfill.bound hi).2 b hb

end Bound

/-! ## Functions and their trees -/

/-- A function comes from a tree: what it is called is what the tree says, or a number, and each
instruction with its name is what one of the lines stands for. -/
structure Sourced (t : FunctionText) (scope : Scope) (f : Function) : Prop where
  /-- The name is the one that is written. -/
  name : f.name = t.name
  /-- The parameters are those that are written. -/
  params : ∃ next, bindParams 0 t.params = .ok (f.params, next)
  /-- The labels are those of the scope. -/
  labels : f.labels = scope.labels
  /-- The scope is that of the blocks that are written. -/
  added : ∃ next, t.blocks.foldlM Scope.addBlock
    { function := t.name, params := f.params.map (·.name), nextNumber := next } = .ok scope
  /-- A slot is what a line stands for. -/
  slot : ∀ s ∈ f.slots, ∃ line ∈ t.blocks.flatMap (·.lines),
    s.name = line.name ∧ line.statement.bind scope = .ok s.instruction

/-- A pushed line keeps a function sourced. -/
theorem pushLine_sourced {t : FunctionText} {scope : Scope} {b : BlockId} {line : Line}
    {f g : Function} (hf : Sourced t scope f) (hline : line ∈ t.blocks.flatMap (·.lines))
    (h : pushLine scope b f line = .ok g) : Sourced t scope g := by
  simp only [pushLine, bind_eq_ok, pure_eq_ok] at h
  obtain ⟨i, hi, rfl⟩ := h
  refine ⟨hf.name, hf.params, ?_, hf.added, fun s hs => ?_⟩
  · rw [Function.push, Function.labels_insert]
    exact hf.labels
  · rw [Function.push, Function.slots_insert] at hs
    rcases List.mem_append.mp hs with hs | hs
    · exact hf.slot s hs
    · rw [List.mem_singleton.mp hs]
      exact ⟨line, hline, rfl, hi⟩

/-- The slot is what the line stands for. -/
def Line.Makes (scope : Scope) (line : Line) (s : Slot) : Prop :=
  s.name = line.name ∧ line.statement.bind scope = .ok s.instruction

/-- A function holds what lines stand for, and more lines of its tree are still to come. -/
def Awaits (t : FunctionText) (scope : Scope) (later : List Line) (f : Function) : Prop :=
  Sourced t scope f ∧ ∃ done, t.blocks.flatMap (·.lines) = done ++ later ∧
    List.Forall₂ (Line.Makes scope) done f.slots

/-- A pushed line is no longer awaited. -/
theorem pushLine_awaits {t : FunctionText} {scope : Scope} {b : BlockId} {line : Line}
    {later : List Line} {f g : Function} (hf : Awaits t scope (line :: later) f)
    (h : pushLine scope b f line = .ok g) : Awaits t scope later g := by
  obtain ⟨hsourced, done, hlines, hall⟩ := hf
  refine ⟨pushLine_sourced hsourced (by simp [hlines]) h, done ++ [line], by simp [hlines], ?_⟩
  simp only [pushLine, bind_eq_ok, pure_eq_ok] at h
  obtain ⟨i, hi, rfl⟩ := h
  rw [Function.push, Function.slots_insert]
  exact List.rel_append hall (.cons ⟨rfl, hi⟩ .nil)

/-- Binding makes a slot of each line, in the order of the lines. -/
theorem FunctionText.bind_lines {t : FunctionText} {f : Function} (h : t.bind = .ok f) :
    ∃ scope, Sourced t scope f ∧
      List.Forall₂ (Line.Makes scope) (t.blocks.flatMap (·.lines)) f.slots := by
  simp only [FunctionText.bind, bind_eq_ok] at h
  obtain ⟨ret, _, ⟨params, next⟩, hparams, scope, hscope, h⟩ := h
  have hend := foldlM_eq_ok (fun rest (g : Function) =>
    Awaits t scope (rest.flatMap (·.1.lines)) g) ?_ ?_ h
  · obtain ⟨hsourced, done, hlines, hall⟩ := hend
    refine ⟨scope, hsourced, ?_⟩
    rwa [hlines, List.flatMap_nil, List.append_nil]
  · intro numbered rest g g' hg hg'
    exact foldlM_eq_ok (fun lines (g : Function) =>
      Awaits t scope (lines ++ rest.flatMap (·.1.lines)) g)
      (fun _ _ _ _ hu hv => pushLine_awaits hu hv) hg hg'
  · obtain ⟨hslots, hps, _⟩ := foldl_addBlock scope.labels { name := t.name, ret, params }
    refine ⟨⟨by rw [foldl_addBlock_eq], ⟨next, by rw [hps]; exact hparams⟩, ?_,
      ⟨next, by rw [hps]; exact hscope⟩, fun s hs => ?_⟩, [], ?_, by rw [hslots]; exact .nil⟩
    · rw [foldl_addBlock_eq]
      simp [Function.labels, Function.comp_def]
    · rw [hslots] at hs
      cases hs
    · rw [List.nil_append, ← List.flatMap_map (fun numbered : BlockText × Nat => numbered.1)
        (fun block => block.lines), List.zipIdx_map_fst]

/-- A bound function is sourced in the tree it is bound from. -/
theorem FunctionText.bind_sourced {t : FunctionText} {f : Function} (h : t.bind = .ok f) :
    ∃ scope, Sourced t scope f := by
  obtain ⟨scope, hsourced, _⟩ := bind_lines h
  exact ⟨scope, hsourced⟩

/-- A phi with arms stands for a phi with arms. -/
theorem Statement.bind_phi {scope : Scope} {t : Statement} {ty : Ty} {arms : List Arm}
    (h : t.bind scope = .ok (.phi ty arms)) (ht : t.Armed) : arms ≠ [] := by
  cases t with
  | phi ty' texts =>
      simp only [Statement.bind, bind_eq_ok, pure_eq_ok] at h
      obtain ⟨_, _, as, has, heq⟩ := h
      cases heq
      cases texts with
      | nil => exact absurd rfl (ht ty')
      | cons text texts =>
          simp only [List.mapM_cons, bind_eq_ok, pure_eq_ok] at has
          obtain ⟨a, _, rest, _, rfl⟩ := has
          exact List.cons_ne_nil a rest
  | _ =>
      simp only [Statement.bind, bind_eq_ok, pure_eq_ok] at h
      simp at h

end Surface

/-! ## Modules -/

/-- What the reader of a text promises of each function, before anything is checked. -/
structure Function.Bound (f : Function) : Prop where
  /-- Instructions are numbered in program order. -/
  live_eq : f.live = List.range f.slots.length
  /-- The blocks and the table of instructions agree. -/
  placed : f.Placed
  /-- Every reference leads somewhere. -/
  resolved : f.Resolved
  /-- A phi has an arm. -/
  armed : ∀ {id ty arms}, f.instruction? id = some (.phi ty arms) → arms ≠ []

/-- A function of a module that was read is what one of the trees of its text stands for. -/
theorem Module.read_tree {text : String} {m : Module} (h : read text = .ok m) {f : Function}
    (hf : f ∈ m.functions) :
    ∃ trees t, Surface.functions? text = some trees ∧ t ∈ trees ∧ t.bind = .ok f := by
  unfold read at h
  split at h
  · cases h
  · rename_i trees htrees
    split at h
    · cases h
    · rename_i functions hfunctions
      cases h
      obtain ⟨t, hmem, ht⟩ := mem_of_mapM_eq_ok hfunctions hf
      exact ⟨trees, t, htrees, hmem, ht⟩

/-- Every function that is read is bound. -/
theorem Module.read_bound {text : String} {m : Module} (h : read text = .ok m) {f : Function}
    (hf : f ∈ m.functions) : f.Bound := by
  obtain ⟨trees, t, htrees, hmem, ht⟩ := read_tree h hf
  refine ⟨t.bind_live ht, t.bind_placed ht, t.bind_resolved ht, fun hi => ?_⟩
  obtain ⟨scope, hsourced⟩ := t.bind_sourced ht
  rw [Function.instruction?, Option.map_eq_some_iff] at hi
  obtain ⟨s, hs, hphi⟩ := hi
  obtain ⟨line, hline, _, hbind⟩ := hsourced.slot s (List.mem_of_getElem? hs)
  rw [hphi] at hbind
  obtain ⟨b, hb, hline⟩ := List.mem_flatMap.mp hline
  exact Surface.Statement.bind_phi hbind
    (Surface.armed_of_functions? htrees t hmem b hb line hline)

/-- A function that was read has a block. -/
theorem Module.read_blocks_pos {text : String} {m : Module} (h : read text = .ok m) {f : Function}
    (hf : f ∈ m.functions) : 0 < f.blocks.length := by
  obtain ⟨trees, t, htrees, hmem, ht⟩ := read_tree h hf
  rw [t.bind_blocks ht]
  exact List.length_pos_iff.mpr (Surface.blocks_of_functions? htrees t hmem)

/-- Control goes from a block to a block. -/
theorem Function.Bound.target {f : Function} (h : f.Bound) {b c : BlockId}
    (hc : c ∈ f.successors b) : c < f.blocks.length := by
  have hterm := hc
  cases ht : f.terminator? b with
  | none => simp [successors, ht] at hterm
  | some t =>
      obtain ⟨i, hi⟩ := h.placed.instruction (terminator_mem_body ht)
      rw [successors_eq_of_terminator ht hi] at hterm
      refine h.resolved.block hi ?_
      cases i <;> simp_all [Instruction.successors, Instruction.blockRefs]

/-- What the reader of a checked module promises of each function. -/
structure Function.Checked (f : Function) : Prop extends f.Bound where
  /-- Blocks end by leaving them, phis stand in front, and arms name predecessors. -/
  shaped : f.WellShaped
  /-- No search for a circular dependency finds one. -/
  acyclic : f.cycles = []

/-- A checked module is one that was read and has no violations. -/
theorem Module.readChecked_eq_ok {text : String} {m : Module} :
    readChecked text = .ok m ↔ read text = .ok m ∧ m.violations = [] := by
  simp only [readChecked, bind_eq_ok]
  constructor
  · rintro ⟨n, hread, h⟩
    split at h
    · cases h
      exact ⟨hread, ‹_›⟩
    · cases h
  · rintro ⟨hread, hnone⟩
    exact ⟨m, hread, if_pos hnone⟩

/-- Every function that is read and checked is checked. -/
theorem Module.readChecked_checked {text : String} {m : Module} (h : readChecked text = .ok m)
    {f : Function} (hf : f ∈ m.functions) : f.Checked := by
  obtain ⟨hread, hnone⟩ := readChecked_eq_ok.mp h
  have hf' : f.violations = [] := List.flatMap_eq_nil_iff.mp hnone f hf
  simp only [Function.violations, List.append_eq_nil_iff, List.map_eq_nil_iff] at hf'
  exact { read_bound hread hf with
    shaped := Function.wellShaped_of_structureViolations hf'.1
    acyclic := hf'.2 }

end Dataflow
