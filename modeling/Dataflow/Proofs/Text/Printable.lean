import Dataflow.Proofs.Ssa.Edit
import Dataflow.Proofs.Text.Printing

/-!
# Functions as pieces

The tree that the written form of a function stands for (`Function.tree`). Where a function can be
written (`Function.Printable`), that tree is one the grammar reads back, and the written form
consists of its pieces (`Function.Printable.spells_text`).
-/

namespace Dataflow

namespace Function

open Lexeme Reader Surface

variable {n : List Piece} {s : List Char} (f : Function)

/-! ## Lines and blocks -/

/-- The name that is written before an instruction, if its type is not `void`. -/
def writtenName (id : InstId) (i : Instruction) : Option String :=
  if i.resultTy = .void then none else some (f.resultName id)

/-- The tree of the line of an instruction. -/
def line? (id : InstId) : Option Line :=
  (f.instruction? id).map fun i => { name := f.writtenName id i, statement := f.statement i }

/-- The tree of a block. -/
def blockTree (k : Block) : BlockText where
  label := some k.name
  lines := k.insts.filterMap f.line?

/-- The tree of a parameter. -/
def paramTree (p : Param) : ParamText := { ty := p.ty.tree, name := some p.name }

/-- The tree of a function. -/
def tree : FunctionText where
  ret := f.ret.tree
  name := f.name
  params := f.params.map paramTree
  blocks := f.blocks.map f.blockTree

/-- The names that are written before the instructions, in program order. -/
def resultNames : List String :=
  (List.range f.slots.length).filterMap fun id => (f.instruction? id).bind (f.writtenName id)

/-- What makes the written form of a function stand for it. -/
structure Printable : Prop where
  /-- There is a block. -/
  nonempty : f.blocks ≠ []
  /-- Instructions are numbered in program order, and none is detached. -/
  live_eq : f.live = List.range f.slots.length
  /-- The blocks and the table of instructions agree. -/
  placed : f.Placed
  /-- No block is empty. -/
  filled : ∀ k ∈ f.blocks, k.insts ≠ []
  /-- Control leaves a block at its end. -/
  leaves : ∀ k ∈ f.blocks, ∀ id ∈ k.insts.getLast?, ∀ i ∈ f.instruction? id, i.isTerminator = true
  /-- The name of the function can be written. -/
  name : IsName f.name
  /-- The names of the parameters can be written. -/
  paramNames : ∀ p ∈ f.params, IsName p.name
  /-- The labels can be written. -/
  labels : f.Labelled
  /-- The names of the results can be written. -/
  resultNames : ∀ name ∈ f.resultNames, IsName name
  /-- Results have names of their own. -/
  distinct : f.resultNames.Nodup
  /-- No result has the name of a parameter. -/
  fresh : ∀ name ∈ f.resultNames, name ∉ f.params.map (·.name)
  /-- Blocks have labels of their own. -/
  distinctLabels : f.labels.Nodup
  /-- No label but the first is the one word that is an instruction. -/
  reserved : ∀ k ∈ f.blocks.tail, k.name ≠ "unreachable"
  /-- Every instruction can be written. -/
  writes : ∀ {id i}, f.instruction? id = some i → f.Writes i

variable {f}

/-- A printable function writes only types that name what they stand for. -/
theorem clean_types (i : Instruction) : ∀ ty ∈ (f.statement i).types, ty.Clean := by
  cases i with
  | alloca u count =>
      cases count <;> simp [statement, Statement.types, typedTree, Ty.clean_tree]
  | ret value => cases value <;> simp [statement, Statement.types, typedTree, Ty.clean_tree]
  | _ => simp [statement, Statement.types, typedTree, Ty.clean_tree]

/-- The statement of an instruction with a written form has clean types. -/
theorem clean_statement {i : Instruction} (hi : f.Writes i) : (f.statement i).Clean := by
  refine ⟨clean_types i, fun ty heq => ?_, fun v heq => ?_⟩
  · cases i with
    | phi u arms =>
        simp only [statement, Statement.phi.injEq, List.map_eq_nil_iff] at heq
        exact hi.armed u (by rw [heq.2])
    | _ => cases heq
  · cases i with
    | ret value =>
        simp only [statement, Statement.ret.injEq, Option.map_eq_some_iff] at heq
        obtain ⟨t, ht, rfl⟩ := heq
        exact (Ty.startsVoid_tree t.ty).trans (hi.returned t (by rw [ht]))
    | _ => cases heq

/-- Only a call is written as a call, and control goes on behind it. -/
theorem isCall_statement {i : Instruction} (hi : i.isTerminator = true) :
    (f.statement i).isCall = false := by
  cases i with
  | call retTy callee args => cases hi
  | _ => rfl

/-- The text of an instruction consists of the pieces of its line. -/
theorem spells_line {id : InstId} {i : Instruction} (hlabels : f.Labelled) (hi : f.Writes i)
    (hname : ∀ name ∈ f.writtenName id i, IsName name) (hid : f.instruction? id = some i)
    (hs : Breaks s) (h : Spells n s) :
    Spells ((⟨f.writtenName id i, f.statement i⟩ : Line).pieces n)
      ((f.instructionText id).toList ++ s) := by
  have hbody := spells_body hlabels hi hs h
  simp only [instructionText, hid]
  unfold writtenName at hname ⊢
  by_cases hvoid : i.resultTy = .void
  · rw [if_pos hvoid, if_pos hvoid]
    exact hbody
  · simp only [if_neg hvoid] at hname ⊢
    rw [operandText_result]
    simp only [String.toList_append, List.append_assoc, toList_localText]
    have hequals : Spells (.mark '=' :: (f.statement i).pieces n)
        (" = ".toList ++ ((f.bodyText i).toList ++ s)) :=
      .blank rfl (.mark (by decide) (.blank rfl hbody))
    exact .piece (x := .value (f.resultName id)) (hname _ rfl) (breaks_toList rfl (by decide))
      hequals

/-- The text of a parameter consists of its pieces. -/
theorem spells_param {p : Param} (hp : IsName p.name) (hs : Breaks s) (hn : Spells n s) :
    Spells ((paramTree p).pieces n) ((paramText p).toList ++ s) := by
  simp only [paramText, String.toList_append, List.append_assoc, toList_localText]
  exact Ty.spells_text _ (.space (.piece (x := .value p.name) hp hs hn))
    (breaks_toList rfl (by decide))

namespace Printable

variable (h : f.Printable)

include h

/-- A listed instruction can be written, together with its name. -/
theorem listed {k : Block} (hk : k ∈ f.blocks) {x : InstId} (hx : x ∈ k.insts) :
    ∃ i, f.instruction? x = some i ∧ f.line? x = some ⟨f.writtenName x i, f.statement i⟩ ∧
      f.Writes i ∧ ∀ name ∈ f.writtenName x i, IsName name := by
  obtain ⟨b, hb⟩ := List.mem_iff_getElem?.mp hk
  have hbody : x ∈ f.body b := by rwa [body_eq_of_getElem? hb]
  obtain ⟨i, hi⟩ := h.placed.instruction hbody
  refine ⟨i, hi, by rw [line?, hi]; rfl, h.writes hi, fun name hname => ?_⟩
  have hlive : x ∈ f.live := mem_live_of_mem_body hbody
  rw [h.live_eq] at hlive
  refine h.resultNames name (List.mem_filterMap.mpr ⟨x, hlive, ?_⟩)
  rw [hi]
  exact hname

/-- The lines of a block. -/
theorem spells_lines {k : Block} (hk : k ∈ f.blocks) (hn : Spells n s) :
    Spells ((f.blockTree k).lines.foldr Line.pieces n)
      ((String.join (k.insts.map fun id => "  " ++ f.instructionText id ++ "\n")).toList ++ s) := by
  have hall : ∀ ids : List InstId, (∀ id ∈ ids, id ∈ k.insts) →
      Spells ((ids.filterMap f.line?).foldr Line.pieces n)
        ((String.join (ids.map fun id => "  " ++ f.instructionText id ++ "\n")).toList ++ s) := by
    intro ids hids
    induction ids with
    | nil => exact hn
    | cons id ids ih =>
        obtain ⟨i, hi, hline, hwrites, hname⟩ := h.listed hk (hids id List.mem_cons_self)
        have hrest := ih fun x hx => hids x (List.mem_cons_of_mem id hx)
        have hfirst := spells_line h.labels hwrites hname hi
          (breaks_toList (v := "\n") rfl (by decide)) (.blank rfl hrest)
        rw [List.filterMap_cons_some hline, List.foldr_cons]
        simp only [List.map_cons, String.toList_join, List.flatMap_cons, String.toList_append,
          List.append_assoc] at hfirst ⊢
        exact .blank rfl (.blank rfl hfirst)
  exact hall k.insts fun _ hid => hid

/-- The text of a block consists of the pieces of its tree. -/
theorem spells_block {k : Block} (hk : k ∈ f.blocks) (hn : Spells n s) :
    Spells ((f.blockTree k).pieces n) ((f.blockText k).toList ++ s) := by
  have hlines := h.spells_lines hk hn
  simp only [blockText, String.toList_append, List.append_assoc] at hlines ⊢
  have hlabel := Spells.piece (x := .label k.name) (h.labels k hk) trivial
    (.blank (c := '\n') rfl hlines)
  rw [Piece.spelling, List.append_assoc] at hlabel
  exact hlabel

/-- The tree of a block has clean types. -/
theorem clean_block {k : Block} (hk : k ∈ f.blocks) : (f.blockTree k).Clean := by
  obtain ⟨before, last, hinsts⟩ : ∃ before last, k.insts = before ++ [last] :=
    ⟨_, _, (List.dropLast_append_getLast (h.filled k hk)).symm⟩
  obtain ⟨i, hi, hline, _, _⟩ := h.listed hk (x := last) (by simp [hinsts])
  have hlines : (f.blockTree k).lines =
      before.filterMap f.line? ++ [⟨f.writtenName last i, f.statement i⟩] := by
    rw [blockTree, hinsts, List.filterMap_append, List.filterMap_cons_some hline,
      List.filterMap_nil]
  refine ⟨Option.some_ne_none k.name, by simp [hlines], fun l hl => ?_, fun l hl => ?_⟩
  · obtain ⟨id, hid, hidl⟩ := List.mem_filterMap.mp hl
    obtain ⟨j, _, hj, hwrites, _⟩ := h.listed hk hid
    rw [hj] at hidl
    cases hidl
    exact clean_statement hwrites
  · rw [hlines, List.getLast?_concat] at hl
    cases hl
    exact isCall_statement (h.leaves k hk last (by simp [hinsts]) i hi)

/-- The tree of a printable function has clean types. -/
theorem clean_tree : f.tree.Clean := by
  refine ⟨f.ret.clean_tree, ?_, ?_, ?_, ?_, ?_⟩
  · intro p hp
    obtain ⟨q, _, rfl⟩ := List.mem_map.mp hp
    exact q.ty.clean_tree
  · intro p hp
    obtain ⟨q, _, rfl⟩ := List.mem_map.mp hp
    exact Option.some_ne_none q.name
  · simpa [tree] using h.nonempty
  · intro b hb
    obtain ⟨k, hk, rfl⟩ := List.mem_map.mp hb
    exact h.clean_block hk
  · intro b hb
    rw [tree, ← List.map_tail] at hb
    obtain ⟨k, hk, rfl⟩ := List.mem_map.mp hb
    exact fun hname => h.reserved k hk (Option.some.inj hname)

/-- The written form of a function consists of the pieces of its tree. -/
theorem spells_text (hn : Spells n s) : Spells (f.tree.pieces n) (f.text.toList ++ s) := by
  have hclose : Spells (.mark '\x7d' :: n) ("\x7d\n".toList ++ s) :=
    .mark (by decide) (.blank rfl hn)
  have hblocks : Spells ((f.blocks.map f.blockTree).foldr BlockText.pieces (.mark '\x7d' :: n))
      (("\n".intercalate (f.blocks.map f.blockText)).toList ++ ("\x7d\n".toList ++ s)) := by
    rw [List.foldr_map]
    exact .newlines (fun k hk _ _ hn => h.spells_block hk hn) hclose
  have hopen := Spells.mark (c := ')') (by decide) (Spells.blank (c := ' ') rfl
    (.mark (c := '\x7b') (by decide) (.blank (c := '\n') rfl hblocks)))
  have hparams := Spells.separated (g := fun p m => (paramTree p).pieces m) (w := paramText)
    (l := f.params) (fun p hp _ _ hn hs => spells_param (h.paramNames p hp) hs hn) hopen
    (fun c hc => by cases hc; decide)
  have hname := Spells.piece (x := .global f.name) h.name (fun c hc => by cases hc; decide)
    (Spells.mark (c := '(') (by decide) hparams)
  have hret := Ty.spells_text f.ret (.space hname) (breaks_toList rfl (by decide))
  simp only [text, headText, String.toList_append, List.append_assoc, toList_globalText] at hret ⊢
  rw [FunctionText.pieces, tree, separated_map]
  exact .word_space (by decide) rfl hret

end Printable

end Function

end Dataflow
