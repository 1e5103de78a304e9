import Dataflow.Proofs.Text.BuiltModules

/-!
# Names that were resolved

A function is built in two passes over its blocks. The first gives each line a number without
looking at what the line does, the second makes the instructions and appends them. `Pair.ResolvedIn`
says that the two agree: line by line the second pass fills the slot that the first has foretold
(`Surface.Scope.Foretells`), so a name leads to a parameter or a slot that bears it and a label to a
block that has it, wherever in the function they stand. `Module.names_resolved` says so of every
text that is read.
-/

namespace Dataflow

open Surface

/-! ## Lists beside each other -/

/-- What stands beside the members of a list stands beside their places. -/
theorem forall₂_range {α β : Type} {R : α → β → Prop} {as : List α} {bs : List β}
    (h : List.Forall₂ R as bs) :
    List.Forall₂ (fun a id => ∃ b, bs[id]? = some b ∧ R a b) as (List.range bs.length) := by
  refine List.forall₂_iff_get.mpr ⟨by simpa using h.length_eq, fun k hk hk' => ?_⟩
  have hlt : k < bs.length := by simpa using hk'
  exact ⟨bs[k], by simp [hlt], h.get hk hlt⟩

/-- Two lists that stand beside each other do so part by part, if the parts have the same
lengths. -/
theorem forall₂_of_flatMap {α β γ δ : Type} {R : α → β → Prop} {g : γ → List α} {k : δ → List β}
    {cs : List γ} {ds : List δ}
    (hlength : List.Forall₂ (fun c d => (k d).length = (g c).length) cs ds)
    (h : List.Forall₂ R (cs.flatMap g) (ds.flatMap k)) :
    List.Forall₂ (fun c d => List.Forall₂ R (g c) (k d)) cs ds := by
  induction hlength with
  | nil => exact .nil
  | @cons c d cs ds hcd _ ih =>
      rw [List.flatMap_cons, List.flatMap_cons] at h
      have hfirst := List.forall₂_take_append _ _ _ h
      have hrest := List.forall₂_drop_append _ _ _ h
      rw [hcd, List.take_left] at hfirst
      rw [hcd, List.drop_left] at hrest
      exact .cons hfirst (ih hrest)

namespace Surface

/-! ## The first pass -/

/-- The names before lines, each with the number of its line. -/
def numbered (lines : List Line) : List (String × InstId) :=
  lines.zipIdx.filterMap fun r => r.1.name.map (·, r.2)

/-- A line behind others has their number. -/
theorem numbered_concat (done : List Line) (line : Line) : numbered (done ++ [line]) =
    numbered done ++ (line.name.map (·, done.length)).toList := by
  rw [numbered, List.zipIdx_append, List.filterMap_append]
  cases hname : line.name <;> simp [numbered, hname]

/-- A name has the number of a line that it stands before. -/
theorem mem_numbered {lines : List Line} {name : String} {id : InstId} :
    (name, id) ∈ numbered lines ↔ (lines[id]?).bind (·.name) = some name := by
  simp only [numbered, List.mem_filterMap, List.mem_zipIdx_iff_getElem?, Option.map_eq_some_iff,
    Option.bind_eq_some_iff, Prod.mk.injEq]
  constructor
  · rintro ⟨r, hr, n, hn, rfl, rfl⟩
    exact ⟨r.1, hr, hn⟩
  · rintro ⟨line, hline, hname⟩
    exact ⟨(line, id), hline, name, hname, rfl, rfl⟩

/-- The numbered names are the names before the lines. -/
theorem map_numbered (lines : List Line) :
    (numbered lines).map (·.1) = lines.filterMap (·.name) := by
  have hnames : (fun line : Line × Nat => (line.1.name.map (·, line.2)).map (·.1)) =
      (fun line : Line => line.name) ∘ Prod.fst := by
    funext line
    simp [Option.map_map, Function.comp_def]
  rw [numbered, List.map_filterMap, hnames, ← List.filterMap_map, List.zipIdx_map_fst]

namespace Scope

/-- The scope after some lines: every line has a number, the results are the names before the lines,
and no two labels and no two results have one name. -/
structure Foretells (s : Scope) (done : List Line) : Prop where
  next : s.nextInst = done.length
  results : s.results = numbered done
  distinct : (s.results.map (·.1)).Nodup
  labels : s.labels.Nodup

variable {s t : Scope} {done : List Line}

/-- A line that enters a scope keeps what the scope foretells. -/
theorem addLine_foretells {line : Line} (hs : s.Foretells done) (h : s.addLine line = .ok t) :
    t.Foretells (done ++ [line]) := by
  unfold addLine at h
  split at h
  · rename_i hname
    cases h
    exact ⟨by simp [hs.next], by simp [numbered_concat, hname, hs.results], hs.distinct, hs.labels⟩
  · rename_i name hname
    split at h
    · cases h
    · rename_i hnew
      cases h
      refine ⟨by simp [hs.next], ?_, ?_, hs.labels⟩
      · simp [numbered_concat, hname, hs.results, hs.next]
      · rw [List.map_append]
        exact List.nodup_append'.mpr ⟨hs.distinct, List.nodup_singleton name,
          by simpa using fun hmem => hnew (.inr hmem)⟩

/-- So do the lines of all blocks, one after the other. -/
theorem foldlM_addBlock_foretells {blocks : List BlockText} (hs : s.Foretells done)
    (h : blocks.foldlM addBlock s = .ok t) : t.Foretells (done ++ blocks.flatMap (·.lines)) := by
  refine foldlM_addBlock_lines (P := fun done u => u.Foretells done) addLine_foretells
    (fun {_ u label _} hnew hu => ⟨hu.next, hu.results, hu.distinct, ?_⟩) hs h
  exact List.nodup_append'.mpr ⟨hu.labels, List.nodup_singleton label, by simpa using hnew⟩

/-- A name can be used if it is that of a parameter or of a result. -/
theorem isSome_value? {name : String} :
    (s.value? name).isSome ↔ name ∈ s.params ∨ name ∈ s.results.map (·.1) := by
  unfold value?
  split
  · rename_i written index hfind
    obtain ⟨_, hget, _⟩ := Function.find?_reverse_zipIdx.mp hfind
    simp [List.mem_of_getElem? hget]
  · rename_i hnone
    have hparam : name ∉ s.params := Function.find?_reverse_zipIdx_eq_none.mp hnone
    simp [hparam]

end Scope

/-! ## The second pass -/

variable {scope : Scope} {f g : Function} {b : BlockId}

/-- Lines that are appended to a block make it longer by their number. -/
theorem length_body_pushLines {lines : List Line} (hb : b < f.blocks.length)
    (h : lines.foldlM (pushLine scope b) f = .ok g) : g.blocks.length = f.blocks.length ∧
      ∀ c, (g.body c).length = (f.body c).length + if c = b then lines.length else 0 := by
  induction lines generalizing f with
  | nil =>
      cases h
      simp
  | cons line lines ih =>
      simp only [List.foldlM_cons, bind_eq_ok, pushLine, pure_eq_ok] at h
      obtain ⟨_, ⟨i, _, rfl⟩, h⟩ := h
      have hblocks : (f.push b line.name i).blocks.length = f.blocks.length := by
        simp [Function.push]
      obtain ⟨hlength, hbody⟩ := ih (by rwa [hblocks]) h
      refine ⟨hlength.trans hblocks, fun c => ?_⟩
      rw [hbody, Function.body_push hb]
      split
      · rename_i hc
        subst hc
        simp only [List.length_append, List.length_cons, List.length_nil]
        omega
      · rfl

/-- A block has as many instructions as it has lines. -/
theorem FunctionText.bind_lengths {t : FunctionText} (h : t.bind = .ok f) :
    List.Forall₂ (fun b k => k.insts.length = b.lines.length) t.blocks f.blocks := by
  have hblocks := t.bind_blocks h
  simp only [FunctionText.bind, bind_eq_ok] at h
  obtain ⟨ret, _, ⟨params, next⟩, _, scope, hscope, h⟩ := h
  obtain ⟨_, _, hlabels, _⟩ := foldlM_addBlock (fun r hr => by cases hr) hscope
  obtain ⟨_, _, hbody, hlength⟩ := foldl_addBlock scope.labels { name := t.name, ret, params }
  have hend := foldlM_eq_ok (fun rest (g : Function) => ∃ done later, t.blocks = done ++ later ∧
    rest = later.zipIdx done.length ∧ g.blocks.length = t.blocks.length ∧
    ∀ c, (g.body c).length = (done[c]?).elim 0 (·.lines.length)) ?_
    ⟨[], t.blocks, rfl, rfl, by simpa [hlabels] using hlength, fun c => by rw [hbody]; rfl⟩ h
  · obtain ⟨done, later, hdone, hlater, _, hbodies⟩ := hend
    obtain rfl : later = [] := List.zipIdx_eq_nil_iff.mp hlater.symm
    rw [List.append_nil] at hdone
    subst hdone
    refine List.forall₂_iff_get.mpr ⟨hblocks.symm, fun c hc hc' => ?_⟩
    simpa [Function.body, hc, hc'] using hbodies c
  · rintro ⟨block, c⟩ rest u v ⟨done, later, hdone, hlater, hcount, hbodies⟩ hv
    cases later with
    | nil => cases hlater
    | cons first later =>
        simp only [List.zipIdx_cons, List.cons.injEq, Prod.mk.injEq] at hlater
        obtain ⟨⟨rfl, rfl⟩, rfl⟩ := hlater
        have hlt : done.length < u.blocks.length := by
          rw [hcount, hdone, List.length_append, List.length_cons]
          omega
        obtain ⟨hlength, hpushed⟩ := length_body_pushLines hlt hv
        refine ⟨done ++ [block], later, by simpa using hdone, by simp, hlength.trans hcount,
          fun c => ?_⟩
        rw [hpushed, hbodies]
        rcases Nat.lt_trichotomy c done.length with hc | rfl | hc
        · rw [if_neg (Nat.ne_of_lt hc), List.getElem?_append_left hc]
          rfl
        · simp
        · rw [if_neg (Nat.ne_of_gt hc), List.getElem?_eq_none (Nat.le_of_lt hc),
            List.getElem?_eq_none (by simpa using Nat.succ_le_of_lt hc)]
          rfl

end Surface

/-! ## Both passes -/

/-- A name denotes a parameter that has it, or the result of a live instruction that bears it. -/
def Function.Denotes (f : Function) (name : String) : Operand → Prop
  | .param k => (f.params[k]?).map (·.name) = some name
  | .result id => id ∈ f.live ∧ (f.slots[id]?).bind (·.name) = some name
  | .const _ | .global _ | .function _ => False

variable {name : String} {v : Operand}

/-- What bears a name is denoted by it. -/
theorem Function.Bears.denotes {f : Function} (h : f.Bears name v)
    (hlive : f.live = List.range f.slots.length) : f.Denotes name v := by
  cases v with
  | param k =>
      have hname := h.1
      rwa [List.getElem?_map] at hname
  | result id =>
      obtain ⟨s, hs, _⟩ := Option.bind_eq_some_iff.mp h.1
      refine ⟨?_, h.1⟩
      rw [hlive]
      exact List.mem_range.mpr (List.getElem?_eq_some_iff.mp hs).1
  | const | global | function => exact h.elim

namespace Surface

variable {t : FunctionText} {scope : Scope} {f : Function}

/-- The scope of a sourced function foretells its lines. -/
theorem Sourced.foretells (h : Sourced t scope f) :
    scope.Foretells (t.blocks.flatMap (·.lines)) := by
  obtain ⟨next, hadded⟩ := h.added
  have hstart : Scope.Foretells
      { function := t.name, params := f.params.map (·.name), nextNumber := next } [] :=
    ⟨rfl, rfl, List.nodup_nil, List.nodup_nil⟩
  simpa using Scope.foldlM_addBlock_foretells hstart hadded

/-- Lines and the slots they make have the same names. -/
theorem map_name_of_makes {lines : List Line} {slots : List Slot}
    (h : List.Forall₂ (Line.Makes scope) lines slots) :
    lines.map (·.name) = slots.map (·.name) := by
  induction h with
  | nil => rfl
  | cons hmakes _ ih => rw [List.map_cons, List.map_cons, hmakes.1, ih]

section Lines

variable (h : Sourced t scope f)
  (hlines : List.Forall₂ (Line.Makes scope) (t.blocks.flatMap (·.lines)) f.slots)

include h hlines

/-- The results that the first pass foretells are the slots that bear a name. -/
theorem Sourced.mem_results {name : String} {id : InstId} :
    (name, id) ∈ scope.results ↔ (f.slots[id]?).bind (·.name) = some name := by
  have hname := congrArg (fun names : List (Option String) => (names[id]?).bind fun name => name)
    (map_name_of_makes hlines)
  simp only [List.getElem?_map, Option.bind_map, Function.comp_def] at hname
  rw [h.foretells.results, mem_numbered, hname]

/-- No two slots bear one name. -/
theorem Sourced.distinctResults : (f.slots.filterMap (·.name)).Nodup := by
  have hnames := congrArg (List.filterMap fun name => name) (map_name_of_makes hlines)
  simp only [List.filterMap_map, Function.comp_def] at hnames
  rw [← hnames, ← map_numbered, ← h.foretells.results]
  exact h.foretells.distinct

/-- A name can be used if it denotes anything. -/
theorem Sourced.visible (hlive : f.live = List.range f.slots.length) {name : String} :
    (scope.value? name).isSome ↔ ∃ v, f.Denotes name v := by
  constructor
  · intro hsome
    obtain ⟨v, hv⟩ := Option.isSome_iff_exists.mp hsome
    exact ⟨v, (h.bears hlines hv).denotes hlive⟩
  · rintro ⟨v, hv⟩
    refine Scope.isSome_value?.mpr ?_
    cases v with
    | param k =>
        obtain ⟨next, hadded⟩ := h.added
        rw [(foldlM_addBlock (fun r hr => by cases hr) hadded).2.2.2]
        refine .inl (List.mem_of_getElem? (i := k) ?_)
        rw [List.getElem?_map]
        exact hv
    | result id => exact .inr (List.mem_map_of_mem ((h.mem_results hlines).mpr hv.2))
    | const | global | function => exact hv.elim

end Lines

end Surface

namespace Pair

/-- A slot of a function is what the pair of an instruction says with the names of a scope. -/
structure FillsIn (scope : Scope) (f : Function) (t : Pair) (s : Slot) : Prop where
  /-- The pair is the instruction, with the name of its result. -/
  makes : t.instruction scope = .ok (s.name, s.instruction)
  /-- What it refers to bears the names that are written, one for one and in order. -/
  mentions : List.Forall₂ (Names f.Denotes fun name b => (f.blocks[b]?).map (·.name) = some name)
    t.written s.instruction.mentions

/-- The names of a function lead where they should: what the first pass over its blocks foretells is
what the second pass makes. -/
structure ResolvedIn (t : Pair) (f : Function) (scope : Scope) : Prop where
  /-- The scope is what the first pass comes to. -/
  opened : ∃ next, openBlocks
    { function := f.name, params := f.params.map (·.name), nextNumber := next } (t.inside .block) =
      .ok (scope, (t.inside .block).map (inside .instruction))
  /-- As many instructions are foretold as there are slots. -/
  count : scope.nextInst = f.slots.length
  /-- The results that are foretold are the slots that bear a name. -/
  results : ∀ name id, (name, id) ∈ scope.results ↔ (f.slots[id]?).bind (·.name) = some name
  /-- The labels are those of the blocks. -/
  labels : scope.labels = f.labels
  /-- Every name that denotes anything can be used in the whole function. -/
  visible : ∀ name, (scope.value? name).isSome ↔ ∃ v, f.Denotes name v
  /-- Each block lists the slots of its instructions, one for one and in order. -/
  filled : List.Forall₂ (fun u k => List.Forall₂ (fun i id => ∃ s, f.slots[id]? = some s ∧
    FillsIn scope f i s) (u.inside .instruction) k.insts) (t.inside .block) f.blocks
  /-- The blocks list every slot once, in program order. -/
  live : f.live = List.range f.slots.length
  /-- A slot is listed by the block that it names. -/
  place : ∀ id s, f.slots[id]? = some s → ∀ b, id ∈ f.body b ↔ s.block = b
  /-- No two blocks have one name. -/
  distinctLabels : f.labels.Nodup
  /-- No two instructions have one name. -/
  distinctResults : (f.slots.filterMap (·.name)).Nodup

variable {g : FunctionText} {t : Pair} {f : Function} {scope : Scope}

/-- A function that is built holds what is written, slot by slot. -/
theorem IsFunction.fillsIn (h : IsFunction g t) (hlive : f.live = List.range f.slots.length)
    (hsourced : Sourced g scope f)
    (hlines : List.Forall₂ (Line.Makes scope) (g.blocks.flatMap (·.lines)) f.slots) :
    List.Forall₂ (FillsIn scope f) t.instructions f.slots := by
  refine forall₂_across (fun l u s hline hmakes => ⟨?_, ?_⟩) h.lines hlines
  · rw [hline.build, hmakes.1, hmakes.2]
    rfl
  · refine (hline.names hmakes.2).imp fun u m => Names.imp
      (fun name v hv => (hsourced.bears hlines hv).denotes hlive) fun name b hb => ?_
    rw [← hsourced.findBlock?, Function.findBlock?, List.findIdx?_eq_some_iff_getElem] at hb
    obtain ⟨hlt, hname, _⟩ := hb
    simpa [hlt] using hname

/-- Building a function resolves its names. -/
theorem IsFunction.resolvedIn (h : IsFunction g t) (hf : g.bind = .ok f) :
    ∃ scope, t.ResolvedIn f scope := by
  obtain ⟨scope, hsourced, hlines⟩ := g.bind_lines hf
  obtain ⟨next, hadded⟩ := hsourced.added
  have hlive := g.bind_live hf
  have hplaced := g.bind_placed hf
  have hforetold := hsourced.foretells
  refine ⟨scope, ?_⟩
  exact {
    opened := by
      refine ⟨next, ?_⟩
      rw [openBlocks_eq h.blocks, hsourced.name, hadded]
      rfl
    count := by rw [hforetold.next, hlines.length_eq]
    results := fun name id => hsourced.mem_results hlines
    labels := hsourced.labels.symm
    visible := fun name => hsourced.visible hlines hlive
    filled := by
      have hlength := forall₂_across (fun b u k hb hk => hk.trans hb.lines.length_eq) h.blocks
        (g.bind_lengths hf)
      have hslots := forall₂_range (h.fillsIn hlive hsourced hlines)
      rw [← hlive] at hslots
      exact forall₂_of_flatMap hlength hslots
    live := hlive
    place := fun id s hs b => by
      have hplace : ∀ {c}, id ∈ f.body c → s.block = c := fun hc => by
        obtain ⟨s', hs', hblock⟩ := hplaced.slot hc
        cases hs.symm.trans hs'
        exact hblock
      refine ⟨hplace, ?_⟩
      rintro rfl
      have hid : id ∈ f.live := by
        rw [hlive]
        exact List.mem_range.mpr (List.getElem?_eq_some_iff.mp hs).1
      rw [Function.live_eq_flatMap_body] at hid
      obtain ⟨c, _, hc⟩ := List.mem_flatMap.mp hid
      exact hplace hc ▸ hc
    distinctLabels := hsourced.labels ▸ hforetold.labels
    distinctResults := hsourced.distinctResults hlines }

end Pair

/-- In a text that is read every name leads where it should: each function of the module is built of
one of the text so that what the first pass over its blocks foretells is what the second makes. -/
theorem Module.names_resolved {text : String} {m : Module} (hread : read text = .ok m) :
    ∃ t, Pair.ofText? text = some t ∧
      List.Forall₂ (fun u f => ∃ scope, u.ResolvedIn f scope) (t.inside .function)
        m.functions := by
  obtain ⟨hgrammar, _⟩ | ⟨trees, t, hgrammar, htree, hall⟩ := Pair.ofText?_agrees text
  · rw [read, hgrammar] at hread
    cases hread
  · refine ⟨t, htree, ?_⟩
    simp only [read, hgrammar] at hread
    split at hread
    · cases hread
    · rename_i functions hfunctions
      cases hread
      exact Pair.forall₂_across (fun g u f hg hf => hg.resolvedIn hf) hall
        (forall₂_of_mapM_eq_ok hfunctions)

/-- A loop whose phi uses a result that stands after it and the entry block, which has no label. -/
def countedLoop : Function where
  name := "f"
  ret := .int 32
  params := [⟨"n", .int 32⟩, ⟨"p", .ptr⟩]
  blocks := [⟨"0", [0]⟩, ⟨"head", [1, 2, 3, 4, 5]⟩, ⟨"done", [6]⟩]
  slots := [
    ⟨none, .jump 1, 0⟩,
    ⟨some "i", .phi (.int 32) [⟨.const ⟨.int 32, "0"⟩, 0⟩, ⟨.result 3, 1⟩], 1⟩,
    ⟨none, .store ⟨.int 32, .result 1⟩ ⟨.ptr, .param 1⟩, 1⟩,
    ⟨some "j", .binary .add (.int 32) (.result 1) (.const ⟨.int 32, "1"⟩), 1⟩,
    ⟨some "c", .compare (.int .slt) (.int 32) (.result 3) (.param 0), 1⟩,
    ⟨none, .branch (.result 4) 1 2, 1⟩,
    ⟨none, .ret (some ⟨.int 32, .result 1⟩), 2⟩]

/-- The text of `countedLoop`. -/
def countedLoopText : String :=
  "define i32 @f(i32 %n, ptr %p) \x7b\n  br label %head\nhead:\n" ++
    "  %i = phi i32 [ 0, %0 ], [ %j, %head ]\n  store i32 %i, ptr %p\n" ++
    "  %j = add i32 %i, 1\n  %c = icmp slt i32 %j, %n\n" ++
    "  br i1 %c, label %head, label %done\ndone:\n  ret i32 %i\n\x7d\n"

/-- The names of a loop that counts to a bound are resolved, the phi ahead of what it refers to. -/
theorem names_resolved_countedLoop : Module.read countedLoopText = .ok ⟨[countedLoop]⟩ ∧
    ∃ t, Pair.ofText? countedLoopText = some t ∧
      List.Forall₂ (fun u f => ∃ scope, u.ResolvedIn f scope) (t.inside .function)
        [countedLoop] :=
  have hread : Module.read countedLoopText = .ok ⟨[countedLoop]⟩ := by decide +kernel
  ⟨hread, Module.names_resolved hread⟩

end Dataflow
