import Dataflow.Proofs.Ssa.FreshNames
import Dataflow.Proofs.Text.ResolvedNames

/-!
# What a function defines twice

The first pass over the blocks of a function stops at the first label or result that was defined
before it (`FunctionText.firstRepeat`, `foldlM_addBlock_firstRepeat`). It does not compare the
parameters with each other: two parameters may bear one name, written or counted, and then an
operand means the last of them and `Function.named?` finds the first. `Module.read_defines` says
what that leaves of a name that is defined once.
-/

namespace Dataflow

namespace Surface

/-- A name that a function defines. -/
inductive Definition where
  /-- The label of a block. -/
  | label (name : String)
  /-- The name of a parameter or of a result. -/
  | «local» (name : String)
deriving DecidableEq, Repr

/-- The error for a name that was defined before, in the function of the given name. -/
def Definition.error (function : String) : Definition → BindingError
  | label name => .duplicateLabel name function
  | «local» name => .duplicateDefinition name function

/-- The names of parameters, and the number that a block without a label gets. -/
def nameParams : Nat → List ParamText → List String × Nat
  | next, [] => ([], next)
  | next, p :: rest =>
    let named := paramName next p.name
    let others := nameParams named.2 rest
    (named.1 :: others.1, others.2)

/-- The results that lines define. -/
def lineResults (lines : List Line) : List Definition := lines.filterMap fun l => l.name.map .local

/-- What blocks define, in the order of the text. -/
def definitions : Nat → List BlockText → List Definition
  | _, [] => []
  | next, block :: rest =>
    let numbered := blockLabel next block.label
    .label numbered.1 :: (lineResults block.lines ++ definitions numbered.2 rest)

/-- The first of the definitions `ds` that stands among `seen` or before itself. -/
def firstRepeat (seen : List Definition) : List Definition → Option Definition
  | [] => none
  | d :: ds => if d ∈ seen then some d else firstRepeat (seen ++ [d]) ds

namespace FunctionText

variable (t : FunctionText)

/-- The names of the parameters, written or counted. -/
def paramNames : List String := (nameParams 0 t.params).1

/-- The names of the results, in the order of the text. -/
def resultNames : List String := (t.blocks.flatMap (·.lines)).filterMap (·.name)

/-- The first label or result that was defined before, if there is one. -/
def firstRepeat : Option Definition :=
  Surface.firstRepeat (t.paramNames.map .local) (definitions (nameParams 0 t.params).2 t.blocks)

end FunctionText

variable {seen ds es : List Definition} {d : Definition} {name : String} {n : Nat}
  {lines : List Line} {blocks : List BlockText} {t : FunctionText} {s : Scope}

/-- The first repeat in two lists is in the first one, or in the second after the first was seen. -/
theorem firstRepeat_append : firstRepeat seen (ds ++ es) =
    (firstRepeat seen ds).or (firstRepeat (seen ++ ds) es) := by
  induction ds generalizing seen with
  | nil => simp [firstRepeat]
  | cons d ds ih =>
      rw [List.cons_append, firstRepeat, firstRepeat]
      split
      · rfl
      · rw [ih, List.append_assoc, List.singleton_append]

/-- Nothing repeats when the definitions are distinct and new. -/
theorem firstRepeat_eq_none :
    firstRepeat seen ds = none ↔ ds.Nodup ∧ ∀ d ∈ ds, d ∉ seen := by
  induction ds generalizing seen with
  | nil => simp [firstRepeat]
  | cons d ds ih =>
      rw [firstRepeat]
      split
      · rename_i hd
        simp [hd]
      · rename_i hd
        rw [ih, List.nodup_cons]
        grind

/-- The results that blocks define are the names before their lines. -/
theorem filterMap_definitions (next : Nat) :
    (definitions next blocks).filterMap (fun d => match d with
      | .label _ => none
      | .local name => some name) = (blocks.flatMap (·.lines)).filterMap (·.name) := by
  induction blocks generalizing next with
  | nil => rfl
  | cons block blocks ih =>
      rw [definitions, List.filterMap_cons, List.filterMap_append, ih, List.flatMap_cons,
        List.filterMap_append, lineResults, List.filterMap_filterMap]
      refine congrArg (List.filterMap · block.lines ++ _) (funext fun l => ?_)
      cases l.name <;> rfl

/-- Where nothing is defined again, the results are apart from each other and from the
parameters. -/
theorem FunctionText.resultNames_apart (h : t.firstRepeat = none) :
    t.resultNames.Nodup ∧ ∀ name ∈ t.resultNames, name ∉ t.paramNames := by
  obtain ⟨hnodup, hnew⟩ := firstRepeat_eq_none.mp h
  rw [resultNames, ← filterMap_definitions (nameParams 0 t.params).2]
  refine ⟨hnodup.filterMap ?_, fun name hname hparam => ?_⟩
  · rintro (_ | a) (_ | b) c hc hc' <;> simp_all
  · obtain ⟨d, hd, hdname⟩ := List.mem_filterMap.mp hname
    cases d with
    | label => cases hdname
    | «local» other =>
        cases hdname
        exact hnew _ hd (List.mem_map_of_mem hparam)

/-! ## The first pass -/

namespace Scope

/-- The names of a scope are the definitions seen so far. -/
structure Holds (s : Scope) (seen : List Definition) : Prop where
  labels : ∀ name, .label name ∈ seen ↔ name ∈ s.labels
  locals : ∀ name, .local name ∈ seen ↔ name ∈ s.params ∨ name ∈ s.results.map (·.1)

/-- What adding the definitions `ds` to a scope comes to: the error for the first that was seen
before, or a scope that holds them all. -/
def Adds (s : Scope) (seen ds : List Definition) (next : Nat) (x : Except BindingError Scope) :
    Prop :=
  match firstRepeat seen ds with
  | some d => x = .error (d.error s.function)
  | none => ∃ t, x = .ok t ∧ t.Holds (seen ++ ds) ∧ t.function = s.function ∧ t.nextNumber = next

/-- Definitions are added one list after another. -/
theorem Adds.bind {next last : Nat} {x : Except BindingError Scope}
    {k : Scope → Except BindingError Scope} (h : s.Adds seen ds next x)
    (hk : ∀ t : Scope, t.Holds (seen ++ ds) → t.nextNumber = next →
      t.Adds (seen ++ ds) es last (k t)) :
    s.Adds seen (ds ++ es) last (x >>= k) := by
  unfold Adds at h
  rw [Adds, firstRepeat_append]
  cases hfirst : firstRepeat seen ds with
  | some d =>
      rw [hfirst] at h
      rw [h]
      rfl
  | none =>
      rw [hfirst] at h
      obtain ⟨t, rfl, hholds, hfunction, hnext⟩ := h
      have hlast := hk t hholds hnext
      rwa [Adds, hfunction, List.append_assoc] at hlast

/-- A line adds its result, or its repeat is the error. -/
theorem addLine_firstRepeat (hs : s.Holds seen) (line : Line) :
    s.Adds seen (lineResults [line]) s.nextNumber (s.addLine line) := by
  rw [addLine]
  cases hname : line.name with
  | none =>
      have hnothing : lineResults [line] = [] := by simp [lineResults, hname]
      rw [hnothing]
      exact ⟨_, rfl, by simpa using ⟨hs.labels, hs.locals⟩, rfl, rfl⟩
  | some name =>
      have hone : lineResults [line] = [.local name] := by simp [lineResults, hname]
      rw [hone, Adds, firstRepeat]
      by_cases hseen : .local name ∈ seen
      · rw [if_pos hseen]
        exact if_pos ((hs.locals name).mp hseen)
      · rw [if_neg hseen]
        refine ⟨_, if_neg fun h => hseen ((hs.locals name).mpr h),
          ⟨fun other => ?_, fun other => ?_⟩, rfl, rfl⟩
        · simpa using hs.labels other
        · simp only [List.mem_append, List.mem_singleton, hs.locals other, List.map_append,
            List.map_cons, List.map_nil, Definition.local.injEq, or_assoc]

/-- Lines add their results, or the first repeat is the error. -/
theorem foldlM_addLine_firstRepeat (hs : s.Holds seen) :
    s.Adds seen (lineResults lines) s.nextNumber (lines.foldlM addLine s) := by
  induction lines generalizing s seen with
  | nil => exact ⟨_, rfl, by simpa [lineResults] using hs, rfl, rfl⟩
  | cons line lines ih =>
      have hsplit : lineResults (line :: lines) = lineResults [line] ++ lineResults lines := by
        rw [← List.singleton_append, lineResults, List.filterMap_append]
        rfl
      rw [List.foldlM_cons, hsplit]
      exact (addLine_firstRepeat hs line).bind fun t ht hnext => hnext ▸ ih ht

/-- A label is added like a result. -/
theorem addLabel_firstRepeat (hs : s.Holds seen) (label : String) (next : Nat) :
    s.Adds seen [.label label] next (if label ∈ s.labels then
      .error (.duplicateLabel label s.function)
      else .ok { s with labels := s.labels ++ [label], nextNumber := next }) := by
  rw [Adds, firstRepeat]
  by_cases hseen : .label label ∈ seen
  · rw [if_pos hseen]
    exact if_pos ((hs.labels label).mp hseen)
  · rw [if_neg hseen]
    refine ⟨_, if_neg fun h => hseen ((hs.labels label).mpr h), ⟨fun other => ?_, fun other => ?_⟩,
      rfl, rfl⟩
    · simp only [List.mem_append, List.mem_singleton, hs.labels other, Definition.label.injEq]
    · simpa using hs.locals other

/-- The first pass over blocks stops at the first of their definitions that was seen before. -/
theorem foldlM_addBlock_firstRepeat (blocks : List BlockText) (hs : s.Holds seen) :
    s.Adds seen (definitions s.nextNumber blocks)
      (blocks.foldl (fun next b => (blockLabel next b.label).2) s.nextNumber)
      (blocks.foldlM addBlock s) := by
  induction blocks generalizing s seen with
  | nil => exact ⟨s, rfl, by simpa [definitions] using hs, rfl, rfl⟩
  | cons block blocks ih =>
      have hsplit : s.addBlock block = (if (blockLabel s.nextNumber block.label).1 ∈ s.labels then
          .error (.duplicateLabel (blockLabel s.nextNumber block.label).1 s.function)
          else .ok { s with
            labels := s.labels ++ [(blockLabel s.nextNumber block.label).1]
            nextNumber := (blockLabel s.nextNumber block.label).2 }) >>=
          block.lines.foldlM addLine := by
        rw [addBlock]
        generalize blockLabel s.nextNumber block.label = numbered
        dsimp only
        split <;> rfl
      rw [List.foldlM_cons, hsplit, bind_assoc, definitions, ← List.singleton_append]
      refine (addLabel_firstRepeat hs _ _).bind fun t ht hnext => ?_
      refine (foldlM_addLine_firstRepeat ht).bind fun u hu hnext' => ?_
      rw [List.foldl_cons, ← hnext, ← hnext']
      exact ih hu

end Scope

/-! ## Functions -/

/-- Bound parameters have the names that are written or counted. -/
theorem nameParams_of_bindParams {ps : List ParamText} {params : List Param} {next last : Nat}
    (h : bindParams next ps = .ok (params, last)) :
    nameParams next ps = (params.map (·.name), last) := by
  induction ps generalizing next params with
  | nil =>
      cases h
      rfl
  | cons p ps ih =>
      simp only [bindParams, bind_eq_ok, pure_eq_ok, Prod.mk.injEq] at h
      obtain ⟨ty, _, ⟨params', last'⟩, hrest, rfl, rfl⟩ := h
      rw [nameParams, ih hrest]
      rfl

namespace FunctionText

/-- The first pass over the blocks of a function stops if a label or a result was defined
before. -/
theorem foldlM_addBlock_of_firstRepeat {params : List Param} {last : Nat}
    (hparams : bindParams 0 t.params = .ok (params, last)) (h : t.firstRepeat = some d) :
    t.blocks.foldlM Scope.addBlock
      { function := t.name, params := params.map (·.name), nextNumber := last } =
        .error (d.error t.name) := by
  have hnames := nameParams_of_bindParams hparams
  have hstart : Scope.Holds
      { function := t.name, params := params.map (·.name), nextNumber := last }
      (t.paramNames.map .local) := by
    rw [paramNames, hnames]
    exact ⟨fun name => by simp, fun name => by simp⟩
  have hadds := Scope.foldlM_addBlock_firstRepeat t.blocks hstart
  rw [firstRepeat, hnames] at h
  rw [Scope.Adds, h] at hadds
  exact hadds

/-- A repeat is the error of binding when type and parameters are fine. -/
theorem bind_of_firstRepeat {ret : Ty} {r : List Param × Nat} (hret : t.ret.bind = .ok ret)
    (hparams : bindParams 0 t.params = .ok r) (h : t.firstRepeat = some d) :
    t.bind = .error (d.error t.name) := by
  obtain ⟨params, last⟩ := r
  have hfirst := foldlM_addBlock_of_firstRepeat hparams h
  rw [bind, hret, hparams]
  show (List.foldlM Scope.addBlock _ t.blocks >>= _) = _
  rw [hfirst]
  rfl

/-- A function that is bound defines no label and no result a second time. -/
theorem firstRepeat_of_bind {f : Function} (h : t.bind = .ok f) : t.firstRepeat = none := by
  simp only [bind, bind_eq_ok] at h
  obtain ⟨ret, _, ⟨params, last⟩, hparams, scope, hscope, _⟩ := h
  cases hfirst : t.firstRepeat with
  | none => rfl
  | some d =>
      rw [foldlM_addBlock_of_firstRepeat hparams hfirst] at hscope
      cases hscope

/-- The results of a function that is bound have the names before its lines. -/
theorem resultNames_of_bind {f : Function} (h : t.bind = .ok f) :
    f.slots.filterMap (·.name) = t.resultNames := by
  obtain ⟨scope, _, hlines⟩ := t.bind_lines h
  have hnames := congrArg (List.filterMap fun name => name) (map_name_of_makes hlines)
  rw [List.filterMap_map, List.filterMap_map] at hnames
  exact hnames.symm

/-- A bound function has the parameter names of its tree. -/
theorem paramNames_of_bind {f : Function} (h : t.bind = .ok f) :
    f.params.map (·.name) = t.paramNames := by
  obtain ⟨scope, hsourced⟩ := t.bind_sourced h
  obtain ⟨last, hparams⟩ := hsourced.params
  rw [paramNames, nameParams_of_bindParams hparams]

end FunctionText

end Surface

/-! ## Two ways to look up a name -/

namespace Function

variable {f : Function} {name : String} {v : Operand}

/-- By name a function finds the first parameter that bears it. -/
theorem named?_eq_param {k : Nat} : f.named? name = some (.param k) ↔
    (f.params.map (·.name))[k]? = some name ∧ name ∉ (f.params.map (·.name)).take k := by
  have hfind : f.params.findIdx? (·.name == name) =
      (f.params.map (·.name)).findIdx? (· == name) := by
    rw [List.findIdx?_map]
    rfl
  rw [named?, hfind]
  generalize f.params.map (·.name) = names
  cases hidx : names.findIdx? (· == name) with
  | none =>
      have hno : name ∉ names := fun hmem => by
        have hne := List.findIdx?_eq_none_iff.mp hidx name hmem
        rw [beq_self_eq_true] at hne
        cases hne
      refine ⟨fun h => ?_, fun h => absurd (List.mem_of_getElem? h.1) hno⟩
      obtain ⟨id, _, heq⟩ := Option.map_eq_some_iff.mp h
      cases heq
  | some i =>
      obtain ⟨hlt, hi, hbefore⟩ := List.findIdx?_eq_some_iff_getElem.mp hidx
      rw [beq_iff_eq] at hi
      simp only [Option.some.injEq, Operand.param.injEq]
      constructor
      · rintro rfl
        refine ⟨by rw [List.getElem?_eq_getElem hlt, hi], fun hmem => ?_⟩
        obtain ⟨j, hj, hname⟩ := List.mem_take_iff_getElem.mp hmem
        exact hbefore j (Nat.lt_of_lt_of_le hj (Nat.min_le_left _ _)) (beq_iff_eq.mpr hname)
      · rintro ⟨hk, hnot⟩
        obtain ⟨hklt, hkname⟩ := List.getElem?_eq_some_iff.mp hk
        rcases Nat.lt_trichotomy i k with hik | heq | hki
        · exact absurd (List.mem_take_iff_getElem.mpr ⟨i, Nat.lt_min.mpr ⟨hik, hlt⟩, hi⟩) hnot
        · exact heq
        · exact absurd (beq_iff_eq.mpr hkname) (hbefore k hki)

/-- A result of a function that was read is found by its name, which is its own. -/
theorem named?_eq_result {id : InstId} (hlive : f.live = List.range f.slots.length)
    (hnodup : (f.slots.filterMap (·.name)).Nodup) (hname : f.resultName? id = some name)
    (hparam : name ∉ f.params.map (·.name)) : f.named? name = some (.result id) := by
  have hfind : f.params.findIdx? (·.name == name) = none := by
    refine List.findIdx?_eq_none_iff.mpr fun p hp => beq_false_of_ne fun heq => hparam ?_
    exact heq ▸ List.mem_map_of_mem hp
  obtain ⟨s, hs, hsname⟩ := Option.bind_eq_some_iff.mp hname
  have hfound : (List.range f.slots.length).find? (fun x =>
      (f.slots[x]?).any (·.name == some name)) = some id := by
    refine List.find?_range_eq_some.mpr ⟨by simp [hs, hsname],
      List.mem_range.mpr (List.getElem?_eq_some_iff.mp hs).1, fun j hj => ?_⟩
    -- an earlier result of the name would be this one
    rw [Bool.not_eq_true']
    refine Bool.eq_false_iff.mpr fun hany => Nat.ne_of_lt hj ?_
    obtain ⟨t, ht, htname⟩ := (Option.any_eq_true ..).mp hany
    refine nodup_resultNames_iff.mp hnodup j id name ?_ hname
    rw [resultName?, ht]
    exact beq_iff_eq.mp htname
  rw [named?, hfind, hlive, hfound]
  rfl

/-- By name a function finds the value that the name stands for in its text, unless two parameters
bear the name. -/
theorem Bears.named?_eq_iff (h : f.Bears name v) (hlive : f.live = List.range f.slots.length)
    (hnodup : (f.slots.filterMap (·.name)).Nodup) :
    f.named? name = some v ↔ (f.params.map (·.name)).count name ≤ 1 := by
  cases v with
  | param k =>
      obtain ⟨hk, hlast⟩ := h
      rw [named?_eq_param, and_iff_right hk]
      obtain ⟨hlt, heq⟩ := List.getElem?_eq_some_iff.mp hk
      generalize f.params.map (·.name) = names at *
      have hlater : name ∉ names.drop (k + 1) := fun hmem => by
        obtain ⟨j, hj⟩ := List.mem_iff_getElem?.mp hmem
        rw [List.getElem?_drop] at hj
        exact hlast (k + 1 + j) (by omega) hj
      have hcount : names.count name = (names.take k).count name + 1 := by
        have hsplit : names = names.take k ++ name :: names.drop (k + 1) := by
          rw [← heq, List.getElem_cons_drop, List.take_append_drop]
        rw [hsplit, List.count_append, List.count_cons_self, List.count_eq_zero.mpr hlater,
          ← hsplit]
      rw [hcount, ← List.count_eq_zero]
      omega
  | result id =>
      obtain ⟨hname, hparam⟩ := h
      rw [List.count_eq_zero.mpr hparam]
      exact iff_of_true (named?_eq_result hlive hnodup hname hparam) (Nat.zero_le 1)
  | const | global | function => exact h.elim

end Function

/-! ## Texts -/

/-- What reading promises of the names that the functions of a text define. -/
structure Module.DefinesOnce (text : String) : Prop where
  /-- In a module that is read, results are apart from each other and from the parameters. -/
  results : ∀ m, read text = .ok m → ∀ f ∈ m.functions, (f.slots.filterMap (·.name)).Nodup ∧
    ∀ name ∈ f.slots.filterMap (·.name), name ∉ f.params.map (·.name)
  /-- What is written stands for the value that bears the name, the last of the parameters or the
  one result, and the function finds the same by the name unless two parameters bear it. -/
  operands : ∀ m, read text = .ok m → ∃ t, Pair.ofText? text = some t ∧
    List.Forall₂ (fun u f => List.Forall₂ (fun i s => List.Forall₂
      (Pair.Names (fun name v => f.Bears name v ∧
        (f.named? name = some v ↔ (f.params.map (·.name)).count name ≤ 1))
        fun name b => f.findBlock? name = some b) i.written s.instruction.mentions)
      u.instructions f.slots) (t.inside .function) m.functions
  /-- A text is rejected in which a result has the name of a parameter or of another result. -/
  rejected : ∀ trees, Surface.functions? text = some trees → ∀ t ∈ trees,
    ¬ (t.resultNames.Nodup ∧ ∀ name ∈ t.resultNames, name ∉ t.paramNames) →
    ∃ e, read text = .error (.binding e)
  /-- The error tells the first definition that was there before, if all earlier functions and the
  types before the blocks are right. -/
  error : ∀ before t after d, Surface.functions? text = some (before ++ t :: after) →
    (∀ u ∈ before, ∃ f, u.bind = .ok f) → (∃ ret, t.ret.bind = .ok ret) →
    (∃ r, Surface.bindParams 0 t.params = .ok r) → t.firstRepeat = some d →
    read text = .error (.binding (d.error t.name))

/-- A list is mapped up to the first member that fails. -/
theorem mapM_eq_error {α β ε : Type} {g : α → Except ε β} {before after : List α} {a : α} {e : ε}
    (hbefore : ∀ x ∈ before, ∃ y, g x = .ok y) (ha : g a = .error e) :
    (before ++ a :: after).mapM g = .error e := by
  induction before with
  | nil =>
      rw [List.nil_append, List.mapM_cons, ha]
      rfl
  | cons x before ih =>
      obtain ⟨y, hy⟩ := hbefore x List.mem_cons_self
      rw [List.cons_append, List.mapM_cons, hy,
        ih fun x hx => hbefore x (List.mem_cons_of_mem _ hx)]
      rfl

/-- A member of a list that is mapped is mapped. -/
theorem exists_of_mapM_eq_ok {α β ε : Type} {g : α → Except ε β} {xs : List α} {ys : List β}
    (h : xs.mapM g = .ok ys) {x : α} (hx : x ∈ xs) : ∃ y ∈ ys, g x = .ok y := by
  have hall := forall₂_of_mapM_eq_ok h
  obtain ⟨k, hk, rfl⟩ := List.getElem_of_mem hx
  have hlt : k < ys.length := hall.length_eq ▸ hk
  exact ⟨ys[k], List.getElem_mem hlt, hall.get hk hlt⟩

/-- A name that a text defines is the name of parameters alone or of one result alone. -/
theorem Module.read_defines (text : String) : DefinesOnce text where
  results m hread f hf := by
    obtain ⟨trees, t, htrees, hmem, ht⟩ := read_tree hread hf
    rw [t.resultNames_of_bind ht, t.paramNames_of_bind ht]
    exact t.resultNames_apart (t.firstRepeat_of_bind ht)
  operands m hread := by
    obtain ⟨hgrammar, _⟩ | ⟨trees, t, hgrammar, htree, hall⟩ := Pair.ofText?_agrees text
    · rw [read, hgrammar] at hread
      cases hread
    · refine ⟨t, htree, ?_⟩
      simp only [read, hgrammar] at hread
      split at hread
      · cases hread
      · rename_i functions hfunctions
        cases hread
        refine Pair.forall₂_across (fun g u f hg hf => ?_) hall (forall₂_of_mapM_eq_ok hfunctions)
        have hnodup : (f.slots.filterMap (·.name)).Nodup := by
          rw [g.resultNames_of_bind hf]
          exact (g.resultNames_apart (g.firstRepeat_of_bind hf)).1
        refine (hg.heldIn hf).imp fun i s hheld => hheld.mentions.imp fun u m => ?_
        exact Pair.Names.imp (fun name v hbears =>
          ⟨hbears, hbears.named?_eq_iff (g.bind_live hf) hnodup⟩) fun _ _ hb => hb
  rejected trees htrees t ht hrepeat := by
    cases hmap : trees.mapM (·.bind) with
    | error e => exact ⟨e, by simp only [read, htrees, hmap]⟩
    | ok functions =>
        obtain ⟨f, _, hf⟩ := exists_of_mapM_eq_ok hmap ht
        exact absurd (t.resultNames_apart (t.firstRepeat_of_bind hf)) hrepeat
  error before t after d htrees hbefore hret hparams hfirst := by
    obtain ⟨ret, hret⟩ := hret
    obtain ⟨r, hparams⟩ := hparams
    simp only [read, htrees, mapM_eq_error hbefore (t.bind_of_firstRepeat hret hparams hfirst)]

/-- A function that defines one result twice, as it is written. -/
def twinResults : Surface.FunctionText where
  ret := .named .void
  name := "f"
  params := []
  blocks := [{
    label := some "entry"
    lines := [
      ⟨some "x", .alloca (.int "32") none⟩,
      ⟨some "x", .alloca (.int "32") none⟩,
      ⟨none, .ret none⟩] }]

/-- The text of `twinResults`. -/
def twinResultsText : String :=
  "define void @f() \x7b\nentry:\n  %x = alloca i32\n  %x = alloca i32\n  ret void\n\x7d\n"

/-- The second result is rejected for its name. -/
theorem read_defines_twinResults :
    Surface.functions? twinResultsText = some [twinResults] ∧
      Module.read twinResultsText = .error (.binding (.duplicateDefinition "x" "f")) := by
  have htree : Surface.functions? twinResultsText = some [twinResults] := by decide +kernel
  exact ⟨htree, (Module.read_defines twinResultsText).error [] twinResults [] (.local "x") htree
    (by simp) ⟨.void, rfl⟩ ⟨([], 0), rfl⟩ (by decide)⟩

/-- A function with two parameters of one name. -/
def twinParams : Function where
  name := "f"
  ret := .int 32
  params := [⟨"x", .int 32⟩, ⟨"x", .int 32⟩]
  blocks := [⟨"entry", [0]⟩]
  slots := [⟨none, .ret (some ⟨.int 32, .param 1⟩), 0⟩]

/-- The text of `twinParams`. -/
def twinParamsText : String :=
  "define i32 @f(i32 %x, i32 %x) \x7b\nentry:\n  ret i32 %x\n\x7d\n"

/-- The text is read, although it defines `x` twice. The operand is the second parameter, and by the
name the function finds the first. -/
theorem read_twinParams : Module.read twinParamsText = .ok ⟨[twinParams]⟩ ∧
    ¬ twinParams.takenNames.Nodup ∧ twinParams.Bears "x" (.param 1) ∧
    twinParams.named? "x" = some (.param 0) := by
  refine ⟨by decide +kernel, by decide, ⟨rfl, fun later hlater => ?_⟩, by decide⟩
  obtain ⟨k, rfl⟩ := Nat.exists_eq_add_of_lt hlater
  simp [twinParams, Nat.add_comm 1 k]

end Dataflow
