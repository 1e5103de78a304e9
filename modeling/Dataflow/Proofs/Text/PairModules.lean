import Dataflow.Proofs.Text.PairStatements

/-!
# Pairs of functions and modules

Parameters, blocks and functions, and the whole text. A function is built in two passes over its
blocks, and each pass comes to what the same pass over the blocks as written comes to: names are
collected in the first (`Pair.openBlocks_eq`), lines are appended in the second
(`Pair.fillBlocks_eq`). A text has a tree of pairs exactly if it follows the grammar, and the tree
has a pair for each function that is read (`Pair.ofText?_agrees`).
-/

namespace Dataflow

open Lexeme Pattern

namespace BuildError

/-- A loop comes to what a loop over what is written comes to, if each of its steps does. -/
theorem lift_foldlM {σ γ δ : Type} {f : σ → γ → Except BindingError σ}
    {g : σ → δ → Except BuildError σ} {as : List γ} {ts : List δ}
    (h : List.Forall₂ (fun a t => ∀ s, g s t = lift (f s a)) as ts) (s : σ) :
    ts.foldlM g s = lift (as.foldlM f s) := by
  induction h generalizing s with
  | nil => rfl
  | cons hab _ ih => simp only [List.foldlM_cons, hab, lift_bind, ih]

end BuildError

namespace Pair

open Cursor BuildError

/-- The pairs of part `p` inside a pair, in the order in which they stand. -/
def inside (p : Part) (t : Pair) : List Pair := t.children.filter (·.part = p)

/-- A list of pairs of one part is kept whole by a filter for that part, and dropped by any
other. -/
theorem filter_part {p q : Part} {ts : List Pair} (h : ∀ t ∈ ts, t.part = q) :
    ts.filter (·.part = p) = if q = p then ts else [] := by
  split
  · exact List.filter_eq_self.mpr fun t ht => by simpa [h t ht]
  · exact List.filter_eq_nil_iff.mpr fun t ht => by simpa [h t ht]

/-- No noise has a part that matters. -/
theorem Noise.filter_part {p : Part} (hp : p.isNoise = false) {ts : List Pair} (h : Noise ts) :
    ts.filter (·.part = p) = [] :=
  List.filter_eq_nil_iff.mpr fun t ht hpart => by
    have hnoise := (h t ht).1
    rw [of_decide_eq_true hpart, hp] at hnoise
    cases hnoise

/-! ## Parameters -/

/-- What is built from the pair of a parameter is what binding makes of the parameter. -/
def IsParam (p : Surface.ParamText) (t : Pair) : Prop := ∀ next, t.param next = lift (do
  let ty ← p.ty.bind
  let (name, next) := Surface.paramName next p.name
  return ({ name, ty }, next))

/-- The parameters of a header are bound from their pairs as they are from the tree. -/
theorem params_eq {ps : List Surface.ParamText} {ts : List Pair} (h : List.Forall₂ IsParam ps ts)
    (next : Nat) : params next ts = lift (Surface.bindParams next ps) := by
  induction h generalizing next with
  | nil => rfl
  | @cons p t ps ts hpt _ ih =>
      rw [params, hpt next, Surface.bindParams]
      generalize Surface.paramName next p.name = numbered
      obtain ⟨name, next⟩ := numbered
      cases p.ty.bind with
      | error e => rfl
      | ok ty =>
          change (params next ts >>= fun r => _) = _
          rw [ih]
          change _ = lift (Surface.bindParams next ps >>= fun r => _)
          cases Surface.bindParams next ps <;> rfl

/-- The parameters of a function, in front of its blocks. -/
theorem run_paramsField {params : Option (List Surface.ParamText)} {ps bs : List Pair}
    (h : Reader.Maybe (fun as ts => ∃ text children, ts = [mk .params text children] ∧
      List.Forall₂ IsParam as children) params ps) (hbs : ∀ t ∈ bs, t.part = .block) :
    paramsField (ps ++ bs) = (lift (Surface.bindParams 0 (params.getD []))).map (·, bs) := by
  obtain ⟨rfl, rfl⟩ | ⟨as, rfl, text, children, rfl, h⟩ := h
  · cases bs with
    | nil => rfl
    | cons t bs =>
        have ht : t.part ≠ .params := by
          rw [hbs t List.mem_cons_self]
          decide
        change (next? .params (t :: bs)).bind _ = _
        rw [next?, if_neg ht]
        rfl
  · rw [Option.getD_some, ← params_eq h]
    rfl

/-! ## Blocks -/

/-- A line enters the scope through its pair as it does through the tree. -/
theorem define_eq {l : Surface.Line} {t : Pair} (h : IsLine l t) (s : Surface.Scope) :
    define s t = lift (s.addLine l) := by
  rw [define, h.name, Surface.Scope.addLine]
  cases l.name with
  | none => rfl
  | some name =>
      by_cases hname : name ∈ s.params ∨ name ∈ s.results.map (·.1)
      · simp only [if_pos hname]
        rfl
      · simp only [if_neg hname]
        rfl

/-- The pair of a block as written. -/
structure IsBlock (b : Surface.BlockText) (t : Pair) : Prop where
  part : t.part = .block
  /-- The lines are the instructions inside. -/
  lines : List.Forall₂ IsLine b.lines (t.inside .instruction)
  /-- The block adds the names to a scope that it adds as written. -/
  opened (s : Surface.Scope) : t.openBlock s = lift (do
    let s ← s.addBlock b
    return (s, t.inside .instruction))

/-- A block pair holds a label, where there is one, and then its lines. -/
theorem isBlock {label : Option String} {lines : List Surface.Line} {ls ts : List Pair}
    (hlabel : Reader.Maybe
      (fun name ts => ∃ t, ts = [t] ∧ t.part = .label ∧ t.ident = name) label ls)
    (hlines : List.Forall₂ IsLine lines ts) (text : String) :
    IsBlock { label, lines } (mk .block text (ls ++ ts)) := by
  have hts : ∀ t ∈ ts, t.part = .instruction :=
    forall_mem_of_forall₂ (hlines.imp fun _ _ h => h.part)
  have hls : ∀ t ∈ ls, t.part = .label := by
    obtain ⟨_, rfl⟩ | ⟨_, _, t, rfl, ht, _⟩ := hlabel
    · simp
    · simpa using ht
  have hinside : (mk .block text (ls ++ ts)).inside .instruction = ts := by
    rw [inside, children, List.filter_append, filter_part hls, filter_part hts]
    rfl
  have hrun : next? .label (ls ++ ts) = .ok (ls.head?, ts) := by
    obtain ⟨_, rfl⟩ | ⟨_, _, t, rfl, ht, _⟩ := hlabel
    · cases ts with
      | nil => rfl
      | cons t ts =>
          have ht : t.part ≠ .label := by
            rw [hts t List.mem_cons_self]
            decide
          exact if_neg ht
    · exact if_pos ht
  have hname : ls.head?.map ident = label := by
    obtain ⟨rfl, rfl⟩ | ⟨_, rfl, t, rfl, _, rfl⟩ := hlabel <;> rfl
  have hresult : Cursor.result (do
      let label ← next? .label
      let lines ← rest .instruction
      return (label, lines)) (mk .block text (ls ++ ts)).fields = pure (ls.head?, ts) := by
    rw [fields, children, meaningful_append, meaningful_of_part rfl hls,
      meaningful_of_part rfl hts, result_bind, hrun]
    change (rest .instruction >>= fun lines => pure (ls.head?, lines)).result ts = _
    rw [result_bind, rest_of_part hts]
    rfl
  refine ⟨rfl, by rwa [hinside], fun s => ?_⟩
  rw [openBlock, hresult, pure_bind, hinside, Surface.Scope.addBlock]
  simp only [hname]
  generalize Surface.blockLabel s.nextNumber label = numbered
  obtain ⟨label, next⟩ := numbered
  by_cases hmem : label ∈ s.labels
  · simp only [if_pos hmem]
    rfl
  · simp only [if_neg hmem]
    rw [lift_foldlM (hlines.imp fun _ _ h => define_eq h), lift_bind]
    rfl

/-- The blocks enter the scope through their pairs as they do through the tree, and the pairs of
their lines are what is left. -/
theorem openBlocks_eq {bs : List Surface.BlockText} {ts : List Pair}
    (h : List.Forall₂ IsBlock bs ts) (s : Surface.Scope) :
    openBlocks s ts = lift (do
      let s ← bs.foldlM Surface.Scope.addBlock s
      return (s, ts.map (inside .instruction))) := by
  induction h generalizing s with
  | nil => rfl
  | @cons b t bs ts hbt _ ih =>
      rw [openBlocks, hbt.opened, List.foldlM_cons]
      cases s.addBlock b with
      | error e => rfl
      | ok s =>
          change (openBlocks s ts >>= fun r => _) = lift (bs.foldlM Surface.Scope.addBlock s >>= _)
          rw [ih]
          cases bs.foldlM Surface.Scope.addBlock s <;> rfl

/-- A line is pushed into its block from the pair as it is from the tree. -/
theorem pushInstruction_eq {l : Surface.Line} {t : Pair} (h : IsLine l t) (scope : Surface.Scope)
    (b : BlockId) (f : Function) :
    pushInstruction scope b f t = lift (Surface.pushLine scope b f l) := by
  rw [pushInstruction, h.build, Surface.pushLine]
  cases l.statement.bind scope <;> rfl

/-- All blocks are filled from their pairs as they are from the tree. -/
theorem fillBlocks_eq {bs : List Surface.BlockText} {ts : List Pair}
    (h : List.Forall₂ IsBlock bs ts) (scope : Surface.Scope) (n : Nat) (f : Function) :
    ((ts.map (inside .instruction)).zipIdx n).foldlM (fillBlock scope) f =
      lift ((bs.zipIdx n).foldlM (Surface.pushBlock scope) f) := by
  induction h generalizing n f with
  | nil => rfl
  | @cons b t bs ts hbt _ ih =>
      have hfill : fillBlock scope f (t.inside .instruction, n) =
          lift (Surface.pushBlock scope f (b, n)) :=
        lift_foldlM (hbt.lines.imp fun _ _ h => pushInstruction_eq h scope n) f
      simp only [List.map_cons, List.zipIdx_cons, List.foldlM_cons, hfill, lift_bind, ih]

/-! ## Functions -/

/-- The pair of a function as written. -/
structure IsFunction (f : Surface.FunctionText) (t : Pair) : Prop where
  part : t.part = .function
  /-- The blocks are the blocks inside. -/
  blocks : List.Forall₂ IsBlock f.blocks (t.inside .block)
  /-- What is built from the pair is what binding makes of the function. -/
  build : t.function = lift f.bind

/-- A cursor that only gives a result gives it on all pairs. -/
theorem result_of {α : Type} (x : Except BuildError α) (ts : List Pair) : (of x).result ts = x := by
  cases x <;> rfl

/-- A function is its type, its name, its parameters and its blocks, in this order. -/
theorem isFunction {ret : Surface.TypeText} {params : Option (List Surface.ParamText)}
    {blocks : List Surface.BlockText} {front ps ns bs : List Pair} {t name : Pair}
    (hfront : Noise front) (hret : IsType ret t) (hname : name.part = .global)
    (hparams : Reader.Maybe (fun as ts => ∃ text children, ts = [mk .params text children] ∧
      List.Forall₂ IsParam as children) params ps) (hns : Noise ns)
    (hblocks : List.Forall₂ IsBlock blocks bs) (text : String) :
    IsFunction { ret, name := name.ident, params := params.getD [], blocks }
      (mk .function text (front ++ ([t] ++ ([name] ++ (ps ++ (ns ++ bs)))))) := by
  have hbs : ∀ t ∈ bs, t.part = .block :=
    forall_mem_of_forall₂ (hblocks.imp fun _ _ h => h.part)
  have hps : ∀ t ∈ ps, t.part = .params := by
    obtain ⟨_, rfl⟩ | ⟨_, _, text, children, rfl, _⟩ := hparams <;> simp [part]
  refine ⟨rfl, ?_, ?_⟩
  · have hfilter : (front ++ ([t] ++ ([name] ++ (ps ++ (ns ++ bs))))).filter (·.part = .block) =
        bs := by
      simp only [List.filter_append, hfront.filter_part (p := .block) rfl,
        hns.filter_part (p := .block) rfl, filter_part hps, filter_part hbs]
      simp [hret.part, hname]
    rwa [inside, children, hfilter]
  · have hmeaningful : meaningful ([name] ++ (ps ++ (ns ++ bs))) = name :: (ps ++ bs) := by
      have hkeep : name.part.isNoise = false := by
        rw [hname]
        rfl
      simp only [meaningful_append, hns.meaningful, meaningful_of_part rfl hps,
        meaningful_of_part rfl hbs]
      simp [meaningful, hkeep]
    refine (Ends.skip (P := fun _ _ => True) hfront <| .bind hret.yields fun ret _ _ =>
      ⟨?_, fun _ => trivial⟩).run
    rw [hmeaningful, result_bind, expect, if_pos hname]
    change (paramsField >>= fun r => _ : Cursor Function).result (ps ++ bs) = _
    rw [result_bind, run_paramsField hparams hbs, lift_bind]
    cases Surface.bindParams 0 (params.getD []) with
    | error e => rfl
    | ok r =>
        obtain ⟨params, next⟩ := r
        change (rest .block >>= fun blocks => _ : Cursor Function).result bs = _
        rw [result_bind, rest_of_part hbs]
        change (of _ : Cursor Function).result [] = _
        rw [result_of, openBlocks_eq hblocks]
        change _ = lift (blocks.foldlM Surface.Scope.addBlock _ >>= fun scope => _)
        cases blocks.foldlM Surface.Scope.addBlock _ with
        | error e => rfl
        | ok scope => exact fillBlocks_eq hblocks scope 0 _

end Pair

/-! ## Readers -/

namespace Reader

open Surface Pair

variable {n d : Nat}

/-- Both grammars agree on a parameter. -/
theorem agrees_param (hd : 2 * n + 4 ≤ d) :
    Agrees (fun p ts => ∃ t, ts = [t] ∧ IsParam p t) 1 n Surface.param
      ((Pattern.part .param).pairs (Part.take d)) := by
  refine Agrees.node (c := 3) hd fun d hd => ?_
  refine (agrees_type (by omega)).chain (j := 0) fun ty _ hty =>
    (agrees_paramAttributes (by omega)).chain (j := 0) fun _ _ hattributes =>
    (agrees_localName (by omega)).optional.last fun name _ hname text next => ?_
  obtain ⟨t, rfl, ht⟩ := hty
  refine (Ends.bind (Q := fun _ _ => True) ht.yields fun ty _ _ => .skip hattributes
    ⟨?_, fun _ => trivial⟩).run
  obtain ⟨rfl, rfl⟩ | ⟨_, rfl, t, rfl, ht, rfl⟩ := hname
  · rfl
  · obtain ⟨p, text, children⟩ := t
    obtain rfl : p = .local := ht
    rfl

/-- Both grammars agree on a block. -/
theorem agrees_block (hd : 2 * n + 9 ≤ d) :
    Agrees (fun b ts => ∃ t, ts = [t] ∧ IsBlock b t) 1 n Surface.block
      ((Pattern.part .block).pairs (Part.take d)) := by
  refine Agrees.node (c := 8) hd fun d hd => ?_
  exact (agrees_label (by omega)).optional.chain_later fun label _ hlabel =>
    (agrees_line hd).many1.last fun lines _ hlines text =>
      isBlock hlabel (hlines.2.forall₂ fun _ _ h => h) text

/-- Both grammars agree on a function definition. -/
theorem agrees_function (hd : 2 * n + 10 ≤ d) :
    Agrees (fun f ts => ∃ t, ts = [t] ∧ IsFunction f t) 1 n Surface.function
      ((Pattern.part .function).pairs (Part.take d)) := by
  have hparams : ∀ d, 2 * n + 9 ≤ d → Agrees (fun ps ts => ∃ text children,
      ts = [.mk .params text children] ∧ List.Forall₂ IsParam ps children) 1 n
      (sepBy1 param (mark ',')) ((Pattern.part .params).pairs (Part.take d)) := fun d hd =>
    .part (c := 4) (by omega) fun d hd => (agrees_param hd).sepBy1.imp fun _ _ h =>
      h.2.forall₂ fun _ _ h => h
  refine Agrees.node (c := 9) hd fun d hd => ?_
  refine (agrees_keyword rfl rfl (by omega)).chain (j := 0) fun _ ks hword =>
    (agrees_linkage (by omega)).chain (j := 1) fun _ ls hlinkage =>
    (agrees_type (by omega)).chain (j := 1) fun ret _ hret =>
    (agrees_globalName (by omega)).chain (j := 1) fun name _ hname =>
    .mark <| (hparams d hd).optional.chain (j := 1) fun params ps hparams =>
    .mark <| (agrees_functionAttributes (by omega)).chain (j := 1) fun _ ns hattributes =>
    .mark <| (agrees_block hd).many1.chain (j := 1) fun blocks bs hblocks =>
    (takes_mark _).agrees_token.last fun _ _ hnil text => ?_
  obtain ⟨t, rfl, ht⟩ := hret
  obtain ⟨u, rfl, hu, rfl⟩ := hname
  subst hnil
  have hfunction := isFunction (hword.append hlinkage) ht hu hparams hattributes
    (hblocks.2.forall₂ fun _ _ h => h) text
  simpa only [List.append_assoc, List.append_nil] using hfunction

/-! ## Whole texts -/

/-- A line outside every function takes at least a character. -/
theorem takes_otherLine : Takes Surface.otherLine where
  past s := by
    unfold otherLine lexeme
    rw [bind_apply, bind_apply, blanks, skip_skip]
    rfl
  short {s a rest} h := by
    unfold otherLine lexeme at h
    rw [bind_apply, blanks, Option.bind_some] at h
    rw [weight]
    cases hs : skip false s with
    | nil =>
        rw [hs] at h
        cases h
    | cons c t =>
        rw [hs] at h
        -- what is left past blanks does not start with the end of a line
        have hc : c ≠ '\n' := by
          rintro rfl
          exact absurd (skip_eq_cons hs).1 (by decide)
        simp only [ne_eq] at h
        split at h
        · cases h
        · cases h
          rw [List.dropWhile_cons_of_pos (by simpa using hc)]
          exact Nat.lt_succ_of_le (List.dropWhile_suffix _).length_le

/-- The pair of a function, or of another line. -/
def IsItem : Option FunctionText → Pair → Prop
  | some f, t => IsFunction f t
  | none, t => t.part = .otherLine

/-- Both grammars agree on what a module consists of. -/
theorem agrees_item (hd : 2 * n + 10 ≤ d) :
    Agrees (fun o ts => ∃ t, ts = [t] ∧ IsItem o t) 1 n item
      ((either (part .function) (part .otherLine)).pairs (Part.take d)) := by
  have hother : Agrees (fun _ ts => ∃ text children, ts = [.mk .otherLine text children] ∧
      children = []) 1 n otherLine ((Pattern.part .otherLine).pairs (Part.take d)) :=
    .part (c := 9) hd fun d _ => takes_otherLine.agrees_token
  rw [item, map_eq_pure_bind]
  refine .either ((agrees_function hd).last fun f ts hts => hts) (hother.last fun _ ts hts => ?_)
  obtain ⟨text, children, rfl, _⟩ := hts
  exact ⟨_, rfl, rfl⟩

/-- Of the items of a module the functions are kept. -/
theorem forall₂_functions {items : List (Option FunctionText)} {ts : List Pair}
    (h : List.Forall₂ IsItem items ts) :
    List.Forall₂ IsFunction (items.filterMap id) (ts.filter (·.part = .function)) := by
  induction h with
  | nil => exact .nil
  | @cons o t items ts hot _ ih =>
      cases o with
      | none =>
          have hpart : t.part ≠ .function := by
            rw [show t.part = .otherLine from hot]
            decide
          rwa [List.filterMap_cons_none rfl, List.filter_cons_of_neg (by simpa using hpart)]
      | some f =>
          have hf : IsFunction f t := hot
          rw [List.filter_cons_of_pos (by simpa using hf.part)]
          exact .cons hf ih

end Reader

namespace Pair

open Reader

/-- A text has a tree if nothing is left behind its items. -/
theorem ofText?_eq {text : String} {tss : List (List Pair)} {rest : List Char}
    (h : manyUpTo (blanks >>= fun _ => (either (Pattern.part .function)
      (Pattern.part .otherLine)).pairs (Part.take (2 * text.toList.length + 11)))
      text.toList.length text.toList = (tss, rest)) :
    ofText? text = if skip false rest = [] then
      some (.mk .module (taken text.toList []) (tss.flatten ++ [.mk .endOfText "" []]))
    else none := by
  have hitems : Part.module.pattern.pairs (Part.take (2 * text.toList.length + 11)) text.toList =
      ((Pattern.part .endOfText).pairs (Part.take (2 * text.toList.length + 11))
        (skip false rest)).bind fun u => some (tss.flatten ++ u.1, u.2) := by
    obtain rfl : _ = tss := congrArg Prod.fst h
    obtain rfl : _ = rest := congrArg Prod.snd h
    rfl
  rw [ofText?, take_apply, hitems, leaf_apply rfl]
  cases skip false rest <;> rfl

/-- A text has a tree exactly if it follows the grammar, and the tree has a pair for each function
that is read. -/
theorem ofText?_agrees (text : String) :
    Surface.functions? text = none ∧ ofText? text = none ∨
      ∃ trees t, Surface.functions? text = some trees ∧ ofText? text = some t ∧
        List.Forall₂ IsFunction trees (t.inside .function) := by
  obtain ⟨hall, hend, _⟩ := (agrees_item (n := text.toList.length) (Nat.le_succ _)).manyUpTo
    text.toList.length text.toList.length (weight_le _) rfl (weight_le _) (weight_le _)
  generalize hitems : manyUpTo Surface.item text.toList.length text.toList = items at hall hend
  have hfunctions : Surface.functions? text =
      if skip false items.2 = [] then some (items.1.filterMap id) else none := by
    subst hitems
    rfl
  rw [ofText?_eq rfl, hend, hfunctions]
  split
  · have hkept := forall₂_functions (Each.forall₂ (fun _ _ h => h) ⟨_, hall, rfl⟩)
    refine .inr ⟨_, _, rfl, rfl, ?_⟩
    rw [inside, children, List.filter_append]
    simpa [part] using hkept
  · exact .inl ⟨rfl, rfl⟩

end Pair

end Dataflow
