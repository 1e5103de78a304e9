import Dataflow.Proofs.Text.Closing
import Dataflow.Proofs.Text.PairModules

/-!
# Texts one after the other

Two texts that are read can be put one after the other with the end of a line between them, and what
is read then are the functions of the one and those of the other (`Module.read_append`). A text is a
sequence of functions and other lines (`Surface.Comprises`). A function ends with its brace whatever
follows, and what is passed over otherwise (a line, a comment, blanks) ends at the latest with the
line. So nothing of the second text is lost to the first.
-/

namespace Dataflow

open Reader Lexeme

namespace Surface

/-- A text comprises function definitions in an order, with other lines between them. -/
inductive Comprises : List Char → List FunctionText → Prop where
  /-- Nothing is left past blanks. -/
  | blank {s} : skip false s = [] → Comprises s []
  /-- A function definition comes first. -/
  | function {s g r gs} : function s = some (g, r) → Comprises r gs → Comprises s (g :: gs)
  /-- Another line comes first. -/
  | otherLine {s r gs} : otherLine s = some ((), r) → Comprises r gs → Comprises s gs

variable {s r u : List Char} {g : FunctionText} {gs hs : List FunctionText}

/-! ## Items -/

/-- A function may be read past blanks. -/
theorem function_skip (s : List Char) : function (skip false s) = function s := by
  change (keyword "define" >>= _) _ = (keyword "define" >>= _) _
  rw [bind_apply, bind_apply, keyword_eq, (takes_oneOf _).past]

/-- Another line does not start with the word `define`, and it is left at its end. -/
theorem otherLine_eq_some : otherLine s = some ((), r) ↔ skip false s ≠ [] ∧
    (skip false s).takeWhile Symbol.isNameChar ≠ "define".toList ∧
    (skip false s).dropWhile (· ≠ '\n') = r := by
  unfold otherLine lexeme
  rw [bind_apply, blanks, Option.bind_some]
  cases skip false s with
  | nil => simp
  | cons c t =>
      simp only
      split
      · rename_i hword
        exact iff_of_false (by simp) fun h => h.2.1 hword
      · rename_i hword
        exact ⟨fun h => ⟨List.cons_ne_nil c t, hword, congrArg Prod.snd (Option.some.inj h)⟩,
          fun h => by rw [h.2.2]⟩

/-- A line that is passed over is no function. -/
theorem function_eq_none (h : otherLine s = some ((), r)) : function s = none := by
  obtain ⟨_, hword, _⟩ := otherLine_eq_some.mp h
  have hkeyword : keyword "define" s = none := by
    rw [keyword, bind_apply]
    cases hfound : word s with
    | none => rfl
    | some u =>
        obtain ⟨hs, _, hall, hstop⟩ := run1_eq_some.mp hfound
        have hdefine : u.1 ≠ "define" := fun hdefine => hword <| by
          rw [hs, takeWhile_append_stop hstop,
            List.takeWhile_eq_self_iff.mpr (List.all_eq_true.mp hall), hdefine]
        rw [Option.bind_some, guard_eq, if_neg hdefine]
  change (keyword "define" >>= _) s = none
  rw [bind_apply, hkeyword]
  rfl

/-- A function definition is an item. -/
theorem item_of_function (h : function s = some (g, r)) : item s = some (some g, r) := by
  rw [item, orElse_apply, map_eq_pure_bind, bind_apply, h]
  rfl

/-- Another line is an item that is no function. -/
theorem item_of_otherLine (h : otherLine s = some ((), r)) : item s = some (none, r) := by
  rw [item, orElse_apply, map_eq_pure_bind, bind_apply, function_eq_none h, bind_apply, h]
  rfl

/-- Nothing is an item past the end. -/
theorem item_of_blank (h : skip false s = []) : item s = none := by
  have hfunction : function s = none := by rw [← function_skip, h]; rfl
  have hother : otherLine s = none := by
    rw [Option.eq_none_iff_forall_ne_some]
    exact fun u hu => (otherLine_eq_some.mp hu).1 h
  rw [item, orElse_apply, map_eq_pure_bind, bind_apply, hfunction, bind_apply, hother]
  rfl

/-- An item is a function or another line. -/
theorem item_eq_some {o : Option FunctionText} (h : item s = some (o, r)) :
    (∃ g, o = some g ∧ function s = some (g, r)) ∨ o = none ∧ otherLine s = some ((), r) := by
  rw [item, orElse_apply, map_eq_pure_bind, bind_apply, bind_apply] at h
  cases hfunction : function s with
  | some u =>
      rw [hfunction] at h
      cases h
      exact .inl ⟨u.1, rfl, rfl⟩
  | none =>
      rw [hfunction] at h
      obtain ⟨u, hu, h⟩ := Option.bind_eq_some_iff.mp h
      cases h
      exact .inr ⟨rfl, hu⟩

/-! ## Texts as sequences of items -/

/-- A text that is read to its end comprises the functions that were found. -/
theorem comprises_manyUpTo {bound : Nat}
    (h : skip false (manyUpTo item bound s).2 = []) :
    Comprises s ((manyUpTo item bound s).1.filterMap id) := by
  induction bound generalizing s with
  | zero => exact .blank h
  | succ bound ih =>
      rw [manyUpTo] at h ⊢
      cases hitem : item s with
      | none =>
          rw [hitem] at h
          exact .blank h
      | some u =>
          obtain ⟨o, r⟩ := u
          rw [hitem] at h
          obtain ⟨g, rfl, hg⟩ | ⟨rfl, hr⟩ := item_eq_some hitem
          · exact .function hg (ih h)
          · exact .otherLine hr (ih h)

/-- As often as there are characters is often enough. -/
theorem Comprises.manyUpTo (h : Comprises s gs) {bound : Nat} (hbound : s.length ≤ bound) :
    (Reader.manyUpTo item bound s).1.filterMap id = gs ∧
      skip false (Reader.manyUpTo item bound s).2 = [] := by
  induction h generalizing bound with
  | blank hs =>
      rw [manyUpTo_of_none (item_of_blank hs)]
      exact ⟨rfl, hs⟩
  | @function s g r gs hg _ ih =>
      have hshort := encloses_function.short hg
      obtain ⟨bound, rfl⟩ := Nat.exists_eq_add_one_of_ne_zero (n := bound) (by omega)
      obtain ⟨hgs, hend⟩ := ih (show r.length ≤ bound by omega)
      rw [Reader.manyUpTo, item_of_function hg]
      exact ⟨congrArg (g :: ·) hgs, hend⟩
  | @otherLine s r gs hr _ ih =>
      have hshort := (takes_otherLine.short hr).trans_le (weight_le s)
      obtain ⟨bound, rfl⟩ := Nat.exists_eq_add_one_of_ne_zero (n := bound) (by omega)
      rw [Reader.manyUpTo, item_of_otherLine hr]
      exact ih (by omega)

/-- The functions of a text are those that it comprises. -/
theorem functions?_eq_some {text : String} :
    functions? text = some gs ↔ Comprises text.toList gs := by
  change (if skip false (manyUpTo item text.toList.length text.toList).2 = [] then
    some ((manyUpTo item text.toList.length text.toList).1.filterMap id) else none) = some gs ↔ _
  constructor
  · intro h
    split at h
    · cases h
      exact comprises_manyUpTo ‹_›
    · cases h
  · intro h
    obtain ⟨hgs, hend⟩ := h.manyUpTo (Nat.le_refl _)
    rw [if_pos hend, hgs]

/-! ## One text after the other -/

/-- Where nothing is left past blanks, the end of a line ends a comment that may be open. -/
theorem skip_append_newline {inComment : Bool} (h : skip inComment s = []) (u : List Char) :
    skip inComment (s ++ '\n' :: u) = skip false u := by
  induction s generalizing inComment with
  | nil => cases inComment <;> rfl
  | cons c s ih =>
      rw [List.cons_append, skip]
      rw [skip] at h
      split
      · rw [if_pos ‹_›] at h
        exact ih h
      · rw [if_neg ‹_›] at h
        split
        · rw [if_pos ‹_›] at h
          exact ih h
        · rw [if_neg ‹_›] at h
          split
          · rw [if_pos ‹_›] at h
            exact ih h
          · rw [if_neg ‹_›] at h
            cases h

/-- Blanks in front change nothing. -/
theorem Comprises.congr (h : Comprises u gs) (hs : skip false s = skip false u) :
    Comprises s gs := by
  cases h with
  | blank hu => exact .blank (hs.trans hu)
  | function hg h =>
      refine .function ?_ h
      rw [← function_skip, hs, function_skip, hg]
  | otherLine hr h =>
      refine .otherLine ?_ h
      rw [← takes_otherLine.past, hs, takes_otherLine.past, hr]

/-- A line that is passed over ends with the line. -/
theorem otherLine_append (h : otherLine s = some ((), r)) (u : List Char) :
    otherLine (s ++ '\n' :: u) = some ((), r ++ '\n' :: u) := by
  obtain ⟨hne, hword, hrest⟩ := otherLine_eq_some.mp h
  refine otherLine_eq_some.mpr ?_
  rw [skip_append hne, takeWhile_append_stop (by simp; rfl), dropWhile_append_stop (by simp), hrest]
  exact ⟨List.append_ne_nil_of_left_ne_nil hne _, hword, rfl⟩

/-- What two texts comprise, one after the other comprises with the end of a line between them. -/
theorem Comprises.append (h : Comprises s gs) (hu : Comprises u hs) :
    Comprises (s ++ '\n' :: u) (gs ++ hs) := by
  induction h with
  | blank hs => exact hu.congr (skip_append_newline hs u)
  | function hg _ ih => exact .function (encloses_function.append hg _) ih
  | otherLine hr _ ih => exact .otherLine (otherLine_append hr u) ih

end Surface

/-! ## Modules -/

/-- A text is read if it comprises functions and all their names can be looked up. -/
theorem Module.read_eq_ok {text : String} {m : Module} : read text = .ok m ↔
    ∃ gs, Surface.Comprises text.toList gs ∧ gs.mapM (·.bind) = .ok m.functions := by
  simp only [read, ← Surface.functions?_eq_some]
  cases Surface.functions? text with
  | none => simp
  | some gs =>
      cases hfunctions : gs.mapM (·.bind) with
      | error e => simp [hfunctions]
      | ok functions =>
          simp only [Except.ok.injEq, Option.some.injEq, exists_eq_left', hfunctions]
          exact ⟨fun h => h ▸ rfl, fun h => by rw [h]⟩

/-- The functions of two texts that are read are read one after the other where the texts stand one
after the other, with the end of a line between them; and a function between the two texts is read
between their functions, whatever else stands around it. -/
theorem Module.read_append {A B : String} {m n : Module} (hA : read A = .ok m)
    (hB : read B = .ok n) :
    read (A ++ "\n" ++ B) = .ok { functions := m.functions ++ n.functions } ∧
      ∀ D g f, Surface.function D.toList = some (g, []) → g.bind = .ok f →
        read (A ++ "\n" ++ D ++ B) =
          .ok { functions := m.functions ++ f :: n.functions } := by
  obtain ⟨gs, hgs, hm⟩ := read_eq_ok.mp hA
  obtain ⟨hs, hhs, hn⟩ := read_eq_ok.mp hB
  have htext : ∀ C : String, (A ++ "\n" ++ C).toList = A.toList ++ '\n' :: C.toList := by
    intro C
    simp
  refine ⟨read_eq_ok.mpr ⟨gs ++ hs, ?_, ?_⟩, fun D g f hg hf =>
    read_eq_ok.mpr ⟨gs ++ g :: hs, ?_, ?_⟩⟩
  · rw [htext]
    exact hgs.append hhs
  · rw [List.mapM_append, hm, hn]
    rfl
  · rw [String.append_assoc, htext, String.toList_append]
    exact hgs.append (.function (Surface.encloses_function.append hg _) hhs)
  · rw [List.mapM_append, List.mapM_cons, hm, hn, hf]
    rfl

/-- A function that returns at once. -/
def idle (name : String) : Function where
  name := name
  ret := .void
  params := []
  blocks := [⟨"0", [0]⟩]
  slots := [⟨none, .ret none, 0⟩]

/-- A text that ends in a comment. -/
def commentedText : String :=
  "declare i32 @g(i32) ; define\ndefine void @a() \x7b\n  ret void ; \x7d\n\x7d ; no end"

/-- A text that starts with a global. -/
def startingGlobalText : String :=
  "@x = global i32 0\n\ndefine void @b() \x7b ret void \x7d declare"

/-- A text that is one function. -/
def idleText : String := "define void @c() \x7b ret void \x7d"

/-- A comment at the end of the first text does not reach into the second, and a global at the start
of the second is passed over. -/
theorem read_append_commented :
    Module.read commentedText = .ok ⟨[idle "a"]⟩ ∧
      Module.read startingGlobalText = .ok ⟨[idle "b"]⟩ ∧
      Module.read (commentedText ++ "\n" ++ startingGlobalText) = .ok ⟨[idle "a", idle "b"]⟩ ∧
      Module.read (commentedText ++ "\n" ++ idleText ++ startingGlobalText) =
        .ok ⟨[idle "a", idle "c", idle "b"]⟩ := by
  have hA : Module.read commentedText = .ok ⟨[idle "a"]⟩ := by decide +kernel
  have hB : Module.read startingGlobalText = .ok ⟨[idle "b"]⟩ := by decide +kernel
  obtain ⟨hboth, hbetween⟩ := Module.read_append hA hB
  exact ⟨hA, hB, hboth, hbetween idleText
    ⟨.named .void, "c", [], [⟨none, [⟨none, .ret none⟩]⟩]⟩ (idle "c") (by decide +kernel)
    (by decide +kernel)⟩

end Dataflow
