import Dataflow.Files.Tree
import Mathlib.Data.Option.Basic

/-!
# Writing files

What a tree holds after texts were written at paths, one after the other. Writing adds no directory,
so where a path leads does not depend on what was written before, and each file holds the last text
that was written where it is (`contents?_writeAll`). A name without a slash, put behind the path of
a directory, leads to an entry of that directory and nowhere else (`target?_inside`).
-/

namespace Dataflow

namespace Path

variable {cs : List Char} {directory name : String}

theorem split_cons_slash : split ('/' :: cs) = [] :: split cs := by simp [split]

/-- A path has at least one part. -/
theorem split_ne_nil (cs : List Char) : split cs ≠ [] := by
  cases cs with
  | nil => simp [split]
  | cons c rest =>
    unfold split
    split
    · simp
    · split <;> simp

/-- A character that is no slash belongs to the first step. -/
theorem split_cons {c : Char} (hc : c ≠ '/') {first : List Char} {rest : List (List Char)}
    (h : split cs = first :: rest) : split (c :: cs) = (c :: first) :: rest := by
  rw [split, if_neg hc, h]

/-- A name without a slash is one part. -/
theorem split_eq_self (h : '/' ∉ cs) : split cs = [cs] := by
  induction cs with
  | nil => rfl
  | cons c cs ih =>
    rw [List.mem_cons, not_or] at h
    exact split_cons (Ne.symm h.1) (ih h.2)

/-- A slash parts the steps before it from those behind it. -/
theorem split_append_slash (cs ds : List Char) :
    split (cs ++ '/' :: ds) = split cs ++ split ds := by
  induction cs with
  | nil => exact split_cons_slash
  | cons c cs ih =>
    by_cases hc : c = '/'
    · rw [hc, List.cons_append, split_cons_slash, split_cons_slash, ih, List.cons_append]
    · obtain ⟨first, rest, h⟩ := List.exists_cons_of_ne_nil (split_ne_nil cs)
      rw [h, List.cons_append] at ih
      rw [List.cons_append, split_cons hc ih, split_cons hc h, List.cons_append]

/-- A slash separates the steps of a path. -/
theorem steps_append_slash (a b : String) : steps (a ++ "/" ++ b) = steps a ++ steps b := by
  have h : (a ++ "/" ++ b).toList = a.toList ++ '/' :: b.toList := by simp
  rw [steps, h, split_append_slash, List.map_append, steps, steps]

theorem steps_eq_self (h : '/' ∉ name.toList) : steps name = [name] := by
  rw [steps, split_eq_self h, List.map_singleton, String.ofList_toList]

theorem isAbsolute_eq_false (h : '/' ∉ name.toList) : isAbsolute name = false := by
  rw [isAbsolute, decide_eq_false_iff_not]
  intro hhead
  exact h (List.mem_of_head? hhead)

/-- A path is absolute when its first part is. -/
theorem isAbsolute_append (a b : String) (ha : a ≠ "") : isAbsolute (a ++ b) = isAbsolute a := by
  obtain ⟨c, cs, h⟩ := List.exists_cons_of_ne_nil (show a.toList ≠ [] by simpa using ha)
  rw [isAbsolute, isAbsolute, String.toList_append, h, List.cons_append, List.head?_cons,
    List.head?_cons]

/-- Something in a directory starts where the path of the directory starts. -/
theorem isAbsolute_inside (hd : directory ≠ "") (hn : '/' ∉ name.toList) :
    isAbsolute (inside directory name) = isAbsolute directory := by
  rw [inside, isAbsolute_eq_false hn, if_neg Bool.false_ne_true]
  split
  · exact isAbsolute_append _ _ hd
  · rw [String.append_assoc, isAbsolute_append _ _ hd]

/-- A name in a directory is one step more than the path of the directory, up to steps that stay. -/
theorem steps_inside (directory : String) (hn : '/' ∉ name.toList) :
    ∃ way, steps (inside directory name) = way ++ [name] ∧
      (steps directory = way ∨ steps directory = way ++ [""]) := by
  rw [inside, isAbsolute_eq_false hn, if_neg Bool.false_ne_true]
  split
  case isTrue h =>
    obtain ⟨front, hfront⟩ := List.getLast?_eq_some_iff.mp h
    have hd : directory = String.ofList front ++ "/" := by
      rw [← String.toList_inj, hfront]; simp
    refine ⟨steps (String.ofList front), ?_, .inr ?_⟩
    · rw [hd, steps_append_slash, steps_eq_self hn]
    · have h := steps_append_slash (String.ofList front) ""
      rw [String.append_empty, ← hd] at h
      exact h
  case isFalse =>
    exact ⟨steps directory, by rw [steps_append_slash, steps_eq_self hn], .inl rfl⟩

end Path

namespace FileTree

variable {t u : FileTree} {l k d here : Location} {steps : List String} {path text : String}

/-! ## Following steps -/

/-- A path is followed part by part. -/
theorem follow_append (t : FileTree) (l : Location) (a b : List String) :
    t.follow l (a ++ b) = (t.follow l a).bind (t.follow · b) := by
  induction a generalizing l with
  | nil => rfl
  | cons step a ih =>
    simp only [List.cons_append, follow]
    split
    · exact ih l
    · split
      · exact ih _
      · split
        · exact ih _
        · split <;> rfl

/-- With more directories, steps that led somewhere still lead there. -/
theorem follow_mono (h : ∀ k, t.isDirectory k → u.isDirectory k) (hd : t.follow l steps = .ok d) :
    u.follow l steps = .ok d := by
  induction steps generalizing l with
  | nil => exact hd
  | cons step steps ih =>
    rw [follow] at hd ⊢
    split at hd
    case isTrue still => rw [if_pos still]; exact ih hd
    case isFalse still =>
      rw [if_neg still]
      split at hd
      case isTrue up => rw [if_pos up]; exact ih hd
      case isFalse up =>
        rw [if_neg up]
        dsimp only at hd ⊢
        split at hd
        case isTrue there => rw [if_pos (h _ there)]; exact ih hd
        case isFalse => split at hd <;> cases hd

/-- Where steps lead depends on the directories alone. -/
theorem follow_congr (h : t.directories = u.directories) :
    t.follow l steps = .ok d ↔ u.follow l steps = .ok d :=
  ⟨follow_mono fun k hk => by rwa [isDirectory, ← h],
    follow_mono fun k hk => by rwa [isDirectory, h]⟩

/-- Steps that stay lead back to where they start. -/
theorem follow_of_still (t : FileTree) (l : Location) (h : ∀ step ∈ steps, Path.isStill step) :
    t.follow l steps = .ok l := by
  induction steps with
  | nil => rfl
  | cons step steps ih =>
    rw [follow, if_pos (h step List.mem_cons_self)]
    exact ih fun s hs => h s (List.mem_cons_of_mem _ hs)

/-- A path leads to an entry of a directory that the rest of it leads to. -/
theorem locate?_eq_some : t.locate? here path = some l ↔ ∃ name d,
    (Path.steps path).getLast? = some name ∧ Path.isUsable path ∧ Path.isEntryName name ∧
      t.follow (origin here path) (Path.steps path).dropLast = .ok d ∧ d ++ [name] = l := by
  have htoOption (d : Location) :
      (t.follow (origin here path) (Path.steps path).dropLast).toOption = some d ↔
        t.follow (origin here path) (Path.steps path).dropLast = .ok d := by
    cases t.follow (origin here path) (Path.steps path).dropLast <;> simp [Except.toOption]
  simp [locate?, Option.bind_eq_some_iff, Option.guard_eq_some', htoOption, and_assoc]

/-! ## Writing a text -/

/-- Where a text that is written at a path ends up, if it can be written there. -/
def target? (t : FileTree) (here : Location) (path : String) : Option Location :=
  (t.locate? here path).filter fun l => !t.isDirectory l

/-- Writing puts the text where the path leads. -/
theorem write?_eq (t : FileTree) (here : Location) (path text : String) :
    t.write? here path text = (t.target? here path).map fun l => t.put l text := by
  rw [write?, target?]
  cases t.locate? here path with
  | none => rfl
  | some l => cases h : t.isDirectory l <;> simp [h, guard, Option.filter]

/-- Where a text ends up depends on the directories alone. -/
theorem target?_congr (h : t.directories = u.directories) (here : Location) (path : String) :
    t.target? here path = u.target? here path := by
  have hlocate : t.locate? here path = u.locate? here path := by
    ext l
    simp only [locate?_eq_some, follow_congr h]
  have hdirectory : t.isDirectory = u.isDirectory := by funext l; rw [isDirectory, isDirectory, h]
  rw [target?, target?, hlocate, hdirectory]

/-- Writing a file makes no directory. -/
theorem directories_put (t : FileTree) (l : Location) (text : String) :
    (t.put l text).directories = t.directories := by
  unfold put
  split <;> rfl

/-- The file that was put holds its text, and every other file holds what it did. -/
theorem contents?_put (t : FileTree) (l k : Location) (text : String) :
    (t.put l text).contents? k = if k = l then some text else t.contents? k := by
  unfold put
  split
  case isTrue h =>
    let replace (e : Location × String) : Location × String := if e.1 = l then (l, text) else e
    have hkey : ((·.1 == k) ∘ replace : Location × String → Bool) = (·.1 == k) := by
      funext e
      simp only [Function.comp_apply, replace]
      split <;> simp [*]
    change ((t.files.map replace).find? (·.1 == k)).map (·.2) = _
    rw [List.find?_map, hkey]
    cases hfind : t.files.find? (·.1 == k) with
    | none =>
      have hk : k ≠ l := by
        rintro rfl
        simp [contents?, hfind] at h
      rw [if_neg hk, contents?, hfind]; rfl
    | some e =>
      have hkey : e.1 = k := by simpa using List.find?_some hfind
      by_cases hk : k = l
      · simp [replace, hkey, hk]
      · simp [replace, hkey, hk, contents?, hfind]
  case isFalse h =>
    rw [Option.not_isSome_iff_eq_none] at h
    rw [contents?, List.find?_append, Option.map_or, ← contents?]
    by_cases hk : k = l
    · simp [hk, h]
    · have : l ≠ k := Ne.symm hk
      simp [hk, this]

/-! ## Writing texts one after the other -/

/-- Writes texts at paths, one after the other. A text that cannot be written is passed over. -/
def writeAll (t : FileTree) (here : Location) : List (String × String) → FileTree
  | [] => t
  | (path, text) :: rest => ((t.write? here path text).getD t).writeAll here rest

variable {texts : List (String × String)}

theorem directories_writeAll (t : FileTree) (here : Location) (texts : List (String × String)) :
    (t.writeAll here texts).directories = t.directories := by
  induction texts generalizing t with
  | nil => rfl
  | cons e texts ih =>
    rw [writeAll, ih, write?_eq]
    cases t.target? here e.1 with
    | none => rfl
    | some l => exact directories_put t l e.2

theorem writeAll_append (t : FileTree) (here : Location) (texts more : List (String × String)) :
    t.writeAll here (texts ++ more) = (t.writeAll here texts).writeAll here more := by
  induction texts generalizing t with
  | nil => rfl
  | cons e texts ih => exact ih _

/-- Whether a text can be written does not depend on what was written before. -/
theorem isSome_write?_writeAll :
    ((t.writeAll here texts).write? here path text).isSome = (t.target? here path).isSome := by
  rw [write?_eq, Option.isSome_map, target?_congr (directories_writeAll t here texts)]

/-- A file holds the last text that was written where it is, or else what it held before. -/
theorem contents?_writeAll (t : FileTree) (here : Location) (texts : List (String × String))
    (l : Location) : (t.writeAll here texts).contents? l =
      (((texts.filter fun e => t.target? here e.1 = some l).getLast?).map (·.2)).or
        (t.contents? l) := by
  induction texts generalizing t with
  | nil => rfl
  | cons e texts ih =>
    obtain ⟨path, text⟩ := e
    rw [writeAll, ih, write?_eq]
    cases htarget : t.target? here path with
    | none => simp [htarget]
    | some k =>
      simp only [Option.map_some, Option.getD_some, target?_congr (directories_put t k text),
        contents?_put, htarget, Option.some.injEq, List.filter_cons, decide_eq_true_eq]
      by_cases hk : k = l
      · rw [if_pos hk, if_pos hk.symm, List.getLast?_cons]
        cases (texts.filter fun e => t.target? here e.1 = some l).getLast? <;> rfl
      · rw [if_neg hk, if_neg (Ne.symm hk)]

/-! ## Directories -/

variable {directory name : String} {output : Location} {paths : List (List String)}

/-- A name without a slash leads to an entry of the directory that it is put in. The text can be
written there unless the path or the name is of no use, or a directory has the name. -/
theorem target?_inside (hd : directory ≠ "") (hn : '/' ∉ name.toList)
    (hout : t.follow (origin here directory) (Path.steps directory) = .ok output) :
    t.target? here (Path.inside directory name) =
      if Path.isUsable (Path.inside directory name) && Path.isEntryName name &&
          !t.isDirectory (output ++ [name]) then some (output ++ [name]) else none := by
  obtain ⟨way, hsteps, hway⟩ := Path.steps_inside directory hn
  have horigin : origin here (Path.inside directory name) = origin here directory := by
    rw [origin, origin, Path.isAbsolute_inside hd hn]
  have hfollow : t.follow (origin here directory) way = .ok output := by
    rcases hway with h | h
    · rw [← h, hout]
    · rw [h, follow_append] at hout
      cases hdirectory : t.follow (origin here directory) way with
      | error obstacle => rw [hdirectory] at hout; cases hout
      | ok d => rw [hdirectory] at hout; exact hout
  have hlocate (l : Location) : t.locate? here (Path.inside directory name) = some l ↔
      Path.isUsable (Path.inside directory name) ∧ Path.isEntryName name ∧
        output ++ [name] = l := by
    rw [locate?_eq_some, horigin, hsteps, List.getLast?_concat, List.dropLast_concat, hfollow]
    simp
  ext l
  rw [target?, Option.filter_eq_some_iff, hlocate, Option.ite_none_right_eq_some,
    Option.some.injEq, Bool.and_eq_true, Bool.and_eq_true]
  constructor
  · rintro ⟨⟨husable, hname, rfl⟩, hfree⟩
    exact ⟨⟨⟨husable, hname⟩, hfree⟩, rfl⟩
  · rintro ⟨⟨⟨husable, hname⟩, hfree⟩, rfl⟩
    exact ⟨⟨husable, hname, rfl⟩, hfree⟩

/-- Making a directory leaves the tree as it is, because the steps lead to a directory that is
there, or adds the one directory that they lead to. -/
theorem makeDirectory_cases (h : t.makeDirectory l steps = .ok u) :
    u = t ∧ (∃ d, t.follow l steps = .ok d) ∨
      ∃ way name d, steps = way ++ [name] ∧ ¬ Path.isStill name ∧ name ≠ ".." ∧
        t.follow l way = .ok d ∧ u = { t with directories := t.directories ++ [d ++ [name]] } := by
  rcases List.eq_nil_or_concat steps with rfl | ⟨way, name, rfl⟩
  · cases h
    exact .inl ⟨rfl, l, rfl⟩
  rw [List.concat_eq_append] at h ⊢
  rw [makeDirectory, List.dropLast_concat, List.getLast?_concat] at h
  cases hd : t.follow l way with
  | error obstacle => rw [hd] at h; cases h
  | ok d =>
  rw [hd] at h
  change (if _ then _ else _) = _ at h
  simp only [Bool.or_eq_true, decide_eq_true_eq] at h
  split at h
  case isTrue hthere =>
    cases h
    refine .inl ⟨rfl, ?_⟩
    rw [follow_append, hd]
    change ∃ e, t.follow d [name] = .ok e
    by_cases hmove : Path.isStill name ∨ name = ".."
    · rcases hmove with hstill | rfl
      · exact ⟨d, by simp [follow, hstill]⟩
      · exact ⟨d.dropLast, by simp [follow, Path.isStill]⟩
    · rw [not_or] at hmove
      have hnext : t.isDirectory (d ++ [name]) := hthere.resolve_left (not_or.mpr hmove)
      exact ⟨d ++ [name], by simp [follow, hmove, hnext]⟩
  case isFalse hnew =>
    rw [not_or, not_or] at hnew
    split at h
    · cases h
    · cases h
      exact .inr ⟨way, name, d, rfl, hnew.1.1, hnew.1.2, hd, rfl⟩

/-- Making a directory leaves the files alone. -/
theorem files_makeDirectory (h : t.makeDirectory l steps = .ok u) : u.files = t.files := by
  obtain ⟨rfl, _⟩ | ⟨_, _, _, _, _, _, _, rfl⟩ := makeDirectory_cases h <;> rfl

/-- Steps lead somewhere once the directory that they lead to was made. -/
theorem follow_makeDirectory (h : t.makeDirectory l steps = .ok u) :
    ∃ d, u.follow l steps = .ok d := by
  obtain ⟨rfl, hd⟩ | ⟨way, name, d, rfl, hstill, hup, hd, rfl⟩ := makeDirectory_cases h
  · exact hd
  · refine ⟨d ++ [name], ?_⟩
    have hway : follow { t with directories := t.directories ++ [d ++ [name]] } l way = .ok d :=
      follow_mono (fun k hk => by
        simp only [isDirectory, Bool.or_eq_true, List.contains_eq_mem, decide_eq_true_eq] at hk ⊢
        exact hk.imp_right (List.mem_append_left _)) hd
    rw [follow_append, hway]
    simp [Except.bind, follow, hstill, hup, isDirectory]

theorem files_makeNested (t : FileTree) (l : Location) (paths : List (List String)) :
    (t.makeNested l paths).1.files = t.files := by
  induction paths with
  | nil => rfl
  | cons steps shorter ih =>
    rw [makeNested]
    split
    case h_1 u h => exact files_makeDirectory h
    case h_2 => rfl
    case h_3 =>
      dsimp only
      split
      case h_1 u hu => exact (files_makeDirectory hu).trans ih
      case h_2 => exact ih

/-- A directory that was made can be followed to. -/
theorem follow_makeNested (h : (t.makeNested l (steps :: paths)).2 = true) :
    ∃ d, (t.makeNested l (steps :: paths)).1.follow l steps = .ok d := by
  rw [makeNested] at h ⊢
  split at h
  case h_1 u hu => exact follow_makeDirectory hu
  case h_2 => cases h
  case h_3 =>
    dsimp only at h ⊢
    split at h
    case h_1 u hu => exact follow_makeDirectory hu
    case h_2 => cases h

theorem files_makeDirectories (t : FileTree) (here : Location) (path : String) :
    (t.makeDirectories here path).1.files = t.files := by
  unfold makeDirectories
  split
  · rfl
  · split
    · exact files_makeNested t _ _
    · rfl

/-- The steps at the end of a path that stay where they are may be left out. -/
theorem steps_eq_withoutTail (steps : List String) :
    ∃ tail, steps = Path.withoutTail steps ++ tail ∧ ∀ step ∈ tail, Path.isStill step := by
  refine ⟨(steps.reverse.takeWhile (·.isEmpty)).reverse, ?_, fun step h => ?_⟩
  · rw [Path.withoutTail, ← List.reverse_append, List.takeWhile_append_dropWhile,
      List.reverse_reverse]
  · have hempty : step.isEmpty :=
      List.all_eq_true.mp List.all_takeWhile step (List.mem_reverse.mp h)
    rw [String.isEmpty_iff] at hempty
    rw [hempty]
    rfl

/-- The path of a directory leads somewhere once the directory was made. -/
theorem follow_makeDirectories (h : (t.makeDirectories here path).2 = true) :
    ∃ d, (t.makeDirectories here path).1.follow (origin here path) (Path.steps path) = .ok d := by
  unfold makeDirectories at h ⊢
  split at h
  case isTrue horigin =>
    rw [if_pos horigin]
    refine ⟨_, follow_of_still t _ ?_⟩
    simp only [Path.isOrigin, Bool.or_eq_true, Bool.and_eq_true] at horigin
    rcases horigin with hempty | ⟨_, hmoves⟩
    · rw [String.isEmpty_iff] at hempty
      subst hempty
      decide
    · simpa [Path.moves] using hmoves
  case isFalse horigin =>
    rw [if_neg horigin]
    split at h
    case isTrue husable =>
      rw [if_pos husable]
      obtain ⟨d, hd⟩ := follow_makeNested h
      obtain ⟨tail, htail, hstill⟩ := steps_eq_withoutTail (Path.steps path)
      refine ⟨d, ?_⟩
      rw [htail, follow_append]
      rw [← Path.ancestry] at hd
      rw [hd]
      exact follow_of_still _ d hstill
    case isFalse => cases h

end FileTree

end Dataflow
