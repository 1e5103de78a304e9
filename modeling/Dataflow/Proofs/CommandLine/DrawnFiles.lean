import Dataflow.CommandLine.Workspace
import Dataflow.Proofs.CommandLine.Arguments
import Dataflow.Proofs.Files.Writing
import Mathlib.Data.List.Nodup
import Mathlib.Data.List.Pairwise
import Mathlib.Tactic.Choose

/-!
# The files of a drawing

Which files a run that draws every function leaves behind. The name of a function is put behind the
path of the output directory as it is. Names without a slash lead to files of that directory, one
for each name; a name such as `../a` leads out of the directory (`leaving_run`), and functions that
lead to one file overwrite each other there. So each function has a file of its own in the directory
if the names have no slash and are apart (`Workspace.run_leaves`).
-/

namespace Dataflow.CommandLine

/-! ## What a run writes -/

variable {w : Workspace} {r : Request} {drawing : Drawing} {directory : String}
  {functions : List Function}

/-- The path of the file that a function is drawn into. -/
def Drawing.path (d : Drawing) (directory : String) (f : Function) : String :=
  Path.inside directory (f.name ++ d.ending)

/-- The texts that are written for functions, each with its path. -/
def Drawing.texts (d : Drawing) (directory : String) (functions : List Function) :
    List (String × String) :=
  functions.filterMap fun f => (d.draw f).1.map fun picture => (d.path directory f, picture)

/-- The workspace after some texts were written. -/
def Workspace.written (w : Workspace) (texts : List (String × String)) : Workspace :=
  { w with tree := w.tree.writeAll w.here texts }

/-- What a workspace has at a source. -/
def Workspace.text? (w : Workspace) : Source → Option String
  | .text text => some text
  | .file path => w.tree.read? w.here path

/-- What is told in a workspace is not kept. -/
theorem tell_eq (verbosity : Nat) (level : Level) (text : String) :
    (tell verbosity level text : StateM Workspace Unit) = pure () := by
  unfold tell
  split <;> rfl

/-- So is a whole journal. -/
theorem tellAll_eq (verbosity : Nat) (journal : Journal) :
    (tellAll verbosity journal : StateM Workspace Unit) = pure () := by
  unfold tellAll
  simp only [tell_eq]
  induction journal with
  | nil => rfl
  | cons e journal ih => simpa using ih

/-- A file that is written is in the tree, where the tree has a place for it. -/
theorem write_eq (path picture : String) :
    (Host.write path picture : StateM Workspace Bool) = fun w =>
      ((w.tree.write? w.here path picture).isSome, w.written [(path, picture)]) := by
  funext w
  simp only [Host.write, Workspace.written, FileTree.writeAll, bind, StateT.bind, get, getThe,
    MonadStateOf.get, StateT.get, pure]
  cases w.tree.write? w.here path picture <;> rfl

/-- A function is drawn by writing its text. -/
theorem drawFunction_eq (verbosity : Nat) (drawing : Drawing) (directory : String) (f : Function) :
    (drawFunction verbosity drawing directory f : StateM Workspace Unit) =
      modify (·.written (drawing.texts directory [f])) := by
  rcases hdraw : drawing.draw f with ⟨_ | picture, journal⟩ <;>
    simp only [drawFunction, Drawing.texts, List.filterMap_cons, List.filterMap_nil, hdraw,
      Option.map_none, Option.map_some, tellAll_eq, tell_eq, pure_bind, write_eq, ite_self]
  · rfl
  · rfl

/-- Functions are drawn by writing their texts in order. -/
theorem forM_drawFunction (verbosity : Nat) (drawing : Drawing) (directory : String)
    (functions : List Function) :
    (functions.forM (drawFunction verbosity drawing directory) : StateM Workspace Unit) =
      modify (·.written (drawing.texts directory functions)) := by
  induction functions with
  | nil => rfl
  | cons f functions ih =>
    have htexts : drawing.texts directory (f :: functions) =
        drawing.texts directory [f] ++ drawing.texts directory functions :=
      List.filterMap_append (l := [f])
    rw [List.forM, drawFunction_eq, ih, htexts]
    funext w
    change ((), (w.written _).written _) = ((), w.written _)
    rw [Workspace.written, Workspace.written, Workspace.written, FileTree.writeAll_append]

/-- A source is read without a change to the workspace. -/
theorem Source.read_eq (source : Source) :
    (source.read : StateM Workspace (Option String)) = fun w => (w.text? source, w) := by
  cases source <;> rfl

/-- The job of drawing every function of a module: the directory is made, and if that works, the
functions are written in turn. -/
theorem Job.run_draw (verbosity : Nat) (m : Module) (drawing : Drawing) (directory : String) :
    (Job.run verbosity m (.draw drawing directory none) : StateM Workspace Outcome) = fun w =>
      let made := w.tree.makeDirectories w.here directory
      if made.2 then
        (.done, { w with tree := made.1 }.written (drawing.texts directory m.functions))
      else (.failed, { w with tree := made.1 }) := by
  simp only [Job.run, Module.select, forM_drawFunction, tell_eq]
  funext w
  have hmake : (Host.makeDirectories directory : StateM Workspace Bool) w =
      ((w.tree.makeDirectories w.here directory).2,
        { w with tree := (w.tree.makeDirectories w.here directory).1 }) := rfl
  simp only [bind, StateT.bind, hmake]
  cases (w.tree.makeDirectories w.here directory).2 <;> rfl

/-- A request reads its text and checks it, and its job works on the transformed module. -/
theorem Request.run_eq (r : Request) : (r.run : StateM Workspace Outcome) = fun w =>
    match (w.text? r.source).map Module.readChecked with
    | some (.ok m) =>
      (r.job.run r.verbosity (m.transform r.transform).module : StateM Workspace Outcome) w
    | _ => (.failed, w) := by
  simp only [Request.run, Source.read_eq, tell_eq, tellAll_eq, pure_bind, ite_self]
  funext w
  simp only [bind, StateT.bind]
  cases w.text? r.source with
  | none => rfl
  | some text =>
    simp only [Option.map_some]
    cases Module.readChecked text with
    | error failure => rfl
    | ok m => cases (m.transform r.transform).changed <;> rfl

/-- A run that draws every function, and is through. -/
theorem Workspace.run_draw {arguments : List String}
    (hr : Request.ofArguments arguments = .ok r) (hjob : r.job = .draw drawing directory none)
    (hdone : (w.run arguments).1 = .done) :
    ∃ text m, w.text? r.source = some text ∧ Module.readChecked text = .ok m ∧
      (w.tree.makeDirectories w.here directory).2 = true ∧
      (w.run arguments).2 =
        { w with tree := (w.tree.makeDirectories w.here directory).1 }.written
          (drawing.texts directory (m.transform r.transform).module.functions) := by
  have hrun : w.run arguments = (r.run : StateM Workspace Outcome) w := by
    rw [run, CommandLine.run, hr]; rfl
  rw [hrun, Request.run_eq, hjob] at hdone ⊢
  simp only [Job.run_draw] at hdone ⊢
  split at hdone
  case h_1 m hm =>
    obtain ⟨text, htext, hread⟩ := Option.map_eq_some_iff.mp hm
    refine ⟨text, m, htext, hread, ?_⟩
    split at hdone
    case isTrue hmade => exact ⟨hmade, by rw [if_pos hmade]⟩
    case isFalse => cases hdone
  case h_2 => cases hdone

/-! ## Where the files are -/

variable {before after : FileTree} {here output l : Location} {f g : Function}

namespace Drawing

/-- Where the file of a function ends up, if it can be written. -/
def place? (d : Drawing) (t : FileTree) (here : Location) (directory : String) (f : Function) :
    Option Location := t.target? here (d.path directory f)

/-- Two functions do not share a file. -/
def Apart (d : Drawing) (t : FileTree) (here : Location) (directory : String) (f g : Function) :
    Prop := ∀ l, d.place? t here directory f = some l → d.place? t here directory g ≠ some l

/-- Being apart is symmetric. -/
instance (d : Drawing) (t : FileTree) (here : Location) (directory : String) :
    Std.Symm (d.Apart t here directory) := ⟨fun _ _ h l hg hf => h l hf hg⟩

/-- The last of some functions whose file ends up at a location. -/
def lastAt? (d : Drawing) (t : FileTree) (here : Location) (directory : String)
    (functions : List Function) (l : Location) : Option Function :=
  (functions.filter fun f => d.place? t here directory f = some l).getLast?

/-- Each function that can be written has a file of its own right in the directory at `output`, and
no other file was touched. -/
structure Fills (d : Drawing) (here : Location) (directory : String) (functions : List Function)
    (output : Location) (before after : FileTree) : Prop where
  /-- No two functions share a file. -/
  apart : functions.Pairwise (d.Apart after here directory)
  /-- The file of a function is in the directory and holds its drawing. -/
  holds : ∀ f ∈ functions, ∀ l, d.place? after here directory f = some l →
    (∃ name, l = output ++ [name]) ∧ after.contents? l = (d.draw f).1
  /-- Outside of the directory, files are as they were. -/
  rest : ∀ l, (¬ ∃ name, l = output ++ [name]) → after.contents? l = before.contents? l

/-- What drawing functions into a directory leaves of a file tree. The path of the directory leads
to `output`. -/
structure Leaves (d : Drawing) (here : Location) (directory : String) (functions : List Function)
    (output : Location) (before after : FileTree) : Prop where
  /-- The directory is there. -/
  leads : after.follow (FileTree.origin here directory) (Path.steps directory) = .ok output
  /-- No directories were made but this one and those on the way to it. -/
  directories : after.directories = (before.makeDirectories here directory).1.directories
  /-- A function is written in its turn exactly if its path leads to a place for a file. -/
  succeeds : ∀ earlier f later, functions = earlier ++ f :: later → ∀ picture,
    (((before.makeDirectories here directory).1.writeAll here
      (d.texts directory earlier)).write? here (d.path directory f) picture).isSome =
        (d.place? after here directory f).isSome
  /-- A file holds the drawing of the last function that has its place there, or what it held. -/
  contents : ∀ l, after.contents? l =
    ((d.lastAt? after here directory functions l).bind fun f => (d.draw f).1).or
      (before.contents? l)
  /-- A name without a slash gives the name of an entry of the directory. -/
  place : ∀ f ∈ functions, '/' ∉ f.name.toList → d.place? after here directory f =
    if Path.isUsable (d.path directory f) && Path.isEntryName (f.name ++ d.ending) &&
      !after.isDirectory (output ++ [f.name ++ d.ending])
    then some (output ++ [f.name ++ d.ending]) else none
  /-- Each function has its own file in the directory exactly if the places are apart and there. -/
  fills_iff : d.Fills here directory functions output before after ↔
    functions.Pairwise (d.Apart after here directory) ∧
      ∀ f ∈ functions, ∀ l, d.place? after here directory f = some l → ∃ name, l = output ++ [name]
  /-- Names without a slash that are apart keep the functions apart and in the directory. -/
  fills : (∀ f ∈ functions, '/' ∉ f.name.toList) → (functions.map (·.name)).Nodup →
    d.Fills here directory functions output before after

variable (hd : ∀ options, drawing ≠ .pages options)

include hd in
/-- Every function has a picture. -/
theorem draw_isSome (f : Function) : ∃ picture, (drawing.draw f).1 = some picture := by
  cases drawing with
  | dataflow options => exact ⟨_, rfl⟩
  | controlFlow => exact ⟨_, rfl⟩
  | pages options => exact absurd rfl (hd options)

/-- No ending of a file has a slash. -/
theorem slash_not_mem_ending (d : Drawing) : '/' ∉ d.ending.toList := by
  cases d <;> simp [ending]

/-- The place of a function whose name has no slash. -/
theorem place?_of_flat (hdirectory : directory ≠ "") (hf : '/' ∉ f.name.toList)
    (hleads : after.follow (FileTree.origin here directory) (Path.steps directory) = .ok output) :
    drawing.place? after here directory f =
      if Path.isUsable (drawing.path directory f) && Path.isEntryName (f.name ++ drawing.ending) &&
        !after.isDirectory (output ++ [f.name ++ drawing.ending])
      then some (output ++ [f.name ++ drawing.ending]) else none := by
  have hname : '/' ∉ (f.name ++ drawing.ending).toList := by
    rw [String.toList_append, List.mem_append, not_or]
    exact ⟨hf, slash_not_mem_ending drawing⟩
  rw [place?, path, FileTree.target?_inside hdirectory hname hleads]

/-- A place that some function is drawn to has a last one. -/
theorem lastAt?_isSome (hf : f ∈ functions)
    (h : drawing.place? after here directory f = some l) :
    ∃ last, drawing.lastAt? after here directory functions l = some last := by
  have hmem : f ∈ functions.filter fun f => drawing.place? after here directory f = some l :=
    List.mem_filter.mpr ⟨hf, by simpa using h⟩
  exact ⟨_, List.getLast?_eq_some_getLast (List.ne_nil_of_mem hmem)⟩

/-- The last function for a place is drawn to that place. -/
theorem lastAt?_spec (h : drawing.lastAt? after here directory functions l = some f) :
    f ∈ functions ∧ drawing.place? after here directory f = some l := by
  simpa using List.mem_filter.mp (List.mem_of_getLast? h)

/-- Where no two functions share a file, a place tells the function. -/
theorem eq_of_place (hapart : functions.Pairwise (drawing.Apart after here directory))
    (hf : f ∈ functions) (hg : g ∈ functions)
    (h : drawing.place? after here directory f = some l)
    (h' : drawing.place? after here directory g = some l) : f = g := by
  by_contra hne
  exact hapart.forall hf hg hne l h h'

include hd in
/-- After writing, a place holds the picture of the last function that is drawn to it, or what it
held before. -/
theorem contents?_writeAll (t : FileTree) (l : Location) :
    (t.writeAll here (drawing.texts directory functions)).contents? l =
      ((drawing.lastAt? t here directory functions l).bind fun f => (drawing.draw f).1).or
        (t.contents? l) := by
  choose picture hpicture using draw_isSome hd
  have htexts : drawing.texts directory functions =
      functions.map fun f => (drawing.path directory f, picture f) := by
    simp only [texts, hpicture, Option.map_some]
    rw [List.filterMap_eq_map']
  rw [FileTree.contents?_writeAll, htexts, List.filter_map, List.getLast?_map, Option.map_map]
  simp only [hpicture]
  rw [Option.map_eq_bind]
  rfl

include hd in
/-- What files hold follows from the places of the functions. -/
theorem fills_iff_places (hcontents : ∀ l, after.contents? l =
      ((drawing.lastAt? after here directory functions l).bind fun f => (drawing.draw f).1).or
        (before.contents? l)) :
    drawing.Fills here directory functions output before after ↔
      functions.Pairwise (drawing.Apart after here directory) ∧
        ∀ f ∈ functions, ∀ l, drawing.place? after here directory f = some l →
          ∃ name, l = output ++ [name] := by
  refine ⟨fun h => ⟨h.apart, fun f hf l hl => (h.holds f hf l hl).1⟩, fun ⟨hapart, hinside⟩ =>
    ⟨hapart, fun f hf l h => ⟨hinside f hf l h, ?_⟩, fun l hl => ?_⟩⟩
  · obtain ⟨last, hlast⟩ := lastAt?_isSome hf h
    obtain ⟨hmem, hplace⟩ := lastAt?_spec hlast
    obtain rfl : last = f := eq_of_place hapart hmem hf hplace h
    obtain ⟨picture, hpicture⟩ := draw_isSome hd last
    rw [hcontents, hlast, Option.bind_some, hpicture, Option.some_or]
  · have hnone : drawing.lastAt? after here directory functions l = none := by
      rw [Option.eq_none_iff_forall_ne_some]
      intro f hlast
      obtain ⟨hf, hplace⟩ := lastAt?_spec hlast
      exact hl (hinside f hf l hplace)
    rw [hcontents, hnone, Option.bind_none, Option.none_or]

/-- Functions whose places bear their names are apart if the names are. -/
theorem apart_of_names (hnames : (functions.map (·.name)).Nodup)
    (hplace : ∀ f ∈ functions, ∀ l, drawing.place? after here directory f = some l →
      l = output ++ [f.name ++ drawing.ending]) :
    functions.Pairwise (drawing.Apart after here directory) := by
  rw [List.Nodup, List.pairwise_map] at hnames
  refine hnames.imp_of_mem fun hf hg hne l h h' => hne ?_
  have hlocation := (hplace _ hf l h).symm.trans (hplace _ hg l h')
  simpa using hlocation

include hd in
/-- What writing leaves behind is what a run of the command leaves. -/
theorem leaves_writeAll (hdirectory : directory ≠ "")
    (hmade : (before.makeDirectories here directory).2 = true)
    (hafter : after = (before.makeDirectories here directory).1.writeAll here
      (drawing.texts directory functions)) :
    ∃ output, drawing.Leaves here directory functions output before after := by
  have hdirectories :
      after.directories = (before.makeDirectories here directory).1.directories := by
    rw [hafter, FileTree.directories_writeAll]
  obtain ⟨output, hleads⟩ := FileTree.follow_makeDirectories hmade
  replace hleads := (FileTree.follow_congr hdirectories).mpr hleads
  have hplace : drawing.place? (before.makeDirectories here directory).1 here directory =
      drawing.place? after here directory :=
    funext fun f => FileTree.target?_congr hdirectories.symm ..
  have hcontents (l : Location) : after.contents? l =
      ((drawing.lastAt? after here directory functions l).bind fun f => (drawing.draw f).1).or
        (before.contents? l) := by
    have hbefore : (before.makeDirectories here directory).1.contents? l = before.contents? l := by
      rw [FileTree.contents?, FileTree.files_makeDirectories, FileTree.contents?]
    rw [hafter, contents?_writeAll hd, hbefore, ← hafter, lastAt?, hplace, lastAt?]
  refine ⟨output, hleads, hdirectories, fun earlier f later _ picture => ?_, hcontents,
    fun f _ hf => place?_of_flat hdirectory hf hleads, fills_iff_places hd hcontents,
    fun hflat hnames => ?_⟩
  · rw [FileTree.isSome_write?_writeAll, ← hplace, place?]
  · have hnamed (f : Function) (hf : f ∈ functions) (l : Location)
        (h : drawing.place? after here directory f = some l) :
        l = output ++ [f.name ++ drawing.ending] := by
      rw [place?_of_flat hdirectory (hflat f hf) hleads, Option.ite_none_right_eq_some] at h
      exact (Option.some.inj h.2).symm
    exact (fills_iff_places hd hcontents).mpr ⟨apart_of_names hnames hnamed,
      fun f hf l h => ⟨_, hnamed f hf l h⟩⟩

end Drawing

/-- What a run that draws every function leaves behind, whatever the names of the functions are. -/
theorem Workspace.run_leaves {arguments : List String}
    (hr : Request.ofArguments arguments = .ok r) (hjob : r.job = .draw drawing directory none)
    (hd : ∀ options, drawing ≠ .pages options) (hdone : (w.run arguments).1 = .done) :
    ∃ text m output, w.text? r.source = some text ∧ Module.readChecked text = .ok m ∧
      drawing.Leaves w.here directory (m.transform r.transform).module.functions output w.tree
        (w.run arguments).2.tree := by
  obtain ⟨text, m, htext, hread, hmade, hrun⟩ := Workspace.run_draw hr hjob hdone
  have hdirectory : directory ≠ "" := by
    have := Request.directoryNamed hr
    rwa [hjob] at this
  obtain ⟨output, hleaves⟩ : ∃ output, drawing.Leaves w.here directory
      (m.transform r.transform).module.functions output w.tree (w.run arguments).2.tree :=
    Drawing.leaves_writeAll hd hdirectory hmade (by rw [hrun]; rfl)
  exact ⟨text, m, output, htext, hread, hleaves⟩

/-- A function of the given name that only returns. -/
def returning (name : String) : Function where
  name := name
  ret := .void
  params := []
  blocks := [⟨"entry", [0]⟩]
  slots := [⟨none, .ret none, 0⟩]

/-- The text of `returning`. -/
def returningText (name : String) : String :=
  "define void @\"" ++ name ++ "\"() \x7b\nentry:\n  ret void\n\x7d\n"

/-- A directory with one file. -/
def keeping : Workspace where
  program := "dataflow"
  tree := { directories := [["work"]], files := [(["work", "a.dot"], "keep")] }
  here := ["work"]

/-- The arguments that ask for the dataflow graphs of a text. -/
def drawingArguments (text : String) : List String := ["dfg", "--input", text, "--output", "out"]

/-- The text of two functions. -/
def twoReturningText : String := returningText "f" ++ returningText "g"

/-- Two functions get a file each in the output directory. -/
theorem run_leaves_twoReturning :
    Drawing.Fills (.dataflow {}) ["work"] "out" [returning "f", returning "g"] ["work", "out"]
      keeping.tree (keeping.run (drawingArguments twoReturningText)).2.tree := by
  have hr : Request.ofArguments (drawingArguments twoReturningText) =
      .ok ⟨.text twoReturningText, {}, .draw (.dataflow {}) "out" none, 0⟩ := by decide +kernel
  have hdone : (keeping.run (drawingArguments twoReturningText)).1 = .done := by decide +kernel
  obtain ⟨text, m, output, htext, hread, hleaves⟩ := Workspace.run_leaves hr rfl nofun hdone
  cases htext
  have hboth : Module.readChecked twoReturningText = .ok ⟨[returning "f", returning "g"]⟩ := by
    decide +kernel
  obtain rfl : _ = m := Except.ok.inj (hboth.symm.trans hread)
  have hout : (keeping.run (drawingArguments twoReturningText)).2.tree.follow ["work"] ["out"] =
      .ok ["work", "out"] := by decide +kernel
  obtain rfl : _ = output := Except.ok.inj (hout.symm.trans hleaves.leads)
  exact hleaves.fills (by decide +kernel) (by decide +kernel)

/-- A function with the name `../a` is drawn over a file beside the output directory. -/
theorem leaving_run :
    Request.ofArguments (drawingArguments (returningText "../a")) =
      .ok ⟨.text (returningText "../a"), {}, .draw (.dataflow {}) "out" none, 0⟩ ∧
    Module.readChecked (returningText "../a") = .ok ⟨[returning "../a"]⟩ ∧
    (keeping.run (drawingArguments (returningText "../a"))).1 = .done ∧
    keeping.tree.contents? ["work", "a.dot"] = some "keep" ∧
    (keeping.run (drawingArguments (returningText "../a"))).2.tree.contents? ["work", "a.dot"] =
      some "digraph \x7b\n\x7d\n" ∧
    (keeping.run (drawingArguments (returningText "../a"))).2.tree.follow ["work"] ["out"] =
      .ok ["work", "out"] ∧
    ¬ Drawing.Fills (.dataflow {}) ["work"] "out" [returning "../a"] ["work", "out"] keeping.tree
      (keeping.run (drawingArguments (returningText "../a"))).2.tree := by
  have hbefore : keeping.tree.contents? ["work", "a.dot"] = some "keep" := by decide +kernel
  have hafter : (keeping.run (drawingArguments (returningText "../a"))).2.tree.contents?
      ["work", "a.dot"] = some "digraph \x7b\n\x7d\n" := by decide +kernel
  refine ⟨by decide +kernel, by decide +kernel, by decide +kernel, hbefore, hafter,
    by decide +kernel, fun h => ?_⟩
  have hrest := h.rest ["work", "a.dot"] (by rintro ⟨name, hname⟩; simp at hname)
  rw [hbefore, hafter] at hrest
  exact absurd hrest (by decide)

end Dataflow.CommandLine
