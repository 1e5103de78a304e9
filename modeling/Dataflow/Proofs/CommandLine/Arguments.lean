import Dataflow.CommandLine.Request

/-!
# Paths in arguments

A path that arguments give is never empty, whichever way its setting is written, so a request names
the directory that it draws into (`Request.directoryNamed`). An empty path would make the file of a
function one at the root.
-/

namespace Dataflow.CommandLine

variable {g g' : Given} {t : Topic} {s : Setting} {value argument : String} {cs : List Char}
  {pending : Option Setting} {r : Request}

/-- Every path that was given is one. -/
def Given.PathsFilled (g : Given) : Prop :=
  ∀ s value, (s, value) ∈ g.settings → s.isPath → value ≠ ""

/-- Setting a value leaves no path empty: an empty one is refused. -/
theorem Given.PathsFilled.set (hg : g.PathsFilled) (h : g.set s value = .ok g') :
    g'.PathsFilled := by
  unfold Given.set at h
  split at h
  · cases h
  · split at h
    · cases h
    case isFalse hvalue =>
      cases h
      intro s' value' hmem hpath
      rcases List.mem_append.mp hmem with hmem | hmem
      · exact hg s' value' hmem hpath
      · cases List.mem_singleton.mp hmem
        simpa [hpath] using hvalue

/-- Neither does choosing. -/
theorem Given.PathsFilled.choose (hg : g.PathsFilled) {c : Choice} (h : g.choose t c = .ok g') :
    g'.PathsFilled := by
  cases c with
  | verbose => cases h; exact hg
  | switch s =>
    unfold Given.choose at h
    dsimp only at h
    split at h
    · cases h
    · cases h; exact hg
  | help => cases h
  | version => cases h
  | setting s => cases h

/-- A path that comes with its setting is filled. -/
theorem Given.PathsFilled.set_map (hg : g.PathsFilled)
    (h : (g.set s value).map (·, none) = Except.ok (g', pending)) : g'.PathsFilled := by
  cases hset : g.set s value with
  | error stop => rw [hset] at h; cases h
  | ok next => rw [hset] at h; cases h; exact hg.set hset

/-- Neither does a long option. -/
theorem Given.PathsFilled.readLong (hg : g.PathsFilled)
    (h : readLong t g cs = .ok (g', pending)) : g'.PathsFilled := by
  unfold CommandLine.readLong at h
  dsimp only at h
  split at h
  case h_1 => cases h
  case h_2 => cases h; exact hg
  case h_3 => exact hg.set_map h
  case h_4 c _ _ _ =>
    cases hchoose : g.choose t c with
    | error stop => rw [hchoose] at h; cases h
    | ok next => rw [hchoose] at h; cases h; exact hg.choose hchoose
  case h_5 => cases h

/-- Neither do short options. -/
theorem Given.PathsFilled.readShort (hg : g.PathsFilled)
    (h : readShort t g cs = .ok (g', pending)) : g'.PathsFilled := by
  induction cs generalizing g with
  | nil => cases h; exact hg
  | cons c rest ih =>
    unfold CommandLine.readShort at h
    split at h
    case h_1 => cases h
    case h_2 =>
      split at h
      case h_1 => cases h; exact hg
      case h_2 => exact hg.set_map h
      case h_3 => exact hg.set_map h
    case h_3 =>
      split at h
      case h_1 => cases h
      case h_2 next hchoose => exact ih (hg.choose hchoose) h

theorem Given.PathsFilled.readOptions (hg : g.PathsFilled)
    (h : readOptions t g argument = .ok (g', pending)) : g'.PathsFilled := by
  unfold CommandLine.readOptions at h
  split at h
  · exact hg.readLong h
  · exact hg.readShort h
  · cases h

/-- A topic for help makes no request. -/
theorem helpTopic_ne_ok (words : List String) : helpTopic t words ≠ .ok r := by
  induction words generalizing t with
  | nil => exact nofun
  | cons word rest ih =>
    unfold helpTopic
    split
    · exact ih
    · split <;> exact nofun

/-- A job has a path where it needs one. -/
def Job.DirectoryNamed : Job → Prop
  | .draw _ directory _ => directory ≠ ""
  | .print _ => True

/-- A request names its directory. -/
theorem Given.PathsFilled.request (hg : g.PathsFilled) (h : g.request t = .ok r) :
    r.job.DirectoryNamed := by
  have houtput : (g.value? .output).getD "." ≠ "" := by
    cases hvalue : g.value? .output with
    | none => decide
    | some value =>
      obtain ⟨front, back, hsettings, -⟩ := List.lookup_eq_some_iff.mp hvalue
      exact hg .output value (by rw [hsettings]; simp) rfl
  cases t with
  | program => cases h
  | render => cases h
  | action a =>
    rw [Given.request] at h
    cases hsource : g.source with
    | error stop => rw [hsource] at h; cases h
    | ok source =>
      rw [hsource] at h
      cases h
      cases a with
      | dfg => exact houtput
      | cfg => exact houtput
      | pdf => exact houtput
      | opt => trivial

/-- So does whatever the arguments are read as. -/
theorem Given.PathsFilled.readArguments {arguments : List String} (hg : g.PathsFilled)
    (h : readArguments t g arguments = .ok r) : r.job.DirectoryNamed := by
  fun_induction CommandLine.readArguments t g arguments
  case case1 => exact hg.request h
  case case2 ih => exact ih hg h
  case case3 => exact absurd h (helpTopic_ne_ok _)
  case case4 => exact hg.request h
  case case7 hread ih => exact ih (hg.readOptions hread) h
  case case11 hread _ _ _ _ hset ih => exact ih ((hg.readOptions hread).set hset) h
  -- In every other case reading stops.
  all_goals cases h

/-- The path of the output directory is never empty. -/
theorem Request.directoryNamed {arguments : List String}
    (h : Request.ofArguments arguments = .ok r) : r.job.DirectoryNamed :=
  Given.PathsFilled.readArguments (g := {}) (by rintro s value ⟨⟩) h

end Dataflow.CommandLine
