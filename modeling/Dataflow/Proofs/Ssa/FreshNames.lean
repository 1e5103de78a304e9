import Dataflow.Proofs.Ssa.Edit
import Mathlib.Data.List.Perm.Subperm

/-!
# Fresh names

`freshName` tries one candidate more than there are names taken. The candidates differ from each
other, so they cannot all be taken (`exists_numbered_not_taken`), and the search finds the first
free one (`freshName_of_taken`). `nodup_takenNames_iff` says what it means that the names taken are
apart. They stay so when a new instruction, or an old one that is given another name, bears a name
that nothing bore (`nodup_takenNames_insert`, `nodup_takenNames_setName`).
-/

namespace Dataflow.Function

variable {f g : Function} {base name : String} {b : BlockId} {x y : InstId} {n : Nat}

/-! ## The search for a name -/

/-- Two numbers make two names of one base. -/
theorem numbered_injective (base : String) :
    Function.Injective fun n : Nat => base ++ toString n := by
  intro m n heq
  have hchars := congrArg String.toList heq
  simp only [String.toList_append] at hchars
  have hdigits := List.append_cancel_left hchars
  -- the digits of a number can be read back
  have hnumbers := congrArg (fun digits => Nat.ofDigitChars 10 digits 0) hdigits
  simpa [Nat.toString_eq_ofList_toDigits] using hnumbers

/-- There are not enough names to take every number. -/
theorem exists_numbered_not_taken (f : Function) (base : String) :
    ∃ n, n ≤ f.takenNames.length ∧ base ++ toString (n + 1) ∉ f.takenNames := by
  by_contra hnone
  have hall : ∀ n ≤ f.takenNames.length, base ++ toString (n + 1) ∈ f.takenNames :=
    fun n hn => by_contra fun h => hnone ⟨n, hn, h⟩
  have hnodup : ((List.range (f.takenNames.length + 1)).map
      fun n => base ++ toString (n + 1)).Nodup :=
    List.nodup_range.map fun m n heq => Nat.succ.inj (numbered_injective base heq)
  have hlength := (hnodup.subperm fun name hname => by
    obtain ⟨n, hn, rfl⟩ := List.mem_map.mp hname
    exact hall n (Nat.le_of_lt_succ (List.mem_range.mp hn))).length_le
  rw [List.length_map, List.length_range] at hlength
  exact Nat.not_succ_le_self _ hlength

/-- A base that nothing bears is a fresh name itself. -/
theorem freshName_of_free (h : base ∉ f.takenNames) : f.freshName base = base := by
  simp [freshName, h]

/-- Where the base is taken, the fresh name is the base with the least positive number that makes
it free. -/
theorem freshName_of_taken (h : base ∈ f.takenNames) :
    ∃ n, 1 ≤ n ∧ f.freshName base = base ++ toString n ∧ base ++ toString n ∉ f.takenNames ∧
      ∀ k, 1 ≤ k → k < n → base ++ toString k ∈ f.takenNames := by
  have heq : f.freshName base = (((List.range (f.takenNames.length + 1)).find? fun n =>
      decide (base ++ toString (n + 1) ∉ f.takenNames)).map fun n =>
        base ++ toString (n + 1)).getD base := by
    simp only [freshName]
    rw [List.find?_cons_of_neg (by simpa using h), List.find?_map]
    rfl
  rw [heq]
  cases hfind : (List.range (f.takenNames.length + 1)).find? fun n =>
      decide (base ++ toString (n + 1) ∉ f.takenNames) with
  | none =>
      obtain ⟨n, hn, hfree⟩ := f.exists_numbered_not_taken base
      have htaken := List.find?_eq_none.mp hfind n (List.mem_range.mpr (Nat.lt_succ_of_le hn))
      exact absurd (decide_eq_true hfree) htaken
  | some n =>
      obtain ⟨hfree, -, hbefore⟩ := List.find?_range_eq_some.mp hfind
      refine ⟨n + 1, Nat.succ_pos n, rfl, of_decide_eq_true hfree, fun k hpos hk => ?_⟩
      obtain ⟨k, rfl⟩ := Nat.exists_eq_succ_of_ne_zero (Nat.ne_of_gt hpos)
      simpa only [decide_not, Bool.not_not, decide_eq_true_eq] using
        hbefore k (Nat.lt_of_succ_lt_succ hk)

/-- Nothing bears a fresh name. -/
theorem freshName_not_taken (f : Function) (base : String) :
    f.freshName base ∉ f.takenNames := by
  by_cases h : base ∈ f.takenNames
  · obtain ⟨n, -, heq, hfree, -⟩ := freshName_of_taken h
    rwa [heq]
  · rwa [freshName_of_free h]

/-! ## Names that are apart -/

/-- The name that the result of an instruction bears. -/
def resultName? (f : Function) (x : InstId) : Option String := (f.slots[x]?).bind (·.name)

/-- What it means that the names of results are apart. -/
theorem nodup_resultNames_iff : (f.slots.filterMap (·.name)).Nodup ↔
    ∀ x y name, f.resultName? x = some name → f.resultName? y = some name → x = y := by
  rw [List.Nodup, List.pairwise_filterMap, List.pairwise_iff_getElem]
  refine ⟨fun h x y name hx hy => ?_, fun h x y hx hy hlt name hname other hother heq => ?_⟩
  · obtain ⟨s, hs, hsname⟩ := Option.bind_eq_some_iff.mp hx
    obtain ⟨t, ht, htname⟩ := Option.bind_eq_some_iff.mp hy
    obtain ⟨hxlt, rfl⟩ := List.getElem?_eq_some_iff.mp hs
    obtain ⟨hylt, rfl⟩ := List.getElem?_eq_some_iff.mp ht
    rcases Nat.lt_trichotomy x y with hlt | heq | hgt
    · exact absurd rfl (h x y hxlt hylt hlt name hsname name htname)
    · exact heq
    · exact absurd rfl (h y x hylt hxlt hgt name htname name hsname)
  · subst heq
    refine Nat.ne_of_lt hlt (h x y name ?_ ?_)
    · rw [resultName?, List.getElem?_eq_getElem hx]
      exact hname
    · rw [resultName?, List.getElem?_eq_getElem hy]
      exact hother

/-- What it means that all the names taken are apart. -/
theorem nodup_takenNames_iff : f.takenNames.Nodup ↔ (f.params.map (·.name)).Nodup ∧
    (∀ x name, f.resultName? x = some name → name ∉ f.params.map (·.name)) ∧
    ∀ x y name, f.resultName? x = some name → f.resultName? y = some name → x = y := by
  rw [takenNames, List.nodup_append', nodup_resultNames_iff]
  refine and_congr_right fun _ => ?_
  rw [and_comm]
  refine and_congr_left fun _ => ⟨fun h x name hx hparam => ?_, fun h name hparam hresult => ?_⟩
  · obtain ⟨s, hs, hname⟩ := Option.bind_eq_some_iff.mp hx
    exact h hparam (List.mem_filterMap.mpr ⟨s, List.mem_of_getElem? hs, hname⟩)
  · obtain ⟨s, hs, hname⟩ := List.mem_filterMap.mp hresult
    obtain ⟨x, hx⟩ := List.mem_iff_getElem?.mp hs
    exact h x name (by rw [resultName?, hx]; exact hname) hparam

/-- Edits that leave the name of every slot leave the names taken. -/
theorem takenNames_congr (hparams : g.params = f.params)
    (hnames : g.slots.map (·.name) = f.slots.map (·.name)) : g.takenNames = f.takenNames := by
  have hresults := congrArg (List.filterMap id) hnames
  rw [List.filterMap_map, List.filterMap_map] at hresults
  rw [takenNames, takenNames, hparams]
  exact congrArg _ hresults

/-- A new instruction with a name that nothing bears leaves the names apart. -/
theorem nodup_takenNames_insert (h : f.takenNames.Nodup) (hname : name ∉ f.takenNames)
    (position : Nat) (i : Instruction) :
    (f.insert b position (some name) i).takenNames.Nodup := by
  have heq : (f.insert b position (some name) i).takenNames = f.takenNames ++ [name] := by
    simp [takenNames, insert]
  rw [heq]
  exact h.append (List.nodup_singleton name) (List.disjoint_singleton.mpr hname)

/-- An instruction that takes a name that nothing bears leaves the names apart. -/
theorem nodup_takenNames_setName (h : f.takenNames.Nodup) (hname : name ∉ f.takenNames) :
    (f.setName x (some name)).takenNames.Nodup := by
  cases hs : f.slots[x]? with
  | none =>
      have hsame : f.slots.modify x (fun s => { s with name := some name }) = f.slots :=
        List.modify_eq_self (List.getElem?_eq_none_iff.mp hs)
      rwa [takenNames, setName, hsame]
  | some s =>
      obtain ⟨hx, rfl⟩ := List.getElem?_eq_some_iff.mp hs
      have hold : f.slots = f.slots.take x ++ f.slots[x] :: f.slots.drop (x + 1) := by
        rw [List.getElem_cons_drop, List.take_append_drop]
      have hnew : (f.setName x (some name)).slots =
          f.slots.take x ++ { f.slots[x] with name := some name } :: f.slots.drop (x + 1) :=
        List.modify_eq_take_cons_drop hx
      have hparams : (f.setName x (some name)).params = f.params := rfl
      rw [takenNames, hold] at h hname
      rw [takenNames, hparams, hnew]
      -- the names before and after stay apart, and the new one is none of them
      simp only [List.filterMap_append, List.filterMap_cons] at h hname ⊢
      cases hs : f.slots[x].name with
      | none => grind
      | some old => grind

end Dataflow.Function
