import Dataflow.Text.Grammar

/-!
# What readers give

`Reader.Gives p Q` says that every value that reader `p` gives satisfies `Q`, wherever it is read.
What a reader gives is told by the reader it ends in, so most of a grammar rule does not matter for
it. With that, a phi of a text that follows the grammar has an arm (`Surface.armed_of_functions?`).
-/

namespace Dataflow

namespace Reader

variable {α β : Type} {p q : Reader α} {Q : α → Prop} {R : β → Prop}

/-- Every value that `p` gives satisfies `Q`. -/
def Gives (p : Reader α) (Q : α → Prop) : Prop :=
  ∀ s a rest, p s = some (a, rest) → Q a

/-- A given value is all that is given. -/
theorem gives_pure {a : α} (ha : Q a) : (pure a : Reader α).Gives Q := by
  intro s b rest h
  cases h
  exact ha

/-- What a sequence gives is what the second reader gives after a value of the first. -/
theorem Gives.bind {k : α → Reader β} (hp : p.Gives Q) (hk : ∀ a, Q a → (k a).Gives R) :
    (p >>= k).Gives R := by
  intro s b rest h
  obtain ⟨⟨a, s'⟩, ha, hb⟩ := Option.bind_eq_some_iff.mp h
  exact hk a (hp s a s' ha) s' b rest hb

/-- A sequence gives what its second reader gives, whatever the first one reads. -/
theorem gives_bind {k : α → Reader β} (hk : ∀ a, (k a).Gives R) : (p >>= k).Gives R :=
  Gives.bind (Q := fun _ => True) (fun _ _ _ _ => trivial) fun a _ => hk a

/-- A function of the value gives its image. -/
theorem Gives.map {g : α → β} (hp : p.Gives fun a => R (g a)) : (g <$> p).Gives R := by
  rw [map_eq_pure_bind]
  exact hp.bind fun a ha => gives_pure ha

/-- A choice gives what both its readers give. -/
theorem Gives.orElse (hp : p.Gives Q) (hq : q.Gives Q) : (p <|> q).Gives Q := by
  intro s a rest h
  change (p s).orElse (fun _ => q s) = some (a, rest) at h
  cases hps : p s with
  | none =>
      rw [hps] at h
      exact hq s a rest h
  | some r =>
      rw [hps] at h
      cases h
      exact hp s a rest hps

/-- A repetition gives only values of its reader. -/
theorem Gives.many (hp : p.Gives Q) : (many p).Gives fun as => ∀ a ∈ as, Q a := by
  intro s as rest h
  have hall : ∀ bound s, ∀ a ∈ (manyUpTo p bound s).1, Q a := by
    intro bound
    induction bound with
    | zero => simp [manyUpTo]
    | succ bound ih =>
        intro s a ha
        rw [manyUpTo] at ha
        split at ha
        · cases ha
        · rename_i b s' hb
          rcases List.mem_cons.mp ha with rfl | ha
          · exact hp s a s' hb
          · exact ih s' a ha
  obtain rfl := congrArg Prod.fst (Option.some.inj h)
  exact hall _ s

/-- A repetition of at least one gives only values of its reader. -/
theorem Gives.many1 (hp : p.Gives Q) : (many1 p).Gives fun as => ∀ a ∈ as, Q a :=
  hp.bind fun a ha => hp.many.bind fun as has => gives_pure (by simpa using ⟨ha, has⟩)

/-- A repetition of at least one gives at least one value. -/
theorem many1_gives : (many1 p).Gives fun as => as ≠ [] :=
  gives_bind fun a => gives_bind fun as => gives_pure (List.cons_ne_nil a as)

/-- A separated list of at least one has an element. -/
theorem sepBy1_gives {separator : Reader Unit} : (sepBy1 p separator).Gives fun as => as ≠ [] :=
  gives_bind fun a => gives_bind fun as => gives_pure (List.cons_ne_nil a as)

end Reader

namespace Surface

open Reader

/-! ## Arms of phis -/

/-- A statement is no phi without arms. -/
def Statement.Armed (t : Statement) : Prop := ∀ ty, t ≠ .phi ty []

/-- A phi that is read has an arm. -/
theorem phi_armed : phi.Gives Statement.Armed := by
  refine gives_bind fun _ => gives_bind fun _ => gives_bind fun ty => ?_
  refine sepBy1_gives.bind fun arms harms => gives_pure fun ty' heq => ?_
  cases heq
  exact harms rfl

/-- Each form of a statement but a phi ends in a statement that is none. -/
theorem statement_armed : statement.Gives Statement.Armed := by
  refine .orElse ?binary <| .orElse ?intCompare <| .orElse ?floatCompare <| .orElse ?load <|
    .orElse ?store <| .orElse ?elementPtr <| .orElse ?cast <| .orElse ?phi <| .orElse ?select <|
    .orElse ?call <| .orElse ?alloca <| .orElse ?jump <| .orElse ?branch <| .orElse ?retVoid <|
    .orElse ?retValue ?unreachable
  case phi => exact phi_armed
  all_goals
    repeat refine gives_bind fun _ => ?_
    exact gives_pure fun _ => Statement.noConfusion

/-- The lines of a block as written. -/
theorem block_armed : block.Gives fun b => ∀ line ∈ b.lines, line.statement.Armed := by
  have hline : line.Gives fun line => line.statement.Armed :=
    gives_bind fun _ => statement_armed.bind fun _ ht => gives_bind fun _ => gives_pure ht
  exact gives_bind fun _ => hline.many1.bind fun _ hlines => gives_pure hlines

/-- Every phi of a function that is read has an arm. -/
theorem function_armed : function.Gives fun t =>
    ∀ b ∈ t.blocks, ∀ line ∈ b.lines, line.statement.Armed := by
  refine gives_bind fun _ => gives_bind fun _ => gives_bind fun _ => gives_bind fun _ =>
    gives_bind fun _ => gives_bind fun _ => gives_bind fun _ => gives_bind fun _ =>
    gives_bind fun _ => ?_
  exact block_armed.many1.bind fun _ hblocks => gives_bind fun _ => gives_pure hblocks

/-- A function as written has a block. -/
theorem function_blocks : function.Gives fun t => t.blocks ≠ [] := by
  refine gives_bind fun _ => gives_bind fun _ => gives_bind fun _ => gives_bind fun _ =>
    gives_bind fun _ => gives_bind fun _ => gives_bind fun _ => gives_bind fun _ =>
    gives_bind fun _ => ?_
  exact many1_gives.bind fun _ hblocks => gives_bind fun _ => gives_pure hblocks

/-! ## Whole texts -/

/-- The functions of a text are what the reader of functions gives. -/
theorem functions?_gives {Q : FunctionText → Prop} (hQ : function.Gives Q) {text : String}
    {trees : List FunctionText} (h : functions? text = some trees) : ∀ t ∈ trees, Q t := by
  have hitem : item.Gives fun o => ∀ t ∈ o, Q t := by
    refine .orElse (.map ?_) (gives_bind fun _ => gives_pure (by simp))
    simpa using hQ
  unfold functions? at h
  split at h
  · cases h
  · rename_i items rest hitems
    split at h
    · cases h
      intro t ht
      obtain ⟨o, ho, hot⟩ := List.mem_filterMap.mp ht
      exact hitem.many _ _ _ hitems o ho t hot
    · cases h

/-- No phi of a text that follows the grammar is without arms. -/
theorem armed_of_functions? {text : String} {trees : List FunctionText}
    (h : functions? text = some trees) : ∀ t ∈ trees, ∀ b ∈ t.blocks, ∀ line ∈ b.lines,
      line.statement.Armed :=
  functions?_gives function_armed h

/-- No function of a text that follows the grammar is without blocks. -/
theorem blocks_of_functions? {text : String} {trees : List FunctionText}
    (h : functions? text = some trees) : ∀ t ∈ trees, t.blocks ≠ [] :=
  functions?_gives function_blocks h

end Surface

end Dataflow
