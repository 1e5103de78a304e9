import Dataflow.Proofs.Semantics.Origin
import Dataflow.Proofs.Text.Binding
import Dataflow.Proofs.Transform.Threading

/-!
# The token of a load

On every walk the token that a load takes comes from the last store before it. The invariant is that
the token after any part of a block comes from the last store so far (`Threads.origin_tokenAfter`),
by induction on the walk: a phi for the token takes over the token at the end of the block before.
-/

namespace Dataflow

namespace Function

open MemoryToken

variable {f g : Function} {phi : BlockId → Option InstId} {b c : BlockId} {rest w : List BlockId}
  {done after : List InstId} {x p : InstId}

/-- On every walk the token of a load, its second argument, comes from the last store that was run
since control was in the first block, or is the constant if there was none. -/
def OrdersLoads (g : Function) (isLoad isStore : InstId → Bool) : Prop :=
  ∀ {b rest done x after ty callee address token}, g.Walk (b :: rest) →
    g.body b = done ++ x :: after → isLoad x = true →
    g.instruction? x = some (.call ty callee [address, token]) →
    g.origin (b :: rest) done token.value =
      (g.latest isStore (b :: rest) done).getD (.operand initial)

/-- How `g`, where loads and stores are tied to tokens, goes with `f`, where they are not. -/
structure MemoryOrdered (f g : Function) : Prop where
  /-- Control can go the same ways. -/
  walk : ∀ w, g.Walk w ↔ f.Walk w
  /-- The same instructions are run, apart from new ones. -/
  runs : ∀ w, (g.runs w).filter (· < f.slots.length) = f.runs w
  /-- What is new is a phi for the token. -/
  new : ∀ x ∈ g.live, f.slots.length ≤ x → ∃ arms, g.instruction? x = some (.phi .bool arms)
  /-- Nothing else than loads and stores is changed. -/
  plain : ∀ x ∈ f.live, f.loadsAt x = false → f.storesAt x = false → g.slots[x]? = f.slots[x]?
  /-- A load becomes a call that takes a token. -/
  load : ∀ {x ty address}, x ∈ f.live → f.instruction? x = some (.load ty address) →
    ∃ token, g.instruction? x =
      some (.call ty (.function s!"{loadCallee}.{ty.text}") [address, ⟨.bool, token⟩])
  /-- A store becomes a call that gives a token. -/
  store : ∀ {x value address}, x ∈ f.live → f.instruction? x = some (.store value address) →
    g.instruction? x =
      some (.call .bool (.function s!"{storeCallee}.{value.ty.text}") [address, value])
  /-- The token is that of the last store. -/
  token : g.OrdersLoads f.loadsAt f.storesAt

theorem walk_iff (hsucc : ∀ b, g.successors b = f.successors b) : g.Walk w ↔ f.Walk w := by
  constructor
  · intro h
    induction h with
    | start => exact .start
    | step _ hc ih => exact .step ih (hsucc _ ▸ hc)
  · intro h
    induction h with
    | start => exact .start
    | step _ hc ih => exact .step ih ((hsucc _).symm ▸ hc)

namespace Threads

variable (hf : f.Placed) (ht : f.Threads g phi)

include ht

/-- A store gives its own token. -/
theorem origin_store (hx : x ∈ done) (hstore : f.storesAt x = true)
    (hbody : f.body b = done ++ after) :
    g.origin (b :: rest) ((phi b).toList ++ done) (.result x) = .run rest.length x := by
  obtain ⟨front, back, rfl⟩ := List.append_of_mem hx
  have htied := ht.tied (b := b) (hbody.trans (by simp) : f.body b = front ++ x :: (back ++ after))
  rw [storesAt, Option.any_eq_true] at hstore
  obtain ⟨i, hi, hstore⟩ := hstore
  rw [hi, Option.map_some] at htied
  refine origin_of_mem htied ?_ (by simp)
  cases i with
  | store value address => rfl
  | _ => cases hstore

/-- A phi for the token comes from where the token at the end of the block before came from. -/
theorem origin_startToken (hp : phi b = some p) (hc : b ∈ f.successors c) :
    g.origin (b :: c :: rest) done (startToken phi b) =
      g.origin (c :: rest) (g.body c) (f.tokenAfter (startToken phi c) (f.body c)) := by
  have hfind : ((f.predecessors b).map fun q =>
      (⟨f.tokenAfter (startToken phi q) (f.body q), q⟩ : Arm)).find? (·.source = c) =
        some ⟨f.tokenAfter (startToken phi c) (f.body c), c⟩ := by
    rw [List.find?_map, Option.map_eq_some_iff]
    refine ⟨c, ?_, rfl⟩
    cases hq : (f.predecessors b).find? fun q => decide (q = c) with
    | none =>
        have hno := List.find?_eq_none.mp hq c (mem_predecessors_of_mem_successors hc)
        exact absurd (decide_eq_true rfl) hno
    | some q =>
        have hqc := List.find?_some hq
        rw [of_decide_eq_true hqc] at hq
        exact hq
  rw [startToken, hp]
  exact origin_phi (ht.arms hp) (by simp [ht.body, hp]) hfind

/-- The token after a part of a block comes from the last store so far, if the token at the end of
the block before does. -/
theorem origin_of_before (htarget : ∀ {b c}, c ∈ f.successors b → c < f.blocks.length)
    (hw : f.Walk (b :: rest)) (hbody : f.body b = done ++ after)
    (hbefore : ∀ {c w}, rest = c :: w →
      g.origin (c :: w) (g.body c) (f.tokenAfter (startToken phi c) (f.body c)) =
        (g.latest f.storesAt (c :: w) (g.body c)).getD (.operand initial)) :
    g.origin (b :: rest) ((phi b).toList ++ done) (f.tokenAfter (startToken phi b) done) =
      (g.latest f.storesAt (b :: rest) ((phi b).toList ++ done)).getD (.operand initial) := by
  cases hfind : done.reverse.find? f.storesAt with
  | some x =>
      have hx : x ∈ done := by simpa using List.mem_of_find?_eq_some hfind
      rw [latest_of_find (ht.find?_reverse.trans hfind), tokenAfter, hfind]
      exact ht.origin_store hx (List.find?_some hfind) hbody
  | none =>
      -- no store in this part, so the token is the one the block started with
      rw [latest_of_not_find (ht.find?_reverse.trans hfind), tokenAfter, hfind, Option.elim_none]
      by_cases hb : b = 0
      · subst hb
        rw [if_pos rfl, startToken, ht.first]
        rfl
      · cases hw with
        | start => exact absurd rfl hb
        | step _ hc =>
            obtain ⟨p, hp⟩ := ht.needed (htarget hc) hb
              (List.ne_nil_of_mem (mem_predecessors_of_mem_successors hc))
            rw [if_neg hb, ht.origin_startToken hp hc, hbefore rfl]
            rfl

theorem origin_tokenAfter (htarget : ∀ {b c}, c ∈ f.successors b → c < f.blocks.length)
    (hw : f.Walk (b :: rest)) (hbody : f.body b = done ++ after) :
    g.origin (b :: rest) ((phi b).toList ++ done) (f.tokenAfter (startToken phi b) done) =
      (g.latest f.storesAt (b :: rest) ((phi b).toList ++ done)).getD (.operand initial) := by
  -- the token at the end of each earlier block is known by induction on the walk
  induction rest generalizing b done after with
  | nil => exact ht.origin_of_before htarget hw hbody fun hnil => absurd hnil (by simp)
  | cons c rest ih =>
      refine ht.origin_of_before htarget hw hbody fun hcons => ?_
      cases hcons
      rw [ht.body c]
      exact ih (hw.suffix (u := [b])) (List.append_nil _).symm

/-- The part of a block before an old instruction is a new phi and a part of the old block. -/
theorem split_body (hx : x < f.slots.length) (hbody : g.body b = done ++ x :: after) :
    ∃ front, done = (phi b).toList ++ front ∧ f.body b = front ++ x :: after := by
  rw [ht.body] at hbody
  cases hp : phi b with
  | none => exact ⟨done, rfl, by simpa [hp] using hbody⟩
  | some p =>
      rw [hp, Option.toList_some, List.singleton_append] at hbody
      cases done with
      | nil =>
          rw [List.nil_append, List.cons.injEq] at hbody
          exact absurd hx (Nat.not_lt.mpr (hbody.1 ▸ ht.new hp))
      | cons y front =>
          rw [List.cons_append, List.cons.injEq] at hbody
          exact ⟨front, by rw [hbody.1]; rfl, hbody.2⟩

theorem ordersLoads (htarget : ∀ {b c}, c ∈ f.successors b → c < f.blocks.length) :
    g.OrdersLoads f.loadsAt f.storesAt := by
  intro b rest done x after ty callee address token hw hbody hload hx
  rw [loadsAt, Option.any_eq_true] at hload
  obtain ⟨i, hi, hload⟩ := hload
  obtain ⟨slot, hslot, _⟩ := Option.map_eq_some_iff.mp hi
  obtain ⟨front, rfl, hsplit⟩ := ht.split_body (List.getElem?_eq_some_iff.mp hslot).1 hbody
  have htied := ht.tied hsplit
  rw [hi, Option.map_some, hx] at htied
  cases i with
  | load ty' address' =>
      cases htied
      exact ht.origin_tokenAfter htarget ((walk_iff ht.successors).mp hw) hsplit
  | _ => cases hload

theorem filter_body (hf : f.Placed) :
    (g.body b).filter (· < f.slots.length) = f.body b := by
  have hold : (f.body b).filter (· < f.slots.length) = f.body b :=
    List.filter_eq_self.mpr fun x hx => decide_eq_true (hf.lt_length hx)
  rw [ht.body, List.filter_append, hold]
  cases hp : phi b with
  | none => rfl
  | some p => simp [Nat.not_lt.mpr (ht.new hp)]

theorem memoryOrdered (hf : f.Placed)
    (htarget : ∀ {b c}, c ∈ f.successors b → c < f.blocks.length) : f.MemoryOrdered g where
  walk w := walk_iff ht.successors
  runs w := by
    rw [Function.runs, Function.runs, List.filter_flatMap]
    exact congrArg (w.reverse.flatMap ·) (funext fun b => ht.filter_body hf)
  new x hx hle := by
    obtain ⟨b, hb⟩ := mem_live.mp hx
    rw [ht.body, List.mem_append, Option.mem_toList] at hb
    rcases hb with hp | hb
    · exact ⟨_, ht.arms hp⟩
    · exact absurd (hf.lt_length hb) (Nat.not_lt.mpr hle)
  plain x hx hload hstore := by
    obtain ⟨b, hb⟩ := mem_live.mp hx
    exact ht.plain (hf.lt_length hb) hload hstore
  load {x ty address} hx hi := by
    obtain ⟨b, hb⟩ := mem_live.mp hx
    obtain ⟨done, after, hsplit⟩ := List.append_of_mem hb
    exact ⟨_, by rw [ht.tied hsplit, hi]; rfl⟩
  store {x value address} hx hi := by
    obtain ⟨b, hb⟩ := mem_live.mp hx
    obtain ⟨done, after, hsplit⟩ := List.append_of_mem hb
    rw [ht.tied hsplit, hi]
    rfl
  token := ht.ordersLoads htarget

end Threads

end Function

/-- Threading ties the loads of a function to its stores along every walk and changes nothing else.
-/
theorem memoryOrdered_threadMemory {text : String} {source : Module} {f : Function}
    (hread : Module.readChecked text = .ok source) (hf : f ∈ source.functions) :
    f.MemoryOrdered f.threadMemory.function := by
  have h := Module.readChecked_checked hread hf
  obtain ⟨phi, ht⟩ := Function.threads_threadMemory h.placed
  exact ht.memoryOrdered h.placed h.target

/-- A function that copies a value onto itself in a loop. -/
def selfCopy : Function where
  name := "f"
  ret := .void
  params := [⟨"p", .ptr⟩, ⟨"c", .int 1⟩]
  blocks := [⟨"entry", [0, 1]⟩, ⟨"loop", [2, 3, 4]⟩, ⟨"exit", [5]⟩]
  slots := [
    ⟨none, .store ⟨.int 32, .const ⟨.int 32, "1"⟩⟩ ⟨.ptr, .param 0⟩, 0⟩,
    ⟨none, .jump 1, 0⟩,
    ⟨some "v", .load (.int 32) ⟨.ptr, .param 0⟩, 1⟩,
    ⟨none, .store ⟨.int 32, .result 2⟩ ⟨.ptr, .param 0⟩, 1⟩,
    ⟨none, .branch (.param 1) 1 2, 1⟩,
    ⟨none, .ret none, 2⟩]

/-- The text of `selfCopy`. -/
def selfCopyText : String :=
  "define void @f(ptr %p, i1 %c) \x7b\nentry:\n  store i32 1, ptr %p\n  br label %loop\nloop:\n" ++
    "  %v = load i32, ptr %p\n  store i32 %v, ptr %p\n  br i1 %c, label %loop, label %exit\n" ++
    "exit:\n  ret void\n\x7d\n"

theorem read_selfCopy : Module.readChecked selfCopyText = .ok ⟨[selfCopy]⟩ := by
  decide +kernel

/-- In the second round the token of the load is that of the store in the first round. -/
theorem memoryOrdered_threadMemory_selfCopy :
    selfCopy.threadMemory.function.origin [1, 1, 0] [6] (.result 6) = .run 1 3 := by
  have hordered := memoryOrdered_threadMemory read_selfCopy List.mem_cons_self
  have hw : selfCopy.threadMemory.function.Walk [1, 1, 0] :=
    .step (.step .start (by decide +kernel)) (by decide +kernel)
  have hbody : selfCopy.threadMemory.function.body 1 = [6] ++ 2 :: [3, 4] := by decide +kernel
  have hi : selfCopy.threadMemory.function.instruction? 2 = some (.call (.int 32)
      (.function "lso.load.i32") [⟨.ptr, .param 0⟩, ⟨.bool, .result 6⟩]) := by decide +kernel
  exact (hordered.token hw hbody rfl hi).trans (by decide +kernel)

/-- A function that already calls what a store becomes. -/
def mixedStores : Function where
  name := "f"
  ret := .int 32
  params := [⟨"p", .ptr⟩]
  blocks := [⟨"entry", [0, 1, 2, 3]⟩]
  slots := [
    ⟨none, .store ⟨.int 32, .const ⟨.int 32, "1"⟩⟩ ⟨.ptr, .param 0⟩, 0⟩,
    ⟨some "t", .call (.int 1) (.function "lso.store.i32")
      [⟨.ptr, .param 0⟩, ⟨.int 32, .const ⟨.int 32, "2"⟩⟩], 0⟩,
    ⟨some "v", .load (.int 32) ⟨.ptr, .param 0⟩, 0⟩,
    ⟨none, .ret (some ⟨.int 32, .result 2⟩), 0⟩]

/-- The text of `mixedStores`. -/
def mixedStoresText : String :=
  "define i32 @f(ptr %p) \x7b\nentry:\n  store i32 1, ptr %p\n" ++
    "  %t = call i1 @lso.store.i32(ptr %p, i32 2)\n  %v = load i32, ptr %p\n  ret i32 %v\n\x7d\n"

/-- Whether instruction `x` calls a function whose name begins with `callee`. -/
def Function.callsAt (g : Function) (callee : String) (x : InstId) : Bool :=
  match g.instruction? x with
  | some (.call _ (.function name) _) => callee.toList.isPrefixOf name.toList
  | _ => false

/-- Calls in the text of the function to what stores become are not counted as stores. -/
theorem not_ordersLoads_mixedStores :
    Module.readChecked mixedStoresText = .ok ⟨[mixedStores]⟩ ∧
      ¬ mixedStores.threadMemory.function.OrdersLoads
        (mixedStores.threadMemory.function.callsAt MemoryToken.loadCallee)
        (mixedStores.threadMemory.function.callsAt MemoryToken.storeCallee) := by
  refine ⟨by decide +kernel, fun hordered => ?_⟩
  have hbody : mixedStores.threadMemory.function.body 0 = [0, 1] ++ 2 :: [3] := by decide +kernel
  have hi : mixedStores.threadMemory.function.instruction? 2 = some (.call (.int 32)
      (.function "lso.load.i32") [⟨.ptr, .param 0⟩, ⟨.bool, .result 0⟩]) := by decide +kernel
  have htoken := hordered .start hbody (by decide +kernel) hi
  exact absurd htoken (by decide +kernel)

end Dataflow
