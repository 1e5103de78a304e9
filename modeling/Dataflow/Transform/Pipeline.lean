import Dataflow.Ssa.Module
import Dataflow.Transform.MemoryToken

/-!
# The transformations before lowering

Which transformations run, and their order: chains are merged first, so that phis for memory tokens
stand only where control really joins.
-/

namespace Dataflow

/-- Which transformations to run. -/
structure TransformOptions where
  /-- Whether to merge chains of blocks. -/
  mergeChains : Bool := false
  /-- Whether to tie loads and stores to memory tokens. -/
  threadMemory : Bool := false
deriving DecidableEq, Repr

/-- Runs a second transformation after a first one, if it is asked for. -/
def Change.andThen (c : Change) (wanted : Bool) (next : Function → Change) : Change :=
  if wanted then
    let d := next c.function
    { function := d.function
      changed := c.changed || d.changed
      journal := c.journal ++ d.journal }
  else c

/-- Runs the transformations that are asked for. -/
def Function.transform (f : Function) (options : TransformOptions) : Change :=
  let start : Change := { function := f, changed := false, journal := [] }
  (start.andThen options.mergeChains Function.mergeChains).andThen options.threadMemory
    Function.threadMemory

/-- What the transformations did to a module. -/
structure ModuleChange where
  /-- The module afterwards. -/
  module : Module
  /-- Whether some function was changed. -/
  changed : Bool
  /-- The events on the way. -/
  journal : Journal
deriving DecidableEq, Repr

/-- Runs the transformations on every function of a module. -/
def Module.transform (m : Module) (options : TransformOptions) : ModuleChange :=
  let changes := m.functions.map (·.transform options)
  { module := { functions := changes.map (·.function) }
    changed := changes.any (·.changed)
    journal := changes.flatMap (·.journal) }

end Dataflow
