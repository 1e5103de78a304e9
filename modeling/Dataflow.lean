import Dataflow.Main
import Dataflow.CommandLine.Workspace
import Dataflow.Proofs.Ssa.Placement
import Dataflow.Proofs.Text.Binding
import Dataflow.Proofs.Graph.Growth
import Dataflow.Proofs.Graph.Store
import Dataflow.Proofs.Lowering.Producers
import Dataflow.Proofs.Lowering.Growth
import Dataflow.Proofs.Lowering.Reasons
import Dataflow.Proofs.Lowering.Search
import Dataflow.Proofs.Lowering.Stages
import Dataflow.Proofs.Lowering.Joins
import Dataflow.Proofs.Lowering.Operands
import Dataflow.Proofs.Lowering.Dependence
import Dataflow.Proofs.Ssa.Rename
import Dataflow.Proofs.Ssa.Walk
import Dataflow.Proofs.Semantics.Run
import Dataflow.Proofs.Transform.Merge
import Dataflow.Proofs.Ssa.Dominance
import Dataflow.Proofs.Transform.Mergeable
import Dataflow.Proofs.Transform.MergeRuns
import Dataflow.Proofs.Transform.Threading
import Dataflow.Proofs.Semantics.Origin
import Dataflow.Proofs.Transform.TokenOrder
import Dataflow.Proofs.ControlFlow.Reach
import Dataflow.Proofs.ControlFlow.Loop
import Dataflow.Proofs.Lowering.Carries
import Dataflow.Proofs.Lowering.Inputs
import Dataflow.Proofs.Lowering.JoinInputs
import Dataflow.Proofs.Lowering.SteerInputs
import Dataflow.Proofs.Lowering.TokenPaths
import Dataflow.Proofs.ControlFlow.LoopBodies
import Dataflow.Proofs.ControlFlow.LoopNesting
import Dataflow.Proofs.Transform.MergedLoops
import Dataflow.Proofs.Lowering.ExactNodes
import Dataflow.Proofs.Transform.Structure
import Dataflow.Proofs.Check.CycleSearch
import Dataflow.Proofs.Lowering.SharedSteers
import Dataflow.Proofs.Lowering.MirrorStages
import Dataflow.Proofs.Text.RoundTrip
import Dataflow.Proofs.Text.Reprinting
import Dataflow.Proofs.Text.BuiltModules
import Dataflow.Proofs.Transform.NewCycles
import Dataflow.Proofs.Lowering.JoinChoices
import Dataflow.Proofs.Lowering.MemoryOption
import Dataflow.Proofs.Lowering.Options
import Dataflow.Proofs.Lowering.EqualTargets
import Dataflow.Proofs.Text.ResolvedNames
import Dataflow.Proofs.Text.JoinedTexts
import Dataflow.Proofs.ControlFlow.LoopExits
import Dataflow.Proofs.Lowering.LoopWarnings
import Dataflow.Proofs.Lowering.SearchEnds
import Dataflow.Proofs.Lowering.StagesEnd
import Dataflow.Proofs.Lowering.SteerOrder
import Dataflow.Proofs.Lowering.OperatorsInTime
import Dataflow.Proofs.Check.ReportedCycles
import Dataflow.Proofs.Transform.MergedChains
import Dataflow.Proofs.Lowering.StageRequests
import Dataflow.Proofs.Transform.KeptNames
import Dataflow.Proofs.Text.Definitions
import Dataflow.Proofs.Transform.MergedReferences
import Dataflow.Proofs.Transform.Reports
import Dataflow.Proofs.Dot.Drawing
import Dataflow.Proofs.Lowering.ExactWires
import Dataflow.Proofs.Transform.StaleReferences
import Dataflow.Proofs.CommandLine.DrawnFiles
