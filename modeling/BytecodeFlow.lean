import BytecodeFlow.Assembler
import BytecodeFlow.ControlDependence
import BytecodeFlow.Descriptor.Scan
import BytecodeFlow.Digraph.IndexedGraph
import BytecodeFlow.GraphCache
import BytecodeFlow.StackFrames.Basic
import BytecodeFlow.Proofs.Paths
import BytecodeFlow.Proofs.Reachability
import BytecodeFlow.Proofs.AncestorChains
import BytecodeFlow.Proofs.CommonAncestors
import BytecodeFlow.Proofs.Dominance
import BytecodeFlow.Proofs.SearchTree
import BytecodeFlow.Proofs.Semidominators
import BytecodeFlow.Proofs.LinkedForest
import BytecodeFlow.Proofs.ImmediateDominators
import BytecodeFlow.Proofs.DominatorTrees
import BytecodeFlow.Proofs.EdgeInsertion
import BytecodeFlow.Proofs.PostDominance
import BytecodeFlow.Proofs.FlowShape
import BytecodeFlow.Proofs.ControlDependence
import BytecodeFlow.Proofs.EffectOrder
import BytecodeFlow.Proofs.LayoutOrder
import BytecodeFlow.Proofs.FrameProblem
import BytecodeFlow.Proofs.FrameSearch
import BytecodeFlow.Proofs.FrameBound
import BytecodeFlow.Proofs.FrameTermination
import BytecodeFlow.Proofs.LeastFrames
import BytecodeFlow.Proofs.DependencePaths
import BytecodeFlow.Proofs.FlowEdges
import BytecodeFlow.Proofs.FlowAcceptance
import BytecodeFlow.Proofs.Routes
import BytecodeFlow.Proofs.Simulation
import BytecodeFlow.Proofs.FrameSoundness
import BytecodeFlow.Proofs.FrameCompleteness
import BytecodeFlow.Proofs.Decisions
import BytecodeFlow.Proofs.DependenceRoots
import BytecodeFlow.Proofs.LabelErasure
import BytecodeFlow.Proofs.EdgeLabels
import BytecodeFlow.Proofs.BranchLabels
import BytecodeFlow.Proofs.ValueOrigins
import BytecodeFlow.Proofs.ValueFlow
import BytecodeFlow.Proofs.KnownClasses
import BytecodeFlow.Proofs.FrameVisits
import BytecodeFlow.Proofs.DeclaredTypes
import BytecodeFlow.Proofs.NodeLookup
import BytecodeFlow.Proofs.DependenceQueries
import BytecodeFlow.Proofs.DescriptorGrammar
import BytecodeFlow.Proofs.DescriptorScan
import BytecodeFlow.Proofs.InPlace
import BytecodeFlow.Proofs.AssemblySteps
import BytecodeFlow.Proofs.AssemblyResolution
import BytecodeFlow.Proofs.AssembledBodies
import BytecodeFlow.Proofs.DraftConsistency
import BytecodeFlow.Proofs.DraftAgreement
import BytecodeFlow.Proofs.EffectReversal
import BytecodeFlow.Proofs.LayoutJoin
import BytecodeFlow.GraphCache.Batch
import BytecodeFlow.Proofs.RebuiltGraphs
import BytecodeFlow.Proofs.BatchSchedules
import BytecodeFlow.Proofs.FinishingOrder
import BytecodeFlow.Proofs.SimplePaths
import BytecodeFlow.Proofs.DepthFirstOrder
import BytecodeFlow.Proofs.EscapedLabels
import BytecodeFlow.Proofs.VariableLookup
import BytecodeFlow.Proofs.Traversals
import BytecodeFlow.Proofs.StackFaults
import BytecodeFlow.Proofs.StackShortage
import BytecodeFlow.Proofs.TableKeys
