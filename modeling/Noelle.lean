import Noelle.DG.Subgraphs
import Noelle.BitMatrix.Sizes
import Noelle.SCC.Cycles
import Noelle.CallGraph.Condensation
import Noelle.LDGGenerator.Affine
import Noelle.PDGGenerator.Locations
import Noelle.PDGGenerator.RoundTrip
import Noelle.LoopCarriedVariable.Reduction
import Noelle.AllocAA.Soundness
import Noelle.PDG.Copying
import Noelle.DominatorForest.NearestCommon
import Noelle.DominatorForest.Restriction
import Noelle.SCCDAGPartition.MergePair
import Noelle.SCCDAGPartition.Preview
import Noelle.SCCDAGPartition.DepthOrder
import Noelle.ControlFlowEquivalence.LoopLevel
import Noelle.IVStepperUtility
import Noelle.LoopFiltering
import Noelle.LoopForest.Queries
import Noelle.LoopGoverningIV.TripCount
import Noelle.LoopInvariantCodeMotion.OrderIndependence
import Noelle.LoopNestingGraph
import Noelle.Scheduler.Requirements
import Noelle.LoopCarriedVariable.Identities
import Noelle.MayPointsToAnalysis.Coverage
import Noelle.SCCDAGAttrs.Governance
import Noelle.SCCDAGAttrs.Ignored
import Noelle.SCCPartitionScheduler.Squeeze
import Noelle.Scheduler.Preservation
import Noelle.LoopInvariantCodeMotion.Retraction
import Noelle.LoopIterationSpaceAnalysis.OneToOne
import Noelle.LoopIterationSpaceAnalysis.SubscriptIV
import Noelle.MemoryCloningAnalysis.AddressFlow
import Noelle.PDGGenerator.CallGraph
import Noelle.PDGGenerator.Compare
import Noelle.SCCDAGNormalizer.Sugar
import Noelle.SCCDAGNormalizer.Tails
import Noelle.DeadFunctionEliminator
import Noelle.LDGGenerator.Generation
import Noelle.LoopEnvironment.Reduction
import Noelle.Privatizer.HeapToStack
import Noelle.AllocAA.Memoryless
import Noelle.Hot.Distribution
import Noelle.DG.SubEdges
import Noelle.InductionVariables.Derived
import Noelle.InductionVariables.Governing
import Noelle.InductionVariables.StepValue
import Noelle.Privatizer.GlobalToStack
import Noelle.SCEVSimplification.ConstantPHIs
import Noelle.SCEVSimplification.LoopGuards
