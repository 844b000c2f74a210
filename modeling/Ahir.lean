import Ahir.Graph.Walk
import Ahir.Graph.TokenFlow
import Ahir.Graph.TokenRun
import Ahir.ControlPath.CPForkBlock
import Ahir.ControlPath.PrecedenceOrder
import Ahir.ControlPath.CompatibilityLabel
import Ahir.ControlPath.CompatibilityMap
import Ahir.ControlPath.LabelReduce
import Ahir.ControlPath.LabelInvariant
import Ahir.ControlPath.LabelRun
import Ahir.ControlPath.Compatible
import Ahir.Graph.BreadthFirst
import Ahir.ControlPath.LabelClosure
import Ahir.Graph.Shortcut
import Ahir.ControlPath.ForkPoints
import Ahir.ControlPath.RedundantPairs
import Ahir.Graph.TopologicalSort
import Ahir.ControlPath.RedundantArcs
import Ahir.ControlPath.LongestPaths
import Ahir.Graph.DepthFirst
import Ahir.ControlPath.CheckStructure
import Ahir.ControlPath.ForkDeclarations
import Ahir.Run.Conserving
import Ahir.Hardware.PipeBase
import Ahir.Hardware.ReceiveBuffer
import Ahir.Hardware.UnloadRegister
import Ahir.Hardware.SplitOperatorShared
import Ahir.Hardware.InterlockBuffer
import Ahir.Hardware.IoPorts
import Ahir.Hardware.PipeChannel
import Ahir.ControlPath.CPElementLinks
import Ahir.ControlPath.PassedOver
import Ahir.Graph.Links
import Ahir.ControlPath.CPElementGroup
import Ahir.ControlPath.GroupMerge
import Ahir.ControlPath.GroupDelete
import Ahir.Run.Chronicle
import Ahir.Run.Loop
import Ahir.ControlPath.GroupReduce
import Ahir.ControlPath.GroupConstruction
import Ahir.ControlPath.NestedBlocks
import Ahir.ControlPath.LabelTree
import Ahir.ControlPath.NestedLabels
import Ahir.Run.FirstFit
import Ahir.DataPath.VcOperator
import Ahir.Hardware.SquashLevelRepeater
import Ahir.DataPath.VcDataPathLevel
import Ahir.DataPath.LevelAligned
import Ahir.DataPath.LongestPath
import Ahir.DataPath.LevelSlacks
import Ahir.DataPath.LevelPadding
import Ahir.DataPath.LevelAlignment
import Ahir.DataPath.MaximalGroups
import Ahir.DataPath.SlotRegistry
import Ahir.DataPath.PortSlots
import Ahir.Data.Ring
import Ahir.Data.RowMajor
import Ahir.Data.Throughout
import Ahir.Aa.StorageType
import Ahir.Aa.IndexPath
import Ahir.Aa.AddressFactors
import Ahir.Aa.AddressCalculation
import Ahir.Aa.ArrayValue
import Ahir.Hardware.Buffer
import Ahir.Hardware.QueueBase
import Ahir.Hardware.QueueBaseCore
import Ahir.Hardware.OperatorPackage
import Ahir.Hardware.SynchFifoWithDPRAM
import Ahir.Hardware.SynchLifo
import Ahir.Hardware.Place
import Ahir.Hardware.Join
import Ahir.Hardware.LoopTerminator
import Ahir.Hardware.SplitCallArbiter
import Ahir.Hardware.SingleBitQueue
import Ahir.Hardware.SplitGuardInterface
import Ahir.Data.Discipline
import Ahir.PipeHandler.PipeRec
import Ahir.PipeHandler.ValuePipe
import Ahir.PipeHandler.BitVectorPipe
import Ahir.ControlPath.ReenableArcs
import Ahir.ControlPath.GroupFiring
import Ahir.Graph.Firing
import Ahir.ControlPath.DeadGroups
import Ahir.ControlPath.BypassFlags
import Ahir.ControlPath.BypassLoops
import Ahir.ControlPath.NucleusReduce
import Ahir.Aa.Assignment
import Ahir.Aa.PipelinedBody
import Ahir.Aa.BlockStatement
import Ahir.Aa.BlockOrder
import Ahir.Aa.Barriers
import Ahir.Aa.LinearSegments
import Ahir.Data.Bits
import Ahir.Data.WordArray
import Ahir.Value.Storage
import Ahir.Value.Compare
import Ahir.Value.Arithmetic
import Ahir.Value.Chain
import Ahir.Value.Rearrange
import Ahir.Value.ManySteps
import Ahir.Value.Literal
import Ahir.Aa.ConstantFolding
import Ahir.Aa.MultiWayExpressions
import Ahir.Aa.MemorySpace
import Ahir.CtestBench.PipeHandler
import Ahir.CtestBench.PipeWords
import Ahir.CtestBench.Serving
import Ahir.CtestBench.ExecuteJobs
import Ahir.CtestBench.SocketLib
import Ahir.BitVectors.BitVector
import Ahir.BitVectors.Operations
import Ahir.BitVectors.Values
import Ahir.BitVectors.Undefined
import Ahir.BitVectors.UndefinedLeaks
import Ahir.BitVectors.Defined
import Ahir.BitVectors.Arithmetic
import Ahir.BitVectors.Words
import Ahir.BitVectors.Comparison
import Ahir.Rtl.Expression
import Ahir.Rtl.VhdlExpression
import Ahir.Rtl.CExpression
import Ahir.Rtl.ExpressionBackEnds
import Ahir.Rtl.ConstantEvaluation
import Ahir.Rtl.SplitStatement
import Ahir.BitVectors.Canonical
import Ahir.Hardware.Encoders
import Ahir.BitVectors.Encoders
import Ahir.Run.Pipeline
import Ahir.Run.RegisterFile
import Ahir.Hardware.RegisterBank
import Ahir.Hardware.UnsignedShifter
import Ahir.Hardware.ValidPropagator
import Ahir.BitVectors.Shifts
import Ahir.BitVectors.ShiftAmounts
import Ahir.BitVectors.Slices
import Ahir.Hardware.AccessRegulator
import Ahir.Hardware.ConditionalFork
import Ahir.Hardware.OutputPortLevel
import Ahir.PipeHandler.Peek
import Ahir.Hardware.UnsignedAdderSubtractor
import Ahir.Hardware.UnsignedMultiplier
import Ahir.Hardware.MemDemux
import Ahir.Hardware.MemoryBank
import Ahir.Hardware.PipelinedMux
import Ahir.Hardware.StageGeometry
import Ahir.Hardware.MuxTree
import Ahir.Hardware.StdLogicArray
import Ahir.Hardware.PipelinedDemux
import Ahir.Hardware.UnloadBuffer
import Ahir.Hardware.TimeStamp
import Ahir.Run.TimeMerge
import Ahir.Hardware.OrderedMemory
import Ahir.Hardware.UnorderedMemory
import Ahir.Hardware.UnorderedRun
import Ahir.Hardware.UnorderedDelivery
import Ahir.Hardware.UnorderedDrain
import Ahir.Hardware.OrderedRequests
import Ahir.Hardware.OrderedRun
import Ahir.Hardware.OrderedDelivery
import Ahir.Text.Lexer
import Ahir.Aa.AaLexer
import Ahir.Aa.AaTypeText
import Ahir.Aa.ExpressionText
import Ahir.Aa.ExpressionRules
import Ahir.Aa.IntegerExpression
import Ahir.Aa.Aa2C
import Ahir.Aa.GlobalInitialization
import Ahir.Aa.Aa2VC
import Ahir.Aa.BackEnds
import Ahir.RtlMatcher.PipeMatcher
import Ahir.HierSys.InstanceGraph
import Ahir.HierSys.Partition
import Ahir.Graph.Nested
