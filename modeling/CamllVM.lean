import CamllVM.OpCode
import CamllVM.Instruction
import CamllVM.Decode
import CamllVM.Lib.Layout
import CamllVM.Lib.Runs
import CamllVM.Lib.TaggedWord
import CamllVM.Lib.WordBytes
import CamllVM.Lib.WriteLog
import CamllVM.Lib.BinarySearch
import CamllVM.Lib.Support
import CamllVM.Lib.Related
import CamllVM.Lib.Ensures
import CamllVM.Lib.Simulation
import CamllVM.Lib.Terminated
import CamllVM.Encode
import CamllVM.ModuleCreator
import CamllVM.GenFunction
import CamllVM.Runtime.Value
import CamllVM.Runtime.Machine
import CamllVM.Runtime.StdLib
import CamllVM.RuntimeCall
import CamllVM.Exec
import CamllVM.CodeGen
import CamllVM.Proof.Emission
import CamllVM.Proof.Generation
import CamllVM.Proof.BlockCode
import CamllVM.Proof.LandingPoints
import CamllVM.Proof.ClosureGraph
import CamllVM.Proof.Prologues
import CamllVM.Proof.HandlerEntry
import CamllVM.Proof.DecodeEncode
import CamllVM.Proof.DecodeNumbering
import CamllVM.Proof.DecodeTargets
import CamllVM.Proof.Annotation
import CamllVM.Proof.FunctionSplit
import CamllVM.Proof.DeadInstructions
import CamllVM.Proof.CCalls
import CamllVM.Proof.Effects
import CamllVM.Proof.Calls
import CamllVM.Proof.Steps
import CamllVM.Proof.RaisePaths
import CamllVM.Proof.StaleWords
import CamllVM.Proof.Handlers
import CamllVM.Proof.Frames
import CamllVM.Proof.Grouping
import CamllVM.Proof.Arithmetic
import CamllVM.Proof.Headroom
import CamllVM.Proof.Pruning
import CamllVM.Proof.Graph
import CamllVM.Proof.ExactGraph
import CamllVM.Proof.FallThrough
import CamllVM.Proof.Relocation
import CamllVM.Proof.Allocation
import CamllVM.Proof.Division
import CamllVM.Proof.Branches
import CamllVM.Proof.Stores
import CamllVM.Proof.Blocks
import CamllVM.Proof.RecursiveClosures
import CamllVM.Proof.Methods
import CamllVM.Proof.Buffers
import CamllVM.Proof.RecordBounds
import CamllVM.Proof.Origins
import CamllVM.Proof.Switches
import CamllVM.Proof.Returns
import CamllVM.Proof.Renaming
import CamllVM.Proof.TailCalls
import CamllVM.Native
import CamllVM.Zam
import CamllVM.Proof.CodeLayout
import CamllVM.Proof.ControlFlow
import CamllVM.Proof.NativeSteps
import CamllVM.Proof.NativeSimulation
import CamllVM.Proof.TransferSimulation
import CamllVM.Proof.KnownCode
import CamllVM.Proof.CodeClosed
import CamllVM.Proof.KnownCalls
import CamllVM.Proof.ProgramSimulation
import CamllVM.Proof.SourceFunctions
import CamllVM.Proof.Acceptance
import CamllVM.Proof.Compilation
import CamllVM.Proof.SameStates
import CamllVM.Proof.SameOperations
import CamllVM.Proof.SameAllocations
import CamllVM.Proof.SameCalls
import CamllVM.Proof.Transparency
import CamllVM.Proof.TerminatedBlocks
import CamllVM.Proof.Verifier
import CamllVM.Proof.ReadRounds
import CamllVM.Proof.ByteOrder
import CamllVM.Proof.DistinctPrograms
import CamllVM.Proof.AcceptedWords
