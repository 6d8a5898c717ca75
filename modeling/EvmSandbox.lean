import EvmSandbox.Address
import EvmSandbox.Assembly
import EvmSandbox.Bytes
import EvmSandbox.CommandLine.Command
import EvmSandbox.CommandLine.Error
import EvmSandbox.CommandLine.Execution
import EvmSandbox.CommandLine.Grammar
import EvmSandbox.CommandLine.Host
import EvmSandbox.CompilerOutput
import EvmSandbox.ContractBuild
import EvmSandbox.Decimal.Rounding
import EvmSandbox.Decimal.Shortest
import EvmSandbox.Hex
import EvmSandbox.Instruction
import EvmSandbox.Json.Basic
import EvmSandbox.Json.Document
import EvmSandbox.Json.Lexer
import EvmSandbox.Json.Number
import EvmSandbox.Json.Reader
import EvmSandbox.Json.Writer
import EvmSandbox.Keccak
import EvmSandbox.KeyMap
import EvmSandbox.Layout
import EvmSandbox.Layout.JumpTable
import EvmSandbox.Layout.Plan
import EvmSandbox.Layout.Relaxation
import EvmSandbox.Layout.Slot
import EvmSandbox.Log
import EvmSandbox.Main
import EvmSandbox.ManagerCall
import EvmSandbox.Metadata
import EvmSandbox.Opcode
import EvmSandbox.Outcome
import EvmSandbox.OutputSelection
import EvmSandbox.Purity
import EvmSandbox.Purity.CodeSource
import EvmSandbox.Purity.Contracts
import EvmSandbox.Purity.Inspection
import EvmSandbox.Replacement
import EvmSandbox.RuntimeCopy
import EvmSandbox.Sandbox
import EvmSandbox.Settings
import EvmSandbox.Text.Blank
import EvmSandbox.Text.Printable
import EvmSandbox.Text.Quoted
import EvmSandbox.Whitelist
import EvmSandbox.Proofs.Bytes
import EvmSandbox.Proofs.Decoding
import EvmSandbox.Proofs.ManagerSequence
import EvmSandbox.Proofs.Plan
import EvmSandbox.Proofs.Relaxation
import EvmSandbox.Proofs.Routing
import EvmSandbox.Proofs.Placement
import EvmSandbox.Proofs.LeastLayout
import EvmSandbox.Proofs.LayoutCorrectness
import EvmSandbox.Proofs.LayoutOperations
import EvmSandbox.Proofs.Transpilation
import EvmSandbox.Proofs.SandboxSafety
import EvmSandbox.Proofs.Machine
import EvmSandbox.Proofs.TableRun
import EvmSandbox.Proofs.Simulation
import EvmSandbox.Proofs.ControlFlow
import EvmSandbox.Proofs.Unreplaced
import EvmSandbox.Proofs.RunningOff
import EvmSandbox.Proofs.PurityWalk
import EvmSandbox.Proofs.InspectionScan
import EvmSandbox.Proofs.StackShuffle
import EvmSandbox.Proofs.RuntimePatches
import EvmSandbox.Proofs.RuntimeDeployment
import EvmSandbox.Proofs.OperandTracking
import EvmSandbox.Proofs.TargetWidths
import EvmSandbox.Proofs.TranspiledPurity
import EvmSandbox.Proofs.AcceptedCode
import EvmSandbox.Proofs.PurityCoverage
import EvmSandbox.Proofs.PurityLoops
import EvmSandbox.Proofs.ErrorReports
import EvmSandbox.Proofs.Unchanged
import EvmSandbox.Proofs.JumpDestinations
import EvmSandbox.Proofs.HexDigits
import EvmSandbox.Proofs.StaleBytecode
import EvmSandbox.Proofs.DecodingInverse
import EvmSandbox.Proofs.ContractIsolation
import EvmSandbox.Proofs.HostMachine
import EvmSandbox.Proofs.ManagerRun
import EvmSandbox.Proofs.CallingConvention
import EvmSandbox.Proofs.NearestImpurity
import EvmSandbox.Proofs.SecondPass
import EvmSandbox.Proofs.MaskText
import EvmSandbox.Proofs.MaskSets
import EvmSandbox.Proofs.JsonNumbers
import EvmSandbox.Proofs.JsonText
import EvmSandbox.Proofs.JsonValues
import EvmSandbox.Proofs.JsonLimits
import EvmSandbox.Proofs.OutputRoundTrip
import EvmSandbox.Proofs.OutputText
