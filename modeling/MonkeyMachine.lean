import MonkeyMachine.Assoc
import MonkeyMachine.Builtin
import MonkeyMachine.Bytecode
import MonkeyMachine.Code
import MonkeyMachine.Code.Encoding
import MonkeyMachine.Code.Listing
import MonkeyMachine.Compiler
import MonkeyMachine.Compiler.Buffer
import MonkeyMachine.Compiler.State
import MonkeyMachine.Diagnostic
import MonkeyMachine.Machine
import MonkeyMachine.Machine.Fault
import MonkeyMachine.Machine.Globals
import MonkeyMachine.Machine.Operations
import MonkeyMachine.Machine.Stack
import MonkeyMachine.Machine.Step
import MonkeyMachine.Opcode
import MonkeyMachine.Program
import MonkeyMachine.Proofs.Activations
import MonkeyMachine.Proofs.Acts
import MonkeyMachine.Proofs.AppendOnly
import MonkeyMachine.Proofs.CallCorrectness
import MonkeyMachine.Proofs.CallingConvention
import MonkeyMachine.Proofs.CaptureChains
import MonkeyMachine.Proofs.CodeCorrectness
import MonkeyMachine.Proofs.CodeSoundness
import MonkeyMachine.Proofs.CompilerCorrectness
import MonkeyMachine.Proofs.CompilerLayout
import MonkeyMachine.Proofs.Confinement
import MonkeyMachine.Proofs.DeadSlots
import MonkeyMachine.Proofs.Decoding
import MonkeyMachine.Proofs.Emission
import MonkeyMachine.Proofs.Execution
import MonkeyMachine.Proofs.Footprint
import MonkeyMachine.Proofs.GlobalNames
import MonkeyMachine.Proofs.GlobalStore
import MonkeyMachine.Proofs.Incremental
import MonkeyMachine.Proofs.Instructions
import MonkeyMachine.Proofs.LargerLimits
import MonkeyMachine.Proofs.Layout
import MonkeyMachine.Proofs.LayoutInduction
import MonkeyMachine.Proofs.LexicalLookup
import MonkeyMachine.Proofs.Lockstep
import MonkeyMachine.Proofs.MachineSafety
import MonkeyMachine.Proofs.NameIsolation
import MonkeyMachine.Proofs.Naming
import MonkeyMachine.Proofs.Notes
import MonkeyMachine.Proofs.OwnName
import MonkeyMachine.Proofs.Reference
import MonkeyMachine.Proofs.Relocation
import MonkeyMachine.Proofs.Renaming
import MonkeyMachine.Proofs.Representation
import MonkeyMachine.Proofs.RoundTrip
import MonkeyMachine.Proofs.ScopeCheck
import MonkeyMachine.Proofs.SessionSafety
import MonkeyMachine.Proofs.Shadowing
import MonkeyMachine.Proofs.Simulation
import MonkeyMachine.Proofs.Sites
import MonkeyMachine.Proofs.StackBound
import MonkeyMachine.Proofs.StackEffects
import MonkeyMachine.Proofs.Termination
import MonkeyMachine.Proofs.ValueSoundness
import MonkeyMachine.Proofs.WellFormed
import MonkeyMachine.Session
import MonkeyMachine.SymbolTable
import MonkeyMachine.Value
import MonkeyMachine.Value.Equality
import MonkeyMachine.Value.Text
import MonkeyMachine.Proofs.Arithmetic
import MonkeyMachine.Proofs.Spellings
import MonkeyMachine.Proofs.DefiniteAssignment
import MonkeyMachine.Proofs.ResourceCounts
import MonkeyMachine.Proofs.OrderedMaps
import MonkeyMachine.Proofs.ValueEquality
import MonkeyMachine.Proofs.HashLiterals
import MonkeyMachine.Proofs.Patching
import MonkeyMachine.Proofs.LastInstruction
