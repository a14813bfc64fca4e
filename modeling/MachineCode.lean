import MachineCode.Compile
import MachineCode.Machine.Run
import MachineCode.Proofs.Decoding.RoundTrip
import MachineCode.Proofs.Decoding.Listing
import MachineCode.Proofs.Emission.Instructions
import MachineCode.Proofs.Installation.Linked
import MachineCode.Proofs.Labels.Resolved
import MachineCode.Proofs.Effects.Action
import MachineCode.Proofs.Effects.Lowers
import MachineCode.Proofs.Effects.Moves
import MachineCode.Proofs.Effects.Arithmetic
import MachineCode.Proofs.Effects.Control
import MachineCode.Proofs.Effects.Methods
import MachineCode.Proofs.Effects.Runs
import MachineCode.Proofs.Records.Collisions
import MachineCode.Proofs.Emission.Actions
import MachineCode.Proofs.Effects.Execution
import MachineCode.Proofs.Emission.ReadOnly
import MachineCode.Proofs.Labels.Transcripts
import MachineCode.Proofs.Labels.Queue
import MachineCode.Proofs.Labels.Parts
import MachineCode.Proofs.Records.Handlers
import MachineCode.Proofs.Labels.Hygiene
import MachineCode.Proofs.Labels.SlowPaths
import MachineCode.Proofs.Failures.Methods
import MachineCode.Proofs.References.Alignment
import MachineCode.Proofs.References.Bounds
import MachineCode.Proofs.Execution.Fetch
import MachineCode.Proofs.Execution.Computations
import MachineCode.Proofs.Records.Growth
import MachineCode.Proofs.Execution.Integers
import MachineCode.Proofs.Execution.Selecting
import MachineCode.Proofs.Execution.Switching
import MachineCode.Proofs.Execution.Traps
import MachineCode.Proofs.Execution.Quotients
import MachineCode.Proofs.Execution.Deciding
import MachineCode.Proofs.Execution.Passing
import MachineCode.Proofs.Execution.Transfers
import MachineCode.Proofs.Execution.Converting
import MachineCode.Proofs.Execution.Truncating
import MachineCode.Proofs.Execution.Tables
import MachineCode.Proofs.Execution.FloatDeciding
import MachineCode.Proofs.Execution.FloatArithmetic
import MachineCode.Proofs.Accesses.Pointers
import MachineCode.Proofs.Accesses.Indices
import MachineCode.Proofs.Labels.Failing
import MachineCode.Proofs.Frames.Returning
import MachineCode.Proofs.Frames.Bounded
import MachineCode.Proofs.Execution.Sections
import MachineCode.Proofs.Execution.Shifting
import MachineCode.Proofs.Records.Keys
import MachineCode.Proofs.Labels.Limits
import MachineCode.Proofs.Execution.Scanning
import MachineCode.Proofs.Execution.Exchanging
import MachineCode.Proofs.Execution.Pairs
import MachineCode.Proofs.Execution.Carrying
import MachineCode.Proofs.Execution.Padding
import MachineCode.Proofs.Decoding.WellFormed
