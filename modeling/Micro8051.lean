import Micro8051.Bench.Quiet
import Micro8051.Image.Line
import Micro8051.Machine.Summary
import Micro8051.Proofs.Instr.Table
import Micro8051.Proofs.Chip.Frame
import Micro8051.Proofs.Machine.Unwatched
import Micro8051.Proofs.Stack.Cells
import Micro8051.Proofs.Stack.Refinement
import Micro8051.Proofs.Listing.Walk
import Micro8051.Proofs.Listing.Partition
import Micro8051.Proofs.Instr.Target
import Micro8051.Proofs.Listing.Soundness
import Micro8051.Proofs.Bench.Yields
import Micro8051.Proofs.Run.Course
import Micro8051.Proofs.Run.Pacing
import Micro8051.Proofs.Moment.Outcome
import Micro8051.Proofs.Registry.Changes
import Micro8051.Proofs.Registry.Breakpoints
import Micro8051.Proofs.Moment.Registry
import Micro8051.Proofs.Callbacks.Conservation
import Micro8051.Proofs.Callbacks.Clearing
import Micro8051.Proofs.Run.Stopping
import Micro8051.Proofs.Trace.Writes
import Micro8051.Proofs.Chip.History
import Micro8051.Proofs.Trace.Recorder
import Micro8051.Proofs.Bench.Occasions
import Micro8051.Proofs.Chip.Accesses
import Micro8051.Proofs.Observers.Harmless
import Micro8051.Proofs.Observers.Records
import Micro8051.Proofs.Trace.Dependence
import Micro8051.Proofs.Instr.Addressing
import Micro8051.Proofs.Run.Rounds
import Micro8051.Proofs.Run.Failure
import Micro8051.Proofs.Observers.Alike
import Micro8051.Proofs.Observers.Agreement
import Micro8051.Proofs.Observers.Transparency
import Micro8051.Proofs.Text.Columns
import Micro8051.Proofs.Text.Duration
import Micro8051.Proofs.Listing.Readback
import Micro8051.Proofs.Callbacks.Nesting
import Micro8051.Proofs.Run.Limit
import Micro8051.Proofs.Run.Allowance
import Micro8051.Proofs.Run.Count
import Micro8051.Proofs.Memory.Fill
import Micro8051.Proofs.Machine.Renewal
import Micro8051.Proofs.Instr.Encoding
import Micro8051.Proofs.Image.Encoded
import Micro8051.Proofs.Text.Operands
import Micro8051.Proofs.Instr.Assembly
import Micro8051.Proofs.Moment.Returning
import Micro8051.Proofs.Moment.Inside
import Micro8051.Proofs.Bench.Accesses
import Micro8051.Proofs.Callbacks.Hooks
import Micro8051.Proofs.Instr.Flow
import Micro8051.Proofs.Instr.Counting
import Micro8051.Proofs.Listing.Append
import Micro8051.Proofs.Stack.Calls
import Micro8051.Proofs.Machine.Loop
import Micro8051.Proofs.Machine.Sweep
import Micro8051.Proofs.Bench.Orderly
import Micro8051.Proofs.Trace.Breakpoints
import Micro8051.Proofs.Trace.Program
