import StackTape.Machine.Run
import StackTape.Main
import StackTape.Proofs.Action
import StackTape.Proofs.Run
import StackTape.Proofs.Stage
import StackTape.Proofs.Construction
import StackTape.Proofs.Wiring
import StackTape.Proofs.Gadget.Stack
import StackTape.Proofs.Gadget.Variable
import StackTape.Proofs.Gadget.Arithmetic
import StackTape.Proofs.Gadget.Call
import StackTape.Proofs.Emit
import StackTape.Proofs.Driver
import StackTape.Proofs.WellFormed
import StackTape.Proofs.Isolation
import StackTape.Proofs.Tape
import StackTape.Proofs.Reference
import StackTape.Proofs.Effect.Stack
import StackTape.Proofs.Effect.Variable
import StackTape.Proofs.Effect.Arithmetic
import StackTape.Proofs.Effect.Call
import StackTape.Proofs.Meaning
import StackTape.Proofs.Simulation
import StackTape.Proofs.CallReturn
import StackTape.Proofs.RoundTrip
import StackTape.Proofs.StaleCells
import StackTape.Proofs.ControlFlow
import StackTape.Proofs.Gadget.Phase
import StackTape.Proofs.Markers
import StackTape.Proofs.Verdict
import StackTape.Proofs.Decoding
import StackTape.Proofs.Outcome
import StackTape.Proofs.Assembled
import StackTape.Proofs.Labels
import StackTape.Proofs.Literals
import StackTape.Proofs.Spelling
import StackTape.Proofs.UnusedFields
import StackTape.Proofs.Disassembly
import StackTape.Proofs.Invocation
import StackTape.Proofs.FileEffects
import StackTape.Proofs.Execution
import StackTape.Proofs.Operations
import StackTape.Proofs.Placement
import StackTape.Proofs.Access
import StackTape.Proofs.Delivery
import StackTape.Proofs.Rearrangement
import StackTape.Proofs.Divergence
import StackTape.Proofs.FirstFault
import StackTape.Proofs.Layout
import StackTape.Proofs.CallSites
import StackTape.Proofs.Listing
import StackTape.Draft.Session
import StackTape.Proofs.Session
import StackTape.Proofs.Script
import StackTape.Proofs.Statistics
