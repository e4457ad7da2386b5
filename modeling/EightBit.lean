import EightBit.CommandLine.Address
import EightBit.CommandLine.Options
import EightBit.CommandLine.Report
import EightBit.Main
import EightBit.SelfTest
import EightBit.Proofs.Source.Literals
import EightBit.Proofs.Source.Designation
import EightBit.Proofs.Listing.Spelling
import EightBit.Proofs.Listing.Canonical
import EightBit.Proofs.Listing.RoundTrip
import EightBit.Proofs.Machine.Agreement
import EightBit.Proofs.Machine.Composition
import EightBit.Proofs.Machine.Loading
import EightBit.Proofs.Machine.Starting
import EightBit.Proofs.Machine.Steps
import EightBit.Proofs.Machine.StraightLine
import EightBit.Proofs.Machine.Commands
import EightBit.Proofs.Machine.Frame
import EightBit.Proofs.Machine.StatusRegister
import EightBit.Proofs.Machine.StackBounds
import EightBit.Proofs.Machine.LastInFirstOut
import EightBit.Proofs.Listing.Execution
import EightBit.Proofs.Machine.Faults
import EightBit.Proofs.Machine.Reset
import EightBit.Proofs.Machine.Safety
import EightBit.Proofs.Source.Concatenation
import EightBit.Proofs.Machine.Relocation
import EightBit.Proofs.Machine.AllOrNothing
import EightBit.Proofs.Machine.StackDepth
import EightBit.Proofs.Machine.Aftermath
import EightBit.Proofs.Machine.Verdict
import EightBit.Proofs.Machine.Refusal
import EightBit.Proofs.Machine.Calls
import EightBit.Proofs.Machine.Footprint
import EightBit.Proofs.Arithmetic.Comparison
import EightBit.Proofs.Arithmetic.Sums
import EightBit.Proofs.Arithmetic.Rotations
import EightBit.Proofs.Source.Decimals
import EightBit.Proofs.Machine.Suspension
import EightBit.Proofs.Machine.Reports
import EightBit.Proofs.Machine.ForwardOnly
import EightBit.Proofs.Source.Comments
import EightBit.Proofs.Source.Spellings
import EightBit.Proofs.Source.Outcomes
import EightBit.Proofs.Listing.Faults
import EightBit.Proofs.Listing.Renaming
import EightBit.Proofs.Machine.Memory
import EightBit.Proofs.CommandLine.Addresses
import EightBit.Proofs.Source.Pieces
