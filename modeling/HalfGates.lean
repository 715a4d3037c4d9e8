import HalfGates.Bits.Packing
import HalfGates.Bits.View
import HalfGates.Text.Hex
import HalfGates.Block
import HalfGates.Gate.Scope
import HalfGates.Gate.Kind
import HalfGates.Gate.Operation
import HalfGates.Gate.Record
import HalfGates.Codec
import HalfGates.Aes
import HalfGates.TweakedHash
import HalfGates.Random.Words
import HalfGates.Random.Buffered
import HalfGates.Garbling.Error
import HalfGates.Label.Offset
import HalfGates.Program.Basic
import HalfGates.Program.Builder
import HalfGates.Program.Evaluation
import HalfGates.Program.View
import HalfGates.Program.Adder
import HalfGates.Program.Rewriting
import HalfGates.Program.Liveness
import HalfGates.Program.Storage
import HalfGates.Constraint.Expr
import HalfGates.Constraint.System
import HalfGates.Constraint.Adder
import HalfGates.Constraint.Lowering
import HalfGates.Label.Codebook
import HalfGates.Garbling.HalfGate
import HalfGates.Garbling.Garble
import HalfGates.Garbling.Circuit
import HalfGates.Text.Debug
import HalfGates.Log
import HalfGates.Bits.Number
import HalfGates.Text.Decimal
import HalfGates.CommandLine
import HalfGates.Addition.Protocol
import HalfGates.Addition.Command
import HalfGates.Main
import HalfGates.Proofs.Sequencing
import HalfGates.Proofs.Bits.Number
import HalfGates.Proofs.Bits.Packing
import HalfGates.Proofs.Bits.View
import HalfGates.Proofs.Bits.Addressing
import HalfGates.Proofs.Block
import HalfGates.Proofs.Codec
import HalfGates.Proofs.Program.History
import HalfGates.Proofs.Program.WellFormed
import HalfGates.Proofs.Program.Rewriting
import HalfGates.Proofs.Program.Settled
import HalfGates.Proofs.Program.Keeping
import HalfGates.Proofs.Program.Liveness
import HalfGates.Proofs.Program.Removal
import HalfGates.Proofs.Program.Restriction
import HalfGates.Proofs.Program.Positions
import HalfGates.Proofs.Program.Scopes
import HalfGates.Proofs.Constraint.Definitions
import HalfGates.Proofs.Constraint.Gradient
import HalfGates.Proofs.Constraint.Satisfaction
import HalfGates.Proofs.Constraint.Emission
import HalfGates.Proofs.Constraint.Lowering
import HalfGates.Proofs.Program.Buildable
import HalfGates.Proofs.Program.Simplification
import HalfGates.Proofs.Program.Stability
import HalfGates.Proofs.Program.Reachability
import HalfGates.Proofs.Program.Invariant
import HalfGates.Proofs.Program.NormalForm
import HalfGates.Proofs.Program.Evaluation
import HalfGates.Proofs.Program.Secrecy
import HalfGates.Proofs.Constraint.Disclosure
import HalfGates.Proofs.Constraint.Definable
import HalfGates.Proofs.Constraint.Elimination
import HalfGates.Proofs.Constraint.Faults
import HalfGates.Proofs.Constraint.Size
import HalfGates.Proofs.Constraint.Adder
import HalfGates.Proofs.Program.Adder
import HalfGates.Proofs.Constraint.Influence
import HalfGates.Proofs.Garbling.Joint
import HalfGates.Proofs.Garbling.Agreement
import HalfGates.Proofs.Garbling.Simulation
import HalfGates.Proofs.Garbling.Correctness
import HalfGates.Proofs.Garbling.Demand
import HalfGates.Proofs.Garbling.Derivable
import HalfGates.Proofs.Garbling.Exchange
import HalfGates.Proofs.Garbling.Outcome
import HalfGates.Proofs.Garbling.Economy
import HalfGates.Proofs.Garbling.Rows
import HalfGates.Proofs.Garbling.RunOutcome
import HalfGates.Proofs.Garbling.Shape
import HalfGates.Proofs.Garbling.Places
import HalfGates.Proofs.Garbling.Queries
import HalfGates.Proofs.Garbling.Pads
import HalfGates.Proofs.Garbling.Tweaks
import HalfGates.Proofs.Codec.RoundTrip
import HalfGates.Proofs.Bits.Refinement
import HalfGates.Proofs.Bits.Joining
import HalfGates.Proofs.Random.Stream
import HalfGates.Proofs.Addition
import HalfGates.Proofs.Garbling.Supply
import HalfGates.Proofs.Label.Codebook
import HalfGates.Proofs.Program.Storage
