import StabCircuit.Builder.Workspace
import StabCircuit.Coord.Bounds
import StabCircuit.Main
import StabCircuit.Pauli.Lettered
import StabCircuit.Proofs.Builder.Atomicity
import StabCircuit.Proofs.Builder.Emitted
import StabCircuit.Proofs.Builder.Interactions
import StabCircuit.Proofs.Builder.ListingOrder
import StabCircuit.Proofs.Builder.NoiselessCalls
import StabCircuit.Proofs.Builder.SharedRecord
import StabCircuit.Proofs.Circuit.Legibility
import StabCircuit.Proofs.Circuit.Statistics
import StabCircuit.Proofs.Layer.LocalOrder
import StabCircuit.Proofs.Layer.SelfOverlap
import StabCircuit.Proofs.Layer.ZOperations
import StabCircuit.Proofs.Meaning.Conjugation
import StabCircuit.Proofs.Meaning.Feedback
import StabCircuit.Proofs.Meaning.ZBasis
import StabCircuit.Proofs.Memory.Comparisons
import StabCircuit.Proofs.Memory.DefaultAncillas
import StabCircuit.Proofs.Memory.NoisyRounds
import StabCircuit.Proofs.Memory.Pairing
import StabCircuit.Proofs.Moment.Agreement
import StabCircuit.Proofs.Moment.Lookbacks
import StabCircuit.Proofs.Moment.Spacing
import StabCircuit.Proofs.Noise.EveryMoment
import StabCircuit.Proofs.Noise.Immunity
import StabCircuit.Proofs.Noise.Noiseless
import StabCircuit.Proofs.Patch.DataDetectors
import StabCircuit.Proofs.Patch.Demolition
import StabCircuit.Proofs.Patch.Emission
import StabCircuit.Proofs.Patch.Stabilizers
import StabCircuit.Proofs.Pauli.Group
import StabCircuit.Proofs.Record.Passes
import StabCircuit.Proofs.Record.Resolution
import StabCircuit.Proofs.Scalar.ExactSums
