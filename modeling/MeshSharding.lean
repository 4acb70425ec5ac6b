import MeshSharding.Layout
import MeshSharding.Pipeline
import MeshSharding.Wire.Record
import MeshSharding.Proofs.Layout.Resharding
import MeshSharding.Proofs.Pipeline.Collectives
import MeshSharding.Proofs.Propagation.Termination
import MeshSharding.Proofs.Propagation.UserAxes
import MeshSharding.Proofs.Propagation.Levels
import MeshSharding.Proofs.Pipeline.Idempotence
import MeshSharding.Proofs.Pipeline.Reshardable
import MeshSharding.Proofs.Pipeline.Groups
import MeshSharding.Proofs.Pipeline.Replication
import MeshSharding.Proofs.Pipeline.Contraction
import MeshSharding.Proofs.Pipeline.Rules
import MeshSharding.Proofs.Layout.Coincidence
import MeshSharding.Proofs.Layout.Independence
import MeshSharding.Proofs.Collective.Regrouping
import MeshSharding.Proofs.Layout.Soundness
import MeshSharding.Proofs.Propagation.ReadBack
import MeshSharding.Proofs.Propagation.Acceptance
import MeshSharding.Proofs.Propagation.Edges
import MeshSharding.Proofs.Propagation.Conservative
import MeshSharding.Proofs.Propagation.Origins
import MeshSharding.Proofs.Wire.Stream
import MeshSharding.Proofs.Wire.Distinction
import MeshSharding.Proofs.Wire.Truncation
import MeshSharding.Proofs.Wire.Reencoding
import MeshSharding.Proofs.Resharding.NormalForm
import MeshSharding.Proofs.Collective.Inverse
import MeshSharding.Proofs.Collective.Faults
import MeshSharding.Proofs.Pipeline.Reached
import MeshSharding.Proofs.Propagation.Spelling
import MeshSharding.Proofs.Propagation.Appending
import MeshSharding.Proofs.Resharding.Steadiness
import MeshSharding.Proofs.Propagation.Maximal
import MeshSharding.Proofs.Propagation.Reordering
import MeshSharding.Proofs.Propagation.Strategies
import MeshSharding.Proofs.Propagation.Refinement
import MeshSharding.Proofs.Propagation.Readmission
import MeshSharding.Proofs.AxisList.Strip
import MeshSharding.Proofs.AxisList.Coarsest
import MeshSharding.Proofs.AxisList.Union
import MeshSharding.Proofs.Layout.Devices
import MeshSharding.Proofs.Resharding.Countdown
import MeshSharding.Proofs.Resharding.Rounds
import MeshSharding.Proofs.Rule.Builtin
import MeshSharding.Proofs.Rule.Draft
import MeshSharding.Proofs.Rule.Reshapable
import MeshSharding.Proofs.Layout.Cutting
