import Collective.Address.Text
import Collective.Codec.Json
import Collective.Group.Change
import Collective.Group.System
import Collective.Group.Usage
import Collective.Group.Wire
import Collective.Json.Record
import Collective.Link.Runs
import Collective.Link.Traffic
import Collective.Manager.Activity
import Collective.Manager.Audience
import Collective.Naming
import Collective.Payload.Codec
import Collective.Pipeline.Converter
import Collective.Reduction
import Collective.Settings.Json
import Collective.Settings.Load
import Collective.Share
import Collective.Text.Base64
import Collective.Topology.Change
import Collective.Topology.Heap
import Collective.Proofs.Topology.Change
import Collective.Proofs.Topology.Layout
import Collective.Proofs.Group.Lockstep
import Collective.Proofs.Topology.Kinship
import Collective.Proofs.Topology.Recursion
import Collective.Proofs.Topology.Preorder
import Collective.Proofs.Group.Agreement
import Collective.Proofs.Group.Mailbox
import Collective.Proofs.Group.History
import Collective.Proofs.Group.Connection
import Collective.Proofs.Group.Run
import Collective.Proofs.Group.Transfer
import Collective.Proofs.Group.Relay
import Collective.Proofs.Group.Broadcast
import Collective.Proofs.Group.Schedule
import Collective.Proofs.Answer
import Collective.Proofs.Json.Number
import Collective.Proofs.Json.Scan
import Collective.Proofs.Json.Reading
import Collective.Proofs.Payload.RoundTrip
import Collective.Proofs.Reduction
import Collective.Proofs.Share
import Collective.Proofs.Topology.Portion
import Collective.Proofs.Group.Tree
import Collective.Proofs.Group.Gather
import Collective.Proofs.Group.Rounds
import Collective.Proofs.Group.Partial
import Collective.Proofs.Group.Fold
import Collective.Proofs.Group.Reduce
import Collective.Proofs.Group.Scatter
import Collective.Proofs.Group.Epoch
import Collective.Proofs.Pipeline.Alignment
import Collective.Proofs.Group.Reception
import Collective.Proofs.Manager.Uniqueness
import Collective.Proofs.Link.Framing
import Collective.Proofs.Manager.Links
import Collective.Proofs.Group.Delivery
import Collective.Proofs.Group.Progress
import Collective.Proofs.Group.Sequence
import Collective.Proofs.Manager.Ready
import Collective.Proofs.Group.Wire
import Collective.Proofs.Group.Passing
import Collective.Proofs.Manager.Finality
import Collective.Proofs.Manager.Hearing
import Collective.Proofs.Link.Content
import Collective.Proofs.Manager.Loop
import Collective.Proofs.Manager.Inflow
import Collective.Proofs.Group.Stability
import Collective.Proofs.Text.Utf8
import Collective.Proofs.Text.Base64
import Collective.Proofs.Json.Record
import Collective.Proofs.Payload.Exact
import Collective.Proofs.Group.Envelope
import Collective.Proofs.Table
import Collective.Proofs.Operator.Form
import Collective.Proofs.Group.BundleForm
import Collective.Proofs.Group.Newest
import Collective.Proofs.Group.Retention
import Collective.Proofs.Group.Departure
import Collective.Proofs.Group.Publication
import Collective.Proofs.Topology.Level
import Collective.Proofs.Topology.Height
import Collective.Proofs.Topology.Replacement
import Collective.Proofs.Group.Endpoint
import Collective.Proofs.Pipeline.Cutting
import Collective.Proofs.Pipeline.Validation
import Collective.Proofs.Pipeline.Joining
import Collective.Proofs.Group.Arrival
import Collective.Proofs.Reduction.Order
import Collective.Proofs.Reduction.Nesting
import Collective.Proofs.Link.Length
import Collective.Proofs.Address.Number
import Collective.Proofs.Address.Host
import Collective.Proofs.Address.Reading
import Collective.Proofs.Link.Handshake
import Collective.Proofs.Address.Identity
import Collective.Proofs.Manager.Audience
import Collective.Proofs.Settings.Loading
