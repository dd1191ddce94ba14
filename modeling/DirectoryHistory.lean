import DirectoryHistory.Command.Files
import DirectoryHistory.Locks
import DirectoryHistory.Main
import DirectoryHistory.Update.Wire
import DirectoryHistory.Proofs.Sort
import DirectoryHistory.Proofs.Stamp.Order
import DirectoryHistory.Proofs.Edit
import DirectoryHistory.Proofs.Timeline.Marks
import DirectoryHistory.Proofs.Timeline.Merge
import DirectoryHistory.Proofs.Timeline.Reflection
import DirectoryHistory.Proofs.Timeline.Asserted
import DirectoryHistory.Proofs.Slot.ReadBack
import DirectoryHistory.Proofs.Slot.Convergence
import DirectoryHistory.Proofs.Tracked.Requests
import DirectoryHistory.Proofs.Tracked.Rejecting
import DirectoryHistory.Proofs.Table
import DirectoryHistory.Proofs.Tracked.Changes
import DirectoryHistory.Proofs.Text.Ascii
import DirectoryHistory.Proofs.Text.Base64
import DirectoryHistory.Proofs.Stamp.Text
import DirectoryHistory.Proofs.Attribute
import DirectoryHistory.Proofs.Fact
import DirectoryHistory.Proofs.History.Parts
import DirectoryHistory.Proofs.History.Reading
import DirectoryHistory.Proofs.Stamp.Clock
import DirectoryHistory.Proofs.Stamp.Issuing
import DirectoryHistory.Proofs.Tracked.Storing
import DirectoryHistory.Proofs.Replica.Holding
import DirectoryHistory.Proofs.Replica.Creation
import DirectoryHistory.Proofs.Topology
import DirectoryHistory.Proofs.Topology.Convergence
import DirectoryHistory.Proofs.Tracked.Actions
import DirectoryHistory.Proofs.Tracked.Additions
import DirectoryHistory.Proofs.History.Writing
import DirectoryHistory.Proofs.History.Recording
import DirectoryHistory.Proofs.Timeline.Late
import DirectoryHistory.Proofs.Rebuild.Timeline
import DirectoryHistory.Proofs.Slot.Started
import DirectoryHistory.Proofs.Rebuild.Requests
import DirectoryHistory.Proofs.Tracked.Histories
import DirectoryHistory.Proofs.Replica.Operations
import DirectoryHistory.Proofs.Replica.Readable
import DirectoryHistory.Proofs.Replica.Taking
import DirectoryHistory.Proofs.Rebuild.Anomalies
import DirectoryHistory.Proofs.Rebuild.Updates
import DirectoryHistory.Proofs.Replica.Growth
import DirectoryHistory.Proofs.Store.Index
import DirectoryHistory.Proofs.Rebuild.Acceptance
import DirectoryHistory.Proofs.Rebuild.Entry
import DirectoryHistory.Proofs.Rebuild.Tree
import DirectoryHistory.Proofs.Replica.Renaming
import DirectoryHistory.Proofs.Slot.Evolution
import DirectoryHistory.Proofs.Replica.Course
import DirectoryHistory.Proofs.Slot.Renaming
import DirectoryHistory.Proofs.Rebuild.Renaming
import DirectoryHistory.Proofs.Rebuild.Renamed
import DirectoryHistory.Proofs.Replica.Deletion
import DirectoryHistory.Proofs.Replica.Arrival
import DirectoryHistory.Proofs.Replica.Collision
import DirectoryHistory.Proofs.Replica.Moving
import DirectoryHistory.Proofs.Slot.Exchange
import DirectoryHistory.Proofs.Replica.Commuting
import DirectoryHistory.Proofs.Timeline.Purging
import DirectoryHistory.Proofs.Slot.Purging
import DirectoryHistory.Proofs.History.Purging
import DirectoryHistory.Proofs.Tracked.Purging
import DirectoryHistory.Proofs.Sweep.Visits
import DirectoryHistory.Proofs.Sweep.Pass
import DirectoryHistory.Proofs.Sweep.Rounds
import DirectoryHistory.Proofs.History.Decoding
import DirectoryHistory.Proofs.Replica.Declining
import DirectoryHistory.Proofs.History.Bounds
import DirectoryHistory.Proofs.Replica.Freshness
import DirectoryHistory.Proofs.Replica.Peers
import DirectoryHistory.Proofs.Replica.Redelivery
import DirectoryHistory.Proofs.DistinguishedName
import DirectoryHistory.Proofs.Store.Consistency
import DirectoryHistory.Proofs.Replica.Runs
import DirectoryHistory.Proofs.Replica.Rooted
import DirectoryHistory.Proofs.Replica.Single
import DirectoryHistory.Proofs.Replica.Naming
import DirectoryHistory.Proofs.Replica.Abandoning
import DirectoryHistory.Proofs.Tracked.Verdicts
import DirectoryHistory.Proofs.Text.Decimal
import DirectoryHistory.Proofs.Wire
import DirectoryHistory.Proofs.Update.Wire
import DirectoryHistory.Proofs.Json.Scalars
import DirectoryHistory.Proofs.Json.Layout
import DirectoryHistory.Proofs.Entry.Json
import DirectoryHistory.Proofs.Store.Snapshot
import DirectoryHistory.Proofs.History.Rewriting
import DirectoryHistory.Proofs.Text.Escaping
import DirectoryHistory.Proofs.DistinguishedName.Reading
import DirectoryHistory.Proofs.Rebuild.Regrouping
import DirectoryHistory.Proofs.Stamp.Reading
import DirectoryHistory.Proofs.Attribute.Keys
import DirectoryHistory.Proofs.Timeline.Search
import DirectoryHistory.Proofs.History.Keeping
