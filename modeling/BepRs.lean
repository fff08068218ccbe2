import BepRs.Lib.Task
import BepRs.Lib.Path
import BepRs.Lib.Keyed
import BepRs.Lib.Chain
import BepRs.Lib.Serial
import BepRs.Lib.Lineage
import BepRs.State.Model
import BepRs.State.Update
import BepRs.Sync.Ops
import BepRs.Sync.Index
import BepRs.Sync.Transfer
import BepRs.Sync.Merge
import BepRs.Sync.Contract
import BepRs.Sync.Generate
import BepRs.Sync.Fetch
import BepRs.History.Network
import BepRs.History.Merge
import BepRs.History.Readback
import BepRs.History.Unique
import BepRs.History.Held
import BepRs.History.Rehash
import BepRs.History.Interleave
import BepRs.History.Agreement
import BepRs.Access.Confine
import BepRs.State.Folders
import BepRs.Sync.Link
import BepRs.Access.Respond
import BepRs.Access.Accept
import BepRs.Access.Disclose
import BepRs.Access.Identity
import BepRs.Access.Write
import BepRs.Lib.Rely
import BepRs.Lib.Stream
import BepRs.Lib.Events
import BepRs.Lib.Oneshot
import BepRs.Access.Authority
import BepRs.Connection.Requests
import BepRs.Connection.Shutdown
import BepRs.Wire.Items
import BepRs.Wire.Stream
import BepRs.Lib.Budget
import BepRs.Gossip.Model
import BepRs.Gossip.Measure
import BepRs.Gossip.Tasks
import BepRs.Gossip.Terminate
import BepRs.Lib.Amid
import BepRs.Lib.Tiling
import BepRs.Transfer.Blocks
import BepRs.Transfer.Verify
import BepRs.Transfer.Mark
import BepRs.Transfer.Reproduce
import BepRs.Wire.Malformed
import BepRs.State.Admin
import BepRs.History.Integrity
import BepRs.Connection.Startup
import BepRs.History.Watch
import BepRs.Access.Absent
import BepRs.Lib.Insert
import BepRs.Access.Readers
import BepRs.Transfer.Backend
import BepRs.Lib.Slice
import BepRs.Lib.Check
import BepRs.Lib.Base32
import BepRs.Device.Luhn
import BepRs.Device.Id
import BepRs.History.Names
import BepRs.State.Atomic
import BepRs.Access.Listing
import BepRs.Connection.Ready
import BepRs.History.Edits
import BepRs.History.Received
import BepRs.Lib.Clock
import BepRs.Lib.Overlay
import BepRs.Transfer.Storage
import BepRs.Relay.Entry
import BepRs.Relay.Pair
import BepRs.Relay.Folder
import BepRs.Relay.Replica
import BepRs.Relay.Hop
import BepRs.Lib.Spread
import BepRs.Relay.Fleet
import BepRs.Relay.Records
import BepRs.Relay.Edit
import BepRs.Relay.Run
import BepRs.Lib.Promise
import BepRs.Gossip.Wires
import BepRs.Gossip.Duty
import BepRs.Gossip.Taken
import BepRs.Gossip.Settle
import BepRs.Connection.Ends
import BepRs.Lib.Outstanding
import BepRs.Connection.Onward
import BepRs.Connection.Across
import BepRs.Connection.Calls
import BepRs.Relay.Session
