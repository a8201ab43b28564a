import Astrald.Apphost.ServiceHandler
import Astrald.Apphost.WsConn
import Astrald.Arl.Locator
import Astrald.Auth.Assignments
import Astrald.Auth.Delegation
import Astrald.Indexing.Changelog
import Astrald.Indexing.Cursor
import Astrald.Indexing.Names
import Astrald.Indexing.Registrations
import Astrald.Messaging.Agreement
import Astrald.Messaging.Conversations
import Astrald.Messaging.Delivery
import Astrald.Nodes.Admission
import Astrald.Nodes.Backpressure
import Astrald.Nodes.Buffers
import Astrald.Nodes.Deadlock
import Astrald.Nodes.Entries
import Astrald.Nodes.Flow
import Astrald.Nodes.Link
import Astrald.Nodes.Migration
import Astrald.Nodes.OrderedClose
import Astrald.Nodes.Query
import Astrald.Nodes.Session
import Astrald.Nodes.Steady
import Astrald.Nodes.Verdicts
import Astrald.Services.Boundary
import Astrald.Services.Contributors
import Astrald.Services.Refresh
import Astrald.Services.Wakeups
import Astrald.Nodes.Stream
import Astrald.Lib.Budget
import Astrald.Lib.Fallible
import Astrald.Messaging.Reading
import Astrald.Messaging.Collection
import Astrald.Lib.Wire
import Astrald.Nodes.Frames
import Astrald.Lib.Table
import Astrald.Objects.Groups
import Astrald.Objects.Journal
import Astrald.Objects.Memory
import Astrald.Objects.ReadSeeker
import Astrald.Objects.Scan
import Astrald.Gateway.Handoff
import Astrald.Holes.Pool
import Astrald.Exonet.Ephemeral
import Astrald.Mobile.QueryHandler
import Astrald.Tree.Store
import Astrald.Tree.Follow
import Astrald.Auth.Contracts
import Astrald.Fs.Indexer
import Astrald.User.Assets
import Astrald.User.Replication
import Astrald.Nodes.Observed
import Astrald.Lib.Feed
import Astrald.Messaging.Paging
import Astrald.Messaging.Replies
import Astrald.Nodes.Handover
import Astrald.Nodes.Overflow
import Astrald.Messaging.Waiting
import Astrald.User.Maintain
import Astrald.Nodes.Accounts
import Astrald.Nodes.Peers
import Astrald.Nodes.Retrieve
