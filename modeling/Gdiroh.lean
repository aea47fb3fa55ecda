import Gdiroh.Lib.Logs
import Gdiroh.Lib.Machine
import Gdiroh.Lib.FramedPipe
import Gdiroh.Lib.Rounds
import Gdiroh.Lib.Polled
import Gdiroh.Lib.Watched
import Gdiroh.Lib.Served
import Gdiroh.Lib.Once
import Gdiroh.Lib.Departures
import Gdiroh.Lib.Ledger
import Gdiroh.Session.Control
import Gdiroh.Session.Decoding
import Gdiroh.Session.State
import Gdiroh.Session.StateFacts
import Gdiroh.Session.Handed
import Gdiroh.Session.Readers
import Gdiroh.Session.Cluster
import Gdiroh.Session.ClusterFacts
import Gdiroh.Session.Membership
import Gdiroh.Session.Addressing
import Gdiroh.Session.Fabric
import Gdiroh.Session.Arrivals
import Gdiroh.Session.Splitting
import Gdiroh.Session.Authority
import Gdiroh.Session.Bracketing
import Gdiroh.Peer
import Gdiroh.Session.ControlPlane
import Gdiroh.Session.Ordered
import Gdiroh.Session.Datagrams
import Gdiroh.Session.Fallback
import Gdiroh.Session.HostSends
import Gdiroh.Dispatch.Dispatcher
import Gdiroh.Dispatch.Routing
import Gdiroh.Dispatch.Published
import Gdiroh.Raw.Stream
import Gdiroh.Raw.Fidelity
import Gdiroh.Raw.Carry
import Gdiroh.Raw.Aborting
import Gdiroh.Raw.Reading
import Gdiroh.Raw.Duplex
import Gdiroh.Raw.Halves
import Gdiroh.Raw.CleanEnd
import Gdiroh.Raw.Delivery
import Gdiroh.Docs.Document
import Gdiroh.Docs.Reads
import Gdiroh.Session.Finality
import Gdiroh.Session.Ids
import Gdiroh.Session.Booking
import Gdiroh.Session.Naming
import Gdiroh.Session.Partings
import Gdiroh.Peer.Calls
import Gdiroh.Peer.Status
import Gdiroh.Peer.Sessions
import Gdiroh.Peer.Stage
import Gdiroh.Peer.Rehosting
import Gdiroh.Peer.Refusing
import Gdiroh.Peer.Sizes
import Gdiroh.Peer.EndToEnd
import Gdiroh.Raw.Connection
import Gdiroh.Raw.GivingUp
import Gdiroh.Raw.Closing
import Gdiroh.Raw.Receiving
import Gdiroh.Raw.Signals
import Gdiroh.Raw.Answers
import Gdiroh.Endpoint.Stores
import Gdiroh.Endpoint.Handles
import Gdiroh.Endpoint.Orphans
import Gdiroh.Endpoint.Leases
import Gdiroh.Endpoint.Listening
import Gdiroh.Endpoint.Polling
import Gdiroh.Endpoint.Actors
import Gdiroh.Endpoint.Endings
import Gdiroh.Endpoint.Cancelling
import Gdiroh.Endpoint.Opening
import Gdiroh.Endpoint.Views
import Gdiroh.Endpoint.Orders
import Gdiroh.Endpoint.Owners
import Gdiroh.Endpoint.Ownership
import Gdiroh.Endpoint.Incoming
import Gdiroh.Endpoint.Inquiries
import Gdiroh.Endpoint.Accounts
import Gdiroh.Endpoint.Settings
import Gdiroh.Endpoint.Authors
