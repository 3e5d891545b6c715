import ElioP2P.Library.Bytes
import ElioP2P.Library.Decimals
import ElioP2P.Library.Rounding
import ElioP2P.Library.FileSystem
import ElioP2P.Library.Json
import ElioP2P.Library.Paths
import ElioP2P.Library.Maps
import ElioP2P.Library.Sha256
import ElioP2P.Library.Double
import ElioP2P.Library.WireFormat
import ElioP2P.Library.Pieces
import ElioP2P.Library.Runs
import ElioP2P.Library.Coroutine
import ElioP2P.Library.Steps
import ElioP2P.Library.Writes
import ElioP2P.Library.Connection
import ElioP2P.Library.RelyGuarantee
import ElioP2P.Library.Progress
import ElioP2P.Library.Histories
import ElioP2P.Library.OrderedMaps
import ElioP2P.Library.PercentEncoding
import ElioP2P.Library.Queries
import ElioP2P.Library.Urls
import ElioP2P.Library.Layers
import ElioP2P.Library.Dialogues
import ElioP2P.Library.Calendar
import ElioP2P.Library.Markup
import ElioP2P.Cache.LRUCache
import ElioP2P.Cache.ChunkManager
import ElioP2P.Cache.Proofs.LRUContents
import ElioP2P.Cache.Proofs.LRUInvariant
import ElioP2P.Cache.Proofs.LRURetention
import ElioP2P.Cache.Proofs.LRURuns
import ElioP2P.Cache.Proofs.LRUHistory
import ElioP2P.Cache.Proofs.Statistics
import ElioP2P.Cache.Proofs.AccessTimes
import ElioP2P.Cache.Proofs.EvictionPolicy
import ElioP2P.Cache.Proofs.ReadYourWrite
import ElioP2P.Cache.Proofs.Copies
import ElioP2P.Cache.Proofs.DiskTier
import ElioP2P.Cache.Proofs.Refinement
import ElioP2P.Cache.Proofs.Restart
import ElioP2P.Cache.Proofs.Retrieval
import ElioP2P.Cache.Proofs.Presence
import ElioP2P.Cache.Proofs.FailedWrites
import ElioP2P.P2P.GossipMessage
import ElioP2P.P2P.NodeDiscovery
import ElioP2P.P2P.GossipCodec
import ElioP2P.P2P.GossipTick
import ElioP2P.P2P.ChunkMessage
import ElioP2P.P2P.TransferManager
import ElioP2P.P2P.Proofs.StateSync
import ElioP2P.P2P.Proofs.PeerTable
import ElioP2P.P2P.Proofs.Availability
import ElioP2P.P2P.Proofs.ChunkRemoval
import ElioP2P.P2P.Proofs.GossipCodec
import ElioP2P.P2P.Proofs.SelfProtection
import ElioP2P.P2P.Proofs.Deduplication
import ElioP2P.P2P.Proofs.AnnouncementOrder
import ElioP2P.P2P.Proofs.MessageSize
import ElioP2P.P2P.Proofs.Staleness
import ElioP2P.P2P.Proofs.LastSeen
import ElioP2P.P2P.Proofs.JoinRecords
import ElioP2P.P2P.Proofs.MembershipEvents
import ElioP2P.Proxy.RequestHandler
import ElioP2P.Proxy.Proofs.Assembly
import ElioP2P.Proxy.Proofs.ChunkLengths
import ElioP2P.Proxy.Proofs.RangeGrammar
import ElioP2P.Node
import ElioP2P.P2P.Transfer
import ElioP2P.P2P.GossipServer
import ElioP2P.P2P.GossipNetwork
import ElioP2P.Proxy.ChunkAccess
import ElioP2P.P2P.Proofs.Delivery
import ElioP2P.P2P.Proofs.PeerSelection
import ElioP2P.P2P.Proofs.Streams
import ElioP2P.P2P.Proofs.Exchange
import ElioP2P.P2P.Proofs.Upload
import ElioP2P.P2P.Proofs.Sections
import ElioP2P.P2P.Proofs.ChunkFrame
import ElioP2P.P2P.Proofs.CallSections
import ElioP2P.P2P.Proofs.Suppliers
import ElioP2P.P2P.Proofs.Race
import ElioP2P.P2P.Proofs.Rivals
import ElioP2P.P2P.Proofs.TransferTasks
import ElioP2P.P2P.Proofs.IdleTransfers
import ElioP2P.P2P.Proofs.ResumeState
import ElioP2P.P2P.Proofs.Contacts
import ElioP2P.P2P.Proofs.Fallback
import ElioP2P.P2P.Proofs.GossipFraming
import ElioP2P.P2P.Proofs.Arrivals
import ElioP2P.P2P.Proofs.Hearsay
import ElioP2P.P2P.Proofs.GossipNetwork
import ElioP2P.P2P.Proofs.LastingLocations
import ElioP2P.P2P.Proofs.Bandwidth
import ElioP2P.P2P.Proofs.TransferWrites
import ElioP2P.P2P.Proofs.FileConfinement
import ElioP2P.P2P.Proofs.TransferTraffic
import ElioP2P.Proxy.Proofs.Requests
import ElioP2P.Proxy.Proofs.ChunkServer
import ElioP2P.Proxy.Proofs.KeyIsolation
import ElioP2P.Proxy.Proofs.HashList
import ElioP2P.Proxy.Proofs.MetaLine
import ElioP2P.Proxy.Proofs.KeptAnchors
import ElioP2P.Proxy.Proofs.RecordedHash
import ElioP2P.Proxy.Proofs.Announcements
import ElioP2P.Proxy.Proofs.OwnSections
import ElioP2P.Proxy.Proofs.OriginTraffic
import ElioP2P.Cluster
import ElioP2P.P2P.Proofs.Conversations
import ElioP2P.Proxy.Proofs.HonestPeers
import ElioP2P.Proxy.Proofs.HonestServers
import ElioP2P.Proxy.Proofs.HonestRequests
import ElioP2P.Proxy.Proofs.HonestStreams
import ElioP2P.Proxy.Proofs.ObjectTruth
import ElioP2P.Proxy.Proofs.Clusters
import ElioP2P.Proxy.Proofs.ContentIntegrity
import ElioP2P.Control.Client
import ElioP2P.Control.HttpClient
import ElioP2P.Control.Metadata
import ElioP2P.Control.Server
import ElioP2P.Control.Commands
import ElioP2P.Control.NodeListing
import ElioP2P.Control.ControlPlane
import ElioP2P.Control.HeartbeatLoop
import ElioP2P.Control.Proofs.NodePaths
import ElioP2P.Control.Proofs.ChunkIndex
import ElioP2P.Control.Proofs.MetadataPersistence
import ElioP2P.Control.Proofs.MetadataLoading
import ElioP2P.Control.Proofs.CommandSteps
import ElioP2P.Control.Proofs.CommandDelivery
import ElioP2P.Control.Proofs.Registration
import ElioP2P.Control.Proofs.ResponseHead
import ElioP2P.Control.Proofs.ChunkRounds
import ElioP2P.Control.Proofs.ResponseFraming
import ElioP2P.Control.Proofs.ResponseLimits
import ElioP2P.Control.Proofs.ControlPlane
import ElioP2P.Control.Proofs.LocationHistory
import ElioP2P.Control.Proofs.ClientCalls
import ElioP2P.Control.Proofs.HeartbeatLoop
import ElioP2P.Storage.S3Client
import ElioP2P.Storage.OSSClient
import ElioP2P.Storage.ListObjects
import ElioP2P.Storage.Proofs.CanonicalQuery
import ElioP2P.Storage.Proofs.RangeHeader
import ElioP2P.Storage.Proofs.SigningDates
import ElioP2P.Storage.Proofs.Resigning
import ElioP2P.Storage.Proofs.PresignedUrls
import ElioP2P.Storage.Proofs.ListObjects
import ElioP2P.Storage.Proofs.Pagination
import ElioP2P.Base.Settings
import ElioP2P.Base.Config
import ElioP2P.Base.Proofs.ConfigFiles
import ElioP2P.Base.Proofs.Precedence
import ElioP2P.Liveness
