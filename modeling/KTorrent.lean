import KTorrent.Lib.GuardedRun
import KTorrent.Lib.Loop
import KTorrent.Lib.Window
import KTorrent.Util.BitSet
import KTorrent.Util.SHA1HashGen
import KTorrent.Storage.Torrent
import KTorrent.Storage.Cache
import KTorrent.Storage.ChunkManager
import KTorrent.Storage.Cell
import KTorrent.Storage.Selection
import KTorrent.Storage.Bookkeeping
import KTorrent.Storage.Deselect
import KTorrent.Storage.Ownership
import KTorrent.Storage.IndexFile
import KTorrent.Transfer.ChunkDownload
import KTorrent.Transfer.Downloader
import KTorrent.Transfer.Selectable
import KTorrent.Transfer.ContinuousHash
import KTorrent.Transfer.Placement
import KTorrent.Transfer.VerifiedData
import KTorrent.Net.Packet
import KTorrent.Net.PacketWriter
import KTorrent.Net.StreamIntegrity
import KTorrent.Net.PacketReader
import KTorrent.Lib.Keystream
import KTorrent.Mse.RC4
import KTorrent.Net.BufferedSocket
import KTorrent.Mse.StreamSocket
import KTorrent.Transfer.PeerManager
import KTorrent.Transfer.Availability
import KTorrent.Lib.Buffer
import KTorrent.Storage.CacheFiles
import KTorrent.Storage.Mappings
import KTorrent.Storage.Spans
import KTorrent.Storage.ChunkFiles
import KTorrent.Storage.Border
import KTorrent.Mse.AuthenticateBase
import KTorrent.Mse.Secret
import KTorrent.Mse.EncryptedServerAuthenticate
import KTorrent.Mse.PlainHandshake
import KTorrent.Mse.ServerHandshake
import KTorrent.Mse.EncryptedAuthenticate
import KTorrent.Mse.ClientHandshake
import KTorrent.Transfer.Connections
import KTorrent.Transfer.Outstanding
import KTorrent.Transfer.CurrentChunks
import KTorrent.Transfer.Records
import KTorrent.Transfer.Resumed
import KTorrent.Dht.KBucket
import KTorrent.Dht.Node
import KTorrent.Lib.Closest
import KTorrent.Lib.SortedMap
import KTorrent.Dht.KClosestNodesSearch
import KTorrent.Dht.Pack
import KTorrent.Dht.RoutingTable
import KTorrent.Queue.QueueManager
import KTorrent.Queue.Limits
import KTorrent.Queue.Priorities
import KTorrent.Filter.IPBlocklist
import KTorrent.Filter.Ranges
import KTorrent.Filter.Blocked
import KTorrent.Filter.AntiP2P
import KTorrent.Filter.Lookup
import KTorrent.Bencode.BEncoder
import KTorrent.Bencode.BDecoder
import KTorrent.Bencode.RoundTrip
import KTorrent.Bencode.CutOff
import KTorrent.Mse.KeyExchange
import KTorrent.Mse.Fragments
import KTorrent.Lib.While
import KTorrent.Net.SocketGroup
import KTorrent.Net.NetworkThread
import KTorrent.Util.BitSetBytes
import KTorrent.Pex.UTPex
import KTorrent.Storage.TwoChunks
import KTorrent.Web.HttpServer
import KTorrent.Web.SessionGuard
import KTorrent.Storage.ChunksLeft
import KTorrent.Storage.FileChunks
import KTorrent.Transfer.ChunkSelector
import KTorrent.Transfer.Progress
import KTorrent.Lib.Paths
import KTorrent.Web.Confinement
import KTorrent.Web.LoginForm
import KTorrent.Storage.LoadTorrent
import KTorrent.Storage.DataPaths
import KTorrent.Dht.BucketRefresh
import KTorrent.Dht.TableFile
import KTorrent.Dht.Tokens
import KTorrent.Dht.Requests
import KTorrent.Lib.Sha1
import KTorrent.Util.SHA1Spec
import KTorrent.Util.SHA1Pieces
import KTorrent.Net.PeerUploader
import KTorrent.Net.CancelledPieces
import KTorrent.Net.UploadReplies
import KTorrent.Web.Framing
import KTorrent.Dht.Codec
import KTorrent.Dht.Task
import KTorrent.Dht.Responses
import KTorrent.Dht.RpcServer
import KTorrent.Net.UpSpeedEstimater
import KTorrent.Net.AdvancedChokeAlgorithm
import KTorrent.Tracker.UdpTracker
import KTorrent.Mse.Duplex
import KTorrent.Transfer.Timeouts
import KTorrent.Tracker.Replies
import KTorrent.Storage.PriorityFile
import KTorrent.Storage.MissingFiles
import KTorrent.Filter.ConvertDialog
import KTorrent.Dht.PeerStore
import KTorrent.Transfer.CcMigrate
import KTorrent.Mse.Downgrade
import KTorrent.Storage.LoadValid
import KTorrent.Check.DataChecker
import KTorrent.Check.TorrentCreator
import KTorrent.Lib.Count
import KTorrent.Check.Gather
import KTorrent.Check.Agreement
import KTorrent.Check.Import
import KTorrent.Storage.MoveDataFiles
import KTorrent.Tracker.PeerSourceManager
import KTorrent.Transfer.Accounting
import KTorrent.Transfer.Balance
import KTorrent.Interfaces.FileTree
import KTorrent.Interfaces.FileTreeWalk
import KTorrent.Interfaces.FileTreeView
import KTorrent.Storage.SharedChunks
