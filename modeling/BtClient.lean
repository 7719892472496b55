import BtClient.Lib.Fault
import BtClient.Lib.Heap
import BtClient.Lib.Descriptors
import BtClient.Lib.Outcome
import BtClient.Lib.Transition
import BtClient.Lib.Simulation
import BtClient.Lib.Credit
import BtClient.Lib.History
import BtClient.Lib.Refinement
import BtClient.Lib.Splice
import BtClient.Lib.Stream
import BtClient.Lib.Ring
import BtClient.Lib.Scatter
import BtClient.Lib.Slots
import BtClient.Lib.Words
import BtClient.Lib.Endian
import BtClient.Lib.Snprintf
import BtClient.Lib.PackedBits
import BtClient.Lib.CString
import BtClient.Lib.Strtok
import BtClient.Lib.Strstr
import BtClient.Lib.Decimal
import BtClient.Lib.Percent
import BtClient.Lib.MessageQueue
import BtClient.Lib.Directory
import BtClient.Queue.Model
import BtClient.Queue.Fifo
import BtClient.Queue.Growth
import BtClient.HashTable.Model
import BtClient.HashTable.FiniteMap
import BtClient.HashTable.Runs
import BtClient.HashTable.Repeated
import BtClient.Bencode.Lexer
import BtClient.Bencode.Parser
import BtClient.Bencode.Value
import BtClient.Bencode.Lexing
import BtClient.Bencode.Parsing
import BtClient.Bencode.Steps
import BtClient.Bencode.Bytestring
import BtClient.Bencode.Recovery
import BtClient.Bencode.Acceptance
import BtClient.Bencode.Termination
import BtClient.Bencode.Lookahead
import BtClient.Bencode.TokenText
import BtClient.Bencode.Spelling
import BtClient.Bencode.Validity
import BtClient.Bencode.Document
import BtClient.Torrent.Types
import BtClient.PieceRequest.Model
import BtClient.PieceRequest.Cover
import BtClient.PieceRequest.Extent
import BtClient.PieceRequest.Table
import BtClient.PieceRequest.Memory
import BtClient.PieceRequest.Leak
import BtClient.Tracker.Types
import BtClient.Tracker.Udp
import BtClient.Tracker.UdpEncoding
import BtClient.Tracker.UdpExchange
import BtClient.Tracker.UdpResponse
import BtClient.Tracker.UdpRetries
import BtClient.Url.Model
import BtClient.Url.Parts
import BtClient.Tracker.Http
import BtClient.Tracker.HttpReceive
import BtClient.Tracker.HttpBody
import BtClient.Tracker.HttpRequest
import BtClient.Tracker.HttpQuery
import BtClient.Tracker.Https
import BtClient.Tracker.Resource
import BtClient.Tracker.Reply
import BtClient.Tracker.Announce
import BtClient.Tracker.Exchange
import BtClient.Peer.Socket
import BtClient.Peer.Msg
import BtClient.Peer.Wire
import BtClient.Peer.Framing
import BtClient.Peer.Standard
import BtClient.Peer.Readiness
import BtClient.Peer.Block
import BtClient.Peer.BlockBounds
import BtClient.Peer.Handshake
import BtClient.Connection.Shared
import BtClient.Connection.Selection
import BtClient.Connection.PieceMsg
import BtClient.Connection.Download
import BtClient.Connection.Completable
import BtClient.Connection.BlockAccounting
import BtClient.Connection.Swarm
import BtClient.Connection.Completion
import BtClient.Connection.Client
import BtClient.Connection.Immutable
import BtClient.Connection.OnePiece
import BtClient.Connection.Healthy
import BtClient.Connection.Refine
import BtClient.Connection.State
import BtClient.Connection.Calls
import BtClient.Connection.Finish
import BtClient.Connection.Window
import BtClient.Connection.BitfieldBounds
import BtClient.Connection.Flags
import BtClient.Connection.Interest
import BtClient.Connection.Announced
import BtClient.Connection.BitfieldExchange
import BtClient.Connection.BitfieldSize
import BtClient.Connection.SendFrames
import BtClient.Connection.DecoderSafety
import BtClient.Connection.HaveEvents
import BtClient.Connection.Thread
import BtClient.Connection.Emits
import BtClient.Connection.Stream
import BtClient.Connection.Dangling
import BtClient.FileParser.InfoHash
import BtClient.FileParser.Model
import BtClient.FileParser.RoundTrip
import BtClient.FileParser.Table
import BtClient.FileParser.Created
import BtClient.Connection.Published
import BtClient.DlFile.Model
import BtClient.DlFile.Complete
import BtClient.DlFile.Torrent
import BtClient.Main
import BtClient.Process.Model
import BtClient.Process.Simulation
import BtClient.Process.Queues
import BtClient.Process.Completion
import BtClient.Process.Verified
import BtClient.Process.Descriptors
import BtClient.Tracker.UdpNetwork
