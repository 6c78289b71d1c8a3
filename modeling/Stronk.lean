import Stronk.ByteMemory
import Stronk.EarlyExit
import Stronk.BoundedReader
import Stronk.ByteParser
import Stronk.McprCodec
import Stronk.ByteOrder
import Stronk.McprPacket
import Stronk.McprDecode
import Stronk.PacketLayout
import Stronk.LayoutFront
import Stronk.DecodeLayout
import Stronk.DecodeConfined
import Stronk.DecodedFields
import Stronk.DecodeHeap
import Stronk.McprEncode
import Stronk.NinUuid
import Stronk.EncodeBounds
import Stronk.EncodedPackets
import Stronk.ChunkDataSize
import Stronk.ServerboundRoundTrip
import Stronk.World
import Stronk.ChunkStore
import Stronk.WordStream
import Stronk.BlockPacking
import Stronk.ChunkColumn
import Stronk.McprConnection
import Stronk.ConnectionClose
import Stronk.McprCrypto
import Stronk.ServerConnection
import Stronk.FrameSync
import Stronk.RejectedFrames
import Stronk.ReceiveBuffer
import Stronk.FrameSplit
import Stronk.Reassembly
import Stronk.WedgedReader
import Stronk.ReaderRecovery
import Stronk.Transport
import Stronk.FrameLayout
import Stronk.WriteResult
import Stronk.PacketHandlers
import Stronk.HandlerMoves
import Stronk.UpdateClient
import Stronk.PacketIdentity
import Stronk.UseAfterClose
import Stronk.LoginMoves
import Stronk.LoginProtocol
import Stronk.UnfinishedLogin
import Stronk.KeyExchange
import Stronk.ChallengeResponse
import Stronk.PacketStream
import Stronk.Bstream
import Stronk.SList
import Stronk.ClientList
import Stronk.FixedWidth
import Stronk.FloatCodec
import Stronk.PositionCodec
import Stronk.Leb128
import Stronk.VarintCodec
import Stronk.VarlongCodec
import Stronk.StringCodec
import Stronk.PacketNumber
import Stronk.EncryptionResponse
import Stronk.ClientSettings
import Stronk.ServerHash
import Stronk.ServerClock
import Stronk.ClientTimeout
import Stronk.BstreamWrite
import Stronk.ChunkArea
import Stronk.UrlQuery
import Stronk.SessionQuery
import Stronk.JsonText
import Stronk.ChatJson
import Stronk.JsonMembers
import Stronk.HasJoined
import Stronk.AuthResponse
import Stronk.ServerListSample
import Stronk.AcceptLoop
import Stronk.DigestNegation
import Stronk.BufferFill
import Stronk.Fmux
import Stronk.Interleaving
import Stronk.JobQueue
import Stronk.ThreadPool
import Stronk.PoolSafety
import Stronk.PoolJobs
import Stronk.PoolProgress
import Stronk.PoolDestroy
import Stronk.TickServing
import Stronk.HashTable
import Stronk.HashContents
import Stronk.ParserRules
import Stronk.NbtTree
import Stronk.NbtFormat
import Stronk.NbtRoundTrip
import Stronk.JsonGrammar
import Stronk.StatusJson
