import NeForce.Aes256
import NeForce.Aes256Blocks
import NeForce.Aes256Counters
import NeForce.Aes256Gcm
import NeForce.Aes256Modes
import NeForce.Aes256RoundTrip
import NeForce.Base64
import NeForce.Base64Blocks
import NeForce.Base64Builds
import NeForce.Base64Lanes
import NeForce.Base64RoundTrip
import NeForce.BigEndian
import NeForce.BinaryHeap
import NeForce.BinarySerializer
import NeForce.BinarySkips
import NeForce.Bisect
import NeForce.BitRows
import NeForce.Bitmap
import NeForce.BitmapEdits
import NeForce.BitmapRefines
import NeForce.Bits
import NeForce.BloomFilter
import NeForce.BoolSyntax
import NeForce.ByteCursor
import NeForce.Carryless
import NeForce.Cells
import NeForce.ChaCha20
import NeForce.Channel
import NeForce.ChunkedReader
import NeForce.Codepoint
import NeForce.CodepointScalar
import NeForce.CodepointTranscode
import NeForce.CodepointUtf16
import NeForce.CodepointUtf8
import NeForce.ColoredTree
import NeForce.DnsClient
import NeForce.DnsClientRuns
import NeForce.DnsNames
import NeForce.DoubleBig
import NeForce.DoubleExact
import NeForce.DoubleKept
import NeForce.DoubleRounding
import NeForce.DoubleScan
import NeForce.DoubleTable
import NeForce.EncodingForm
import NeForce.Env
import NeForce.EnvRoundTrip
import NeForce.EnvValues
import NeForce.FlatEmplace
import NeForce.FlatProbe
import NeForce.FlatReached
import NeForce.FlatRehash
import NeForce.FlatReserve
import NeForce.FlatRoom
import NeForce.FlatSlots
import NeForce.FlatTable
import NeForce.FlatWalk
import NeForce.GatheredWrite
import NeForce.Ghash
import NeForce.Grpc
import NeForce.Hashtable
import NeForce.HeapSort
import NeForce.HeapTimer
import NeForce.HeapTimerBound
import NeForce.HeapTimerDrop
import NeForce.HeapTimerRuns
import NeForce.HeapTimerTrace
import NeForce.Hpack
import NeForce.HpackCanonical
import NeForce.HpackHuffman
import NeForce.HpackMalformed
import NeForce.HpackSync
import NeForce.HpackTable
import NeForce.Http2Connection
import NeForce.Http2Credit
import NeForce.Http2EndStream
import NeForce.Http2Frames
import NeForce.Http2HeaderBlocks
import NeForce.Http2Protocol
import NeForce.Http2Push
import NeForce.Http2Reads
import NeForce.Http2Requests
import NeForce.Http2RoundTrip
import NeForce.Http2Trace
import NeForce.Http2Window
import NeForce.HttpCache
import NeForce.HttpCacheRuns
import NeForce.HttpRange
import NeForce.HttpReadiness
import NeForce.HttpRouter
import NeForce.HttpRoutes
import NeForce.HttpServer
import NeForce.HttpServerBodies
import NeForce.HttpServerFraming
import NeForce.HttpServerRequests
import NeForce.HttpServerRuns
import NeForce.HttpServing
import NeForce.Incremental
import NeForce.InputParser
import NeForce.InputParserReports
import NeForce.InputParserRuns
import NeForce.Int128
import NeForce.Int128Correct
import NeForce.Int128Words
import NeForce.IntroSort
import NeForce.Json
import NeForce.JsonArena
import NeForce.JsonBuffers
import NeForce.JsonClassify
import NeForce.JsonContainerRuns
import NeForce.JsonContainers
import NeForce.JsonGrammar
import NeForce.JsonNumbers
import NeForce.JsonParser
import NeForce.JsonParsing
import NeForce.JsonQuoted
import NeForce.JsonRoundTrip
import NeForce.JsonStored
import NeForce.JsonStrings
import NeForce.JsonWriter
import NeForce.LeonardoHeap
import NeForce.LruCache
import NeForce.Memory
import NeForce.Multipart
import NeForce.MultipartDelimiters
import NeForce.MultipartHeaders
import NeForce.MultipartLoop
import NeForce.MultipartRoundTrip
import NeForce.Order
import NeForce.Outcomes
import NeForce.ParseDouble
import NeForce.Permutations
import NeForce.Poly1305
import NeForce.Pow10Table
import NeForce.PrefixCode
import NeForce.RandomBounded
import NeForce.RbCopy
import NeForce.RbCorrect
import NeForce.RbEnds
import NeForce.RbErase
import NeForce.RbHints
import NeForce.RbInsert
import NeForce.RbInsertion
import NeForce.RbIterator
import NeForce.RbLinked
import NeForce.RbNode
import NeForce.RbPool
import NeForce.RbRemoval
import NeForce.RbSearch
import NeForce.RbSteps
import NeForce.RbTree
import NeForce.RbTreeAt
import NeForce.RbUnlink
import NeForce.RbWorld
import NeForce.Rotations
import NeForce.RouteLanguage
import NeForce.RouteTrie
import NeForce.Runs
import NeForce.Screen
import NeForce.ScreenScan
import NeForce.ScreenShown
import NeForce.Search
import NeForce.Selection
import NeForce.SmoothSort
import NeForce.SparseVector
import NeForce.SparseVectorAgrees
import NeForce.SqlBuilder
import NeForce.SqlBuilderMeaning
import NeForce.Ssse3
import NeForce.StableSort
import NeForce.Strand
import NeForce.Terminal
import NeForce.TimMerge
import NeForce.TimSort
import NeForce.TimerPending
import NeForce.TimerScheduler
import NeForce.TimerSchedulerRuns
import NeForce.TomlBlocks
import NeForce.TomlCursor
import NeForce.TomlParser
import NeForce.TomlRuns
import NeForce.UrlParser
import NeForce.Utf8Blocks
import NeForce.Utf8Vectors
import NeForce.Websocket
import NeForce.WebsocketClose
import NeForce.WebsocketMessages
import NeForce.WebsocketParser
import NeForce.WebsocketPaths
import NeForce.WebsocketReader
import NeForce.WebsocketRoundTrip
import NeForce.WebsocketSend
import NeForce.WebsocketWriter
import NeForce.Words
