import Xtd.Concurrency.Machine
import Xtd.Concurrency.Monitor
import Xtd.Concurrency.Rules
import Xtd.Concurrency.WakeUp
import Xtd.Concurrency.Alone
import Xtd.Concurrency.Termination
import Xtd.Concurrency.Joining
import Xtd.Concurrency.Client
import Xtd.Concurrency.ClientPair
import Xtd.Concurrency.Charges
import Xtd.SizeT
import Xtd.Sequence.Search
import Xtd.Sequence.Pieces
import Xtd.Sequence.Cut
import Xtd.Json.Value
import Xtd.Json.Lexer
import Xtd.Json.Strings
import Xtd.Http.Request
import Xtd.Pipeline.Segment
import Xtd.Posix.Calls
import Xtd.Posix.Descriptors
import Xtd.Pipeline.Options
import Xtd.Pipeline.View
import Xtd.Pipeline.ViewOperations
import Xtd.Pipeline.Slices
import Xtd.Pipeline.Indexing
import Xtd.Pipeline.Copies
import Xtd.Pipeline.Impl
import Xtd.Pipeline.FixedPool
import Xtd.Pipeline.Pieces
import Xtd.Pipeline.Accounting
import Xtd.Pipeline.Advance
import Xtd.Pipeline.Buffers
import Xtd.Pipeline.ArenaPool
import Xtd.Pipeline.Backpressure
import Xtd.Pipeline.Backlog
import Xtd.Pipeline.Cancellation
import Xtd.Pipeline.Shutdown
import Xtd.Pipeline.Completion
import Xtd.Pipeline.WakeUp
import Xtd.Pipeline.Stream
import Xtd.Pipeline.EndOfStream
import Xtd.Pipeline.Progress
import Xtd.Pipeline.Written
import Xtd.Pipeline.Framing
import Xtd.Pipeline.Ingestion
import Xtd.Pipeline.Ingested
import Xtd.Pipeline.Parsing
import Xtd.Pipeline.IngestedLines
import Xtd.Pipeline.IngestionEnds
import Xtd.Channel.Impl
import Xtd.Channel.Pieces
import Xtd.Channel.Fifo
import Xtd.Channel.Shutdown
import Xtd.Channel.Consumer
import Xtd.Channel.WakeUp
import Xtd.Logging.Serializer
import Xtd.Logging.SinksOpts
import Xtd.Logging.Decimal
import Xtd.Logging.EscapeJson
import Xtd.Logging.RoundTrip
import Xtd.Logging.OtelSink
import Xtd.Logging.OtelShutdown
import Xtd.Logging.RequestBody
import Xtd.Logging.Endpoint
import Xtd.Logging.EndpointGrammar
import Xtd.Logging.HostHeader
import Xtd.Logging.NativeTransport
import Xtd.Logging.NativeAttempts
import Xtd.Logging.NativeDelivery
import Xtd.Logging.NativeRequest
import Xtd.Logging.Collector
import Xtd.Logging.LogSink
import Xtd.Logging.Logger
import Xtd.Concurrency.Interleaving
import Xtd.Concurrency.Serial
import Xtd.Cache.Shard
import Xtd.Cache.Impl
import Xtd.Cache.Sections
import Xtd.Cache.Live
import Xtd.Cache.Flight
import Xtd.Cache.Promise
import Xtd.Cache.TtlMap
import Xtd.Cache.History
import Xtd.Cache.Refinement
import Xtd.Cache.Expiration
