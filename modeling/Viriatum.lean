import Viriatum.Http.HuffmanCoding
import Viriatum.Http.HpackRefinement
import Viriatum.Http.WebsocketClose
import Viriatum.Http.Assertions
import Viriatum.Stream.Fragments
import Viriatum.Stream.Delivery
import Viriatum.Http.Synchronisation
import Viriatum.Stream.Schedule
import Viriatum.Stream.Flow
import Viriatum.Stream.Head
import Viriatum.Stream.Grammar
import Viriatum.Stream.Concurrency
import Viriatum.Stream.Negotiation
import Viriatum.Stream.Lemmas.Fed
import Viriatum.Handlers.BasicAuth
import Viriatum.Handlers.Confinement
import Viriatum.Handlers.Coherence
import Viriatum.Handlers.Closing
import Viriatum.Handlers.Survival
import Viriatum.Handlers.Spelling
import Viriatum.Handlers.Ranges
import Viriatum.Lua.Balance
import Viriatum.Memory.Allocation
import Viriatum.Python.Events
import Viriatum.Python.Conversation
import Viriatum.Python.Attempts
import Viriatum.Python.Framing
import Viriatum.Python.Finality
import Viriatum.Library.OpenAddressing
import Viriatum.Memory.Pool
import Viriatum.Polling.Buffers
import Viriatum.Polling.Wakeups
import Viriatum.Commons.Base64Inverse
import Viriatum.Commons.ListRefinement
import Viriatum.Commons.SortMap
import Viriatum.Commons.Url
import Viriatum.Commons.BencodingRoundTrip
import Viriatum.Checksum.Rfc1321
import Viriatum.Library.Sines
import Viriatum.Checksum.Md5Streaming
import Viriatum.Checksum.Sha1
import Viriatum.Checksum.Sha1Streaming
import Viriatum.Streams.MemoryRefinement
import Viriatum.Commons.PercentCoding
import Viriatum.Commons.PasswdFiles
import Viriatum.Commons.IniReading
import Viriatum.Streams.BitRoundTrip
import Viriatum.Commons.HuffmanDecoding
import Viriatum.Http.HpackLiterals
import Viriatum.Commons.Sorting
import Viriatum.Python.Refusals
import Viriatum.Template.Building
import Viriatum.Template.Meaning
import Viriatum.Caches.FileCoherence
import Viriatum.Caches.TemplateCoherence
import Viriatum.Http.ChunkedBody
import Viriatum.Commons.ThreadPool
