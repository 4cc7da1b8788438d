import Raz.Alloc.RangesExact
import Raz.Alloc.Scalars
import Raz.Borrowck.Availability
import Raz.Borrowck.LoanSafety
import Raz.Borrowck.Moves
import Raz.Collections.Runs
import Raz.Encoding.Base64
import Raz.Encoding.BinaryRoundTrip
import Raz.Forge.BuildHistory
import Raz.Forge.CoffRoundTrip
import Raz.Forge.DominatorPaths
import Raz.Forge.EdgeCopiesCorrect
import Raz.Forge.LayoutCorrect
import Raz.Forge.Liveness
import Raz.Forge.RelaxationCorrect
import Raz.Http.Arrival
import Raz.Http.ChunkCalls
import Raz.Http.Cookie
import Raz.Http.Delivery
import Raz.Http.FieldGrammar
import Raz.Http.Injection
import Raz.Http.Pipelining
import Raz.Http.Readiness
import Raz.Io.BufferRuns
import Raz.Json.Lookup
import Raz.Json.SameTexts
import Raz.Lz4.Accepted
import Raz.Lz4.RoundTrip
import Raz.Mir.CfgExact
import Raz.Net.Ipv6RoundTrip
import Raz.Oblink.ArchiveAgreement
import Raz.Oblink.BaseRelocationsCorrect
import Raz.Oblink.CoffContents
import Raz.Path.Extending
import Raz.Registry.PackExtract
import Raz.Registry.Publishing
import Raz.Registry.Resolution
import Raz.Registry.Selection
import Raz.Rxe.Division
import Raz.Rxe.HeapSafety
import Raz.Rxe.LoweringCorrect
import Raz.Thread.BarrierGenerations
import Raz.Thread.ChannelOrder
import Raz.Thread.HandOff
import Raz.Thread.MpmcOrder
import Raz.Thread.PoolOnce
import Raz.Thread.SchedulerHeap
import Raz.Thread.SpscOrder
