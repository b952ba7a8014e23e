import CQMSan.Lib.ByteMemory
import CQMSan.Lib.Worklist
import CQMSan.Lib.Dominance
import CQMSan.Runtime.ViolationMap
import CQMSan.Fuzzer.Trace
import CQMSan.Fuzzer.Session
import CQMSan.Fuzzer.ScanShortcuts
import CQMSan.Fuzzer.SkipKnownSites
import CQMSan.Runtime.Layout
import CQMSan.Runtime.Poisoning
import CQMSan.Runtime.SetShadow
import CQMSan.Runtime.Mmap
import CQMSan.Runtime.LibcWrites
import CQMSan.Runtime.Allocator
import CQMSan.Runtime.GlibcAlloc
import CQMSan.Runtime.GlibcRun
import CQMSan.Runtime.HeapLaw
import CQMSan.Runtime.CombinedAlloc
import CQMSan.Runtime.CombinedRun
import CQMSan.Runtime.FlipHeap
import CQMSan.Runtime.AtExit
import CQMSan.Runtime.Signals
import CQMSan.Pass.IR
import CQMSan.Pass.Sink
import CQMSan.Pass.SinkRun
import CQMSan.Pass.BarrierPath
import CQMSan.Pass.OnlyFeeds
import CQMSan.Pass.ShadowType
import CQMSan.Pass.Emit
import CQMSan.Pass.Visitor
import CQMSan.Pass.Materialize
import CQMSan.Pass.FlipChecks
import CQMSan.Pass.ShadowMap
import CQMSan.Pass.VarArg
import CQMSan.Pass.Order
import CQMSan.Pass.VisitSsa
import CQMSan.Pass.VisitLists
import CQMSan.Pass.VisitInv
import CQMSan.Pass.UndefSlice
import CQMSan.Pass.CheckCond
import CQMSan.Pass.Prepare
import CQMSan.Pass.Reports
import CQMSan.Pass.Erasure
import CQMSan.Pass.ShadowSorts
import CQMSan.Pass.Grouping
import CQMSan.Pass.Coalescing
import CQMSan.Pass.DepthFirst
import CQMSan.Pass.ShadowCalls
import CQMSan.Pass.HandlerCalls
import CQMSan.Pass.Assertions
import CQMSan.Pass.SsaVisit
import CQMSan.Pass.SliceTaint
import CQMSan.Pass.SliceRun
import CQMSan.Pass.SliceExact
