import Os5Sem.Transition
import Os5Sem.ListProgram
import Os5Sem.ListLocks
import Os5Sem.ListConvoy
import Os5Sem.ListRefine
import Os5Sem.ListOrder
import Os5Sem.ListSerializable
import Os5Sem.SwapCounters
import Os5Sem.ListLedger
import Os5Sem.Atomic
import Os5Sem.ListLinear
import Os5Sem.ListStatistics
import Os5Sem.ListSafety
import Os5Sem.StorageRelease
import Os5Sem.ListWork
import Os5Sem.ReapQueue
import Os5Sem.ReapInvariant
import Os5Sem.ReapSafety
import Os5Sem.ReapCalls
import Os5Sem.ReapHistory
import Os5Sem.ReapRest
import Os5Sem.ReapProgress
import Os5Sem.StartReaper
import Os5Sem.ReaperCreation
import Os5Sem.ReaperStacks
import Os5Sem.MyThread
import Os5Sem.ThreadSteps
import Os5Sem.ThreadCalls
import Os5Sem.ThreadFacts
import Os5Sem.ThreadQueue
import Os5Sem.ThreadOwnership
import Os5Sem.ThreadLinear
import Os5Sem.ThreadHandOver
import Os5Sem.ThreadWake
import Os5Sem.ThreadLifetime
import Os5Sem.ThreadReclaim
import Os5Sem.ThreadReady
import Os5Sem.ThreadProgress
import Os5Sem.Library
import Os5Sem.LibraryRuns
import Os5Sem.LibraryRest
import Os5Sem.LibraryProgress
import Os5Sem.RepeatedCalls
import Os5Sem.WoReaper
import Os5Sem.WoReaperOwnership
import Os5Sem.WoReaperLifetime
import Os5Sem.WoReaperCreation
import Os5Sem.WoReaperExclusion
import Os5Sem.DetachedThreads
import Os5Sem.WoReaperWake
import Os5Sem.WoReaperRest
import Os5Sem.Serial
import Os5Sem.Adjacent
import Os5Sem.Inversions
import Os5Sem.Chains
import Os5Sem.ListStorage
import Os5Sem.Occurrences
import Os5Sem.Lines
import Os5Sem.Handles
import Os5Sem.SleepQueues
import Os5Sem.CMemory
import Os5Sem.RandomStrings
import Os5Sem.Handler
import Os5Sem.HostResolution
import Os5Sem.Relay
import Os5Sem.RequestText
import Os5Sem.Traces
import Os5Sem.HeaderAccesses
import Os5Sem.RequestLine
import Os5Sem.RequestLength
import Os5Sem.Forwarding
import Os5Sem.UrlRemoval
import Os5Sem.Segmentation
import Os5Sem.Connections
import Os5Sem.Descriptors
import Os5Sem.Proxy
import Os5Sem.ProxyStages
import Os5Sem.ProxyIsolation
import Os5Sem.ProxyWork
import Os5Sem.HeaderReading
import Os5Sem.BufferRoom
import Os5Sem.HeaderGrammar
import Os5Sem.ConnectionHeader
import Os5Sem.Messages
import Os5Sem.Rewriting
import Os5Sem.ProxyRequests
