import VarnishModules.TailQueue
import VarnishModules.OrderedTree
import VarnishModules.QueueDrain
import VarnishModules.QueueFilter
import VarnishModules.ObjectPool
import VarnishModules.Digest
import VarnishModules.XkeyModel
import VarnishModules.XkeyRepresentation
import VarnishModules.XkeyInsert
import VarnishModules.XkeyRemove
import VarnishModules.XkeyIndex
import VarnishModules.CStrings
import VarnishModules.MaximalRuns
import VarnishModules.XkeyTokens
import VarnishModules.XkeyPurge
import VarnishModules.XkeySystem
import VarnishModules.XkeyCleanup
import VarnishModules.XkeyLifeCycle
import VarnishModules.Machine
import VarnishModules.TokenBucket
import VarnishModules.VsthrottleModel
import VarnishModules.VsthrottleStore
import VarnishModules.VsthrottleCell
import VarnishModules.VsthrottleRate
import VarnishModules.VsthrottleBlock
import VarnishModules.VsthrottleAgree
import VarnishModules.VsthrottleIsolation
import VarnishModules.VsthrottleObservers
import VarnishModules.VsthrottleConforming
import VarnishModules.CookieModel
import VarnishModules.CookieParse
import VarnishModules.CookieStore
import VarnishModules.CookieGrammar
import VarnishModules.CookieRoundTrip
import VarnishModules.CookieWire
import VarnishModules.SaintmodeModel
import VarnishModules.SaintmodeTrouble
import VarnishModules.SaintmodeBlacklist
import VarnishModules.SaintmodeCount
import VarnishModules.VarModel
import VarnishModules.VarStore
import VarnishModules.VarGlobals
import VarnishModules.WaitGraph
import VarnishModules.XkeyLocks
import VarnishModules.XkeyDeadlock
import VarnishModules.XkeySoftpurge
import VarnishModules.XkeyCount
import VarnishModules.VsthrottleLong
import VarnishModules.Doubles
import VarnishModules.VsthrottleDouble
import VarnishModules.SaintmodeVerdict
import VarnishModules.SaintmodeClient
import VarnishModules.CookieFilter
import VarnishModules.HeaderModel
import VarnishModules.HeaderGet
import VarnishModules.HeaderRemove
import VarnishModules.HeaderCopy
import VarnishModules.Softpurge
import VarnishModules.VsthrottleThreads
import VarnishModules.SoftpurgeRefs
import VarnishModules.BodyaccessModel
import VarnishModules.BodyaccessLog
import VarnishModules.BodyaccessRematch
import VarnishModules.Json
import VarnishModules.SaintmodeChecked
import VarnishModules.SaintmodePointers
import VarnishModules.SaintmodeStatus
import VarnishModules.RedBlackTree
import VarnishModules.VtreeModel
import VarnishModules.VtreeMemory
import VarnishModules.VtreeInsert
import VarnishModules.VtreeRemove
import VarnishModules.VtreeWalk
import VarnishModules.VtreeSystem
import VarnishModules.VsthrottleHeap
import VarnishModules.VsthrottleLife
import VarnishModules.XkeyTrees
import VarnishModules.XkeyRefinement
import VarnishModules.XkeyTreesLife
import VarnishModules.SaintmodeHeap
import VarnishModules.SaintmodeLedger
import VarnishModules.SaintmodeThreads
import VarnishModules.SaintmodeLinear
import VarnishModules.HeaderInit
import VarnishModules.HeaderOnce
import VarnishModules.QueueFind
import VarnishModules.Malloc
import VarnishModules.VarHeap
import VarnishModules.VarLedger
import VarnishModules.CookieHeap
import VarnishModules.CookieLedger
import VarnishModules.VarTaskHeap
import VarnishModules.VarTaskLedger
import VarnishModules.HeaderRun
import VarnishModules.VsthrottleRemaining
