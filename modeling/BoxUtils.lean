import BoxUtils.Runs
import BoxUtils.Loops
import BoxUtils.Locks
import BoxUtils.Occurrences
import BoxUtils.Heap
import BoxUtils.Counting
import BoxUtils.Base64
import BoxUtils.Base64RoundTrip
import BoxUtils.Base64Decoding
import BoxUtils.Base64Chunks
import BoxUtils.Base64Reads
import BoxUtils.Split
import BoxUtils.Strings
import BoxUtils.Mem
import BoxUtils.Buffer
import BoxUtils.BufferRuns
import BoxUtils.BufferSizes
import BoxUtils.BufferFailure
import BoxUtils.TBuffer
import BoxUtils.Iconv
import BoxUtils.IconvHistory
import BoxUtils.Atexit
import BoxUtils.AtexitRuns
import BoxUtils.Event
import BoxUtils.EventReasons
import BoxUtils.Semaphore
import BoxUtils.SemaphoreLocks
import BoxUtils.SemaphoreWakeups
import BoxUtils.Pipe
import BoxUtils.PipeLocks
import BoxUtils.ThreadPool
import BoxUtils.ThreadPoolTasks
import BoxUtils.ThreadPoolSteps
import BoxUtils.ThreadPoolTickets
import BoxUtils.ThreadPoolWait
import BoxUtils.ThreadPoolSleep
import BoxUtils.ThreadPoolShutdown
import BoxUtils.ThreadPoolResize
import BoxUtils.ThreadPoolOrder
import BoxUtils.ThreadPoolRecords
import BoxUtils.Shared
import BoxUtils.XPath
import BoxUtils.LibXml
import BoxUtils.Xml
import BoxUtils.XmlOwners
import BoxUtils.Timer
import BoxUtils.TimerExpiry
import BoxUtils.TimerIds
import BoxUtils.TimerThread
import BoxUtils.TimerPass
import BoxUtils.TimerSleep
import BoxUtils.OwningObjects
import BoxUtils.SocketFile
import BoxUtils.SubProcess
import BoxUtils.Descriptors
import BoxUtils.Redirect
import BoxUtils.RefPtr
import BoxUtils.RefPtrCounts
import BoxUtils.RefPtrEmpty
import BoxUtils.RefPtrGraph
import BoxUtils.RefPtrContained
import BoxUtils.RefData
import BoxUtils.RefDataCounts
import BoxUtils.Shape
import BoxUtils.LinkedShapes
import BoxUtils.LinkedForest
import BoxUtils.LinkedTrees
import BoxUtils.CJson
import BoxUtils.CJsonLinks
import BoxUtils.CJsonForest
import BoxUtils.LabelledForest
import BoxUtils.MergePatch
import BoxUtils.CJsonLabels
import BoxUtils.CJsonUtils
import BoxUtils.CJsonBounds
import BoxUtils.JsonMerge
import BoxUtils.Json
import BoxUtils.JsonIterator
import BoxUtils.JsonIteratorMoves
import BoxUtils.JsonRange
import BoxUtils.JsonLookup
import BoxUtils.JsonForest
import BoxUtils.JsonForestRuns
import BoxUtils.JsonValues
import BoxUtils.CJsonNodes
import BoxUtils.CJsonCompare
import BoxUtils.CJsonParse
import BoxUtils.CMemory
import BoxUtils.JsonBuilding
import BoxUtils.JsonEquality
import BoxUtils.JsonStrings
import BoxUtils.JsonStringRuns
import BoxUtils.Fmt
import BoxUtils.Headers
import BoxUtils.HeaderLines
import BoxUtils.EscapeUrl
import BoxUtils.Factory
import BoxUtils.JsonPop
import BoxUtils.XPathIteration
import BoxUtils.HeadersKept
import BoxUtils.ResponseLines
import BoxUtils.SListDup
import BoxUtils.IconvOutput
import BoxUtils.Congruential
import BoxUtils.Random
import BoxUtils.FailedRuns
import BoxUtils.SocketFlags
import BoxUtils.SocketAddr
import BoxUtils.ExitStatus
import BoxUtils.ReadLine
import BoxUtils.Backtrace
import BoxUtils.Base64Lengths
import BoxUtils.MemRand
import BoxUtils.CJsonPrint
import BoxUtils.CJsonText
import BoxUtils.CJsonPrintBuffer
import BoxUtils.CJsonPrintText
import BoxUtils.CJsonPrintCalls
import BoxUtils.CJsonReading
import BoxUtils.CJsonFilling
import BoxUtils.CJsonReadBack
import BoxUtils.CJsonRoundTrip
import BoxUtils.MergeSorting
import BoxUtils.CJsonSort
import BoxUtils.Siblings
import BoxUtils.CJsonSorted
import BoxUtils.CJsonSortObject
import BoxUtils.CJsonMinify
import BoxUtils.CJsonMinified
import BoxUtils.CJsonMinifiedRead
import BoxUtils.CJsonMinifiedText
import BoxUtils.MultiRuns
