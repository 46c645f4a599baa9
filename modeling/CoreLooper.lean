import CoreLooper.TimerManager
import CoreLooper.WheelSlots
import CoreLooper.TimerLinks
import CoreLooper.TimerSlots
import CoreLooper.TimerInvariant
import CoreLooper.TimerDetect
import CoreLooper.TimerCalls
import CoreLooper.TimerHandOut
import CoreLooper.TimerRuns
import CoreLooper.Transitions
import CoreLooper.LooperImpl
import CoreLooper.LooperQueue
import CoreLooper.LooperSenders
import CoreLooper.CStrings
import CoreLooper.Framing
import CoreLooper.OrderedMap
import CoreLooper.ByteQueue
import CoreLooper.TextSeparator
import CoreLooper.CommonTextProtocol
import CoreLooper.CommonTextProtocol2
import CoreLooper.CtpSafety
import CoreLooper.CtpSegments
import CoreLooper.CtpInput
import CoreLooper.TimerKills
import CoreLooper.LinkedRings
import CoreLooper.TimerPointers
import CoreLooper.TimerNumbers
import CoreLooper.TimerOwnership
import CoreLooper.GarbageCollector
import CoreLooper.PostResults
import CoreLooper.ByteBuffer
import CoreLooper.ByteBufferQueue
import CoreLooper.Sctp
import CoreLooper.SctpFrames
import CoreLooper.SctpRoundTrip
import CoreLooper.SctpOutbox
import CoreLooper.SctpChecksum
import CoreLooper.WebSocketSplitter
import CoreLooper.WebSocketFrames
import CoreLooper.WebSocketRuns
import CoreLooper.UserMan
import CoreLooper.HttpParams
import CoreLooper.HttpRequestLine
import CoreLooper.CtpMessages
import CoreLooper.CtpUnreliable
import CoreLooper.HttpFormBody
import CoreLooper.HttpFormParts
import CoreLooper.HttpPost
import CoreLooper.HttpPostRuns
import CoreLooper.HttpFormRoundTrip
import CoreLooper.TimerIds
import CoreLooper.TimerCallbacks
import CoreLooper.TimerRemoval
import CoreLooper.TimerServed
import CoreLooper.TimerSleep
import CoreLooper.HttpFileHandler
import CoreLooper.HttpRangeRuns
import CoreLooper.HttpPostAck
import CoreLooper.HttpResponse
import CoreLooper.HttpAckEnd
import CoreLooper.JcpProtocol
import CoreLooper.JpDemux
import CoreLooper.SctpNoise
import CoreLooper.HttpPath
import CoreLooper.UrlEscape
import CoreLooper.CommandLine
import CoreLooper.Gregorian
import CoreLooper.DateTime
import CoreLooper.DateTexts
import CoreLooper.IniFile
import CoreLooper.IniRoundTrip
import CoreLooper.SilentRuns
import CoreLooper.CtpReset
import CoreLooper.HandlerTree
import CoreLooper.HandlerForest
import CoreLooper.HandlerLookup
import CoreLooper.HandlerCycles
import CoreLooper.CByteBuffer
import CoreLooper.LogFile
import CoreLooper.Assignments
import CoreLooper.TextLines
import CoreLooper.SimpleIni
import CoreLooper.SimpleIniRoundTrip
import CoreLooper.StringParam
import CoreLooper.FieldCodec
import CoreLooper.FieldMerge
import CoreLooper.FieldsInPlace
import CoreLooper.ByteBufferLines
import CoreLooper.StringTool
import CoreLooper.XmlEscape
import CoreLooper.DnsLooper
import CoreLooper.DnsInvariant
import CoreLooper.DnsProgress
import CoreLooper.BcdTool
import CoreLooper.ByteTool
import CoreLooper.PairCollapse
import CoreLooper.FilePaths
import CoreLooper.CtpOneFrame
import CoreLooper.CtpRoundTrip
import CoreLooper.PathWalk
import CoreLooper.WebFolders
import CoreLooper.HandlerAdoption
import CoreLooper.HandlerLives
import CoreLooper.Runnables
import CoreLooper.RunnableTimers
import CoreLooper.RunnablePlaces
import CoreLooper.RunnableRuns
import CoreLooper.ChunkDecoders
import CoreLooper.ChunkAgreement
import CoreLooper.HttpConnection
import CoreLooper.HttpFraming
import CoreLooper.HttpServed
import CoreLooper.HttpGet
import CoreLooper.HttpDownload
import CoreLooper.HttpDownloadRuns
import CoreLooper.HttpAnswers
