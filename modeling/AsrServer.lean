import AsrServer.Occurrence
import AsrServer.Transition
import AsrServer.Machine
import AsrServer.Bytes
import AsrServer.RequestHeader
import AsrServer.Numbers
import AsrServer.ReadPath
import AsrServer.Framing
import AsrServer.Fragmentation
import AsrServer.BodyIntegrity
import AsrServer.ReadBounds
import AsrServer.ReadSurvival
import AsrServer.MessageStream
import AsrServer.MessageBoundaries
import AsrServer.Reply
import AsrServer.Server
import AsrServer.Steps
import AsrServer.Ownership
import AsrServer.ConnectionTable
import AsrServer.RefCount
import AsrServer.References
import AsrServer.Lifetime
import AsrServer.Receivers
import AsrServer.Stranded
import AsrServer.ServicePool
import AsrServer.ReplyOrder
import AsrServer.ReplyStream
import AsrServer.Ring
import AsrServer.WaitList
import AsrServer.WorkQueue
import AsrServer.WakeUps
import AsrServer.UrlCode
import AsrServer.ParseWorker
import AsrServer.ParameterFields
import AsrServer.FormParameters
import AsrServer.JsonReader
import AsrServer.JsonNesting
import AsrServer.JsonPath
import AsrServer.WorkerStore
import AsrServer.MemberArrival
import AsrServer.ChunkedContent
import AsrServer.HttpResponse
import AsrServer.ChunkRounds
import AsrServer.ResponseFragments
import AsrServer.Base64
import AsrServer.Delivery
import AsrServer.HttpHeader
import AsrServer.ReadableReply
import AsrServer.SiblingTree
import AsrServer.ConfigMap
import AsrServer.ConfigFile
import AsrServer.Shutdown
import AsrServer.ChunkProgress
import AsrServer.ChunkGrammar
import AsrServer.RequestForm
import AsrServer.UrlBuffers
import AsrServer.EventLoop
import AsrServer.EventDispatch
import AsrServer.BitStrings
import AsrServer.Base64Text
import AsrServer.Enumeration
import AsrServer.Configured
import AsrServer.TimedRead
import AsrServer.ResponseBudget
import AsrServer.JsonContent
import AsrServer.Utf8Units
import AsrServer.JsonString
import AsrServer.UntimedResponse
import AsrServer.ServerLoop
import AsrServer.Utf8Substr
import AsrServer.PrefixCode
import AsrServer.StringConvert
import AsrServer.Utf8Validity
import AsrServer.Ngram
import AsrServer.ReplaceAll
import AsrServer.Split
import AsrServer.LinkedList
import AsrServer.Locations
import AsrServer.AtRest
import AsrServer.Settling
import AsrServer.CriticalSection
import AsrServer.ReplyLock
import AsrServer.AcceptedReply
import AsrServer.Barrier
import AsrServer.JsonDocument
import AsrServer.TaskBase
import AsrServer.TaskRuns
import AsrServer.Teardown
import AsrServer.RequestArrival
import AsrServer.RequestStream
import AsrServer.DecoderAgreement
import AsrServer.JsonWriter
