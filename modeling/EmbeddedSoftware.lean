import EmbeddedSoftware.ListBlocks
import EmbeddedSoftware.ByteLayout
import EmbeddedSoftware.StructLayout
import EmbeddedSoftware.LossyChannel
import EmbeddedSoftware.RunRules
import EmbeddedSoftware.CStrings
import EmbeddedSoftware.StopAndWait
import EmbeddedSoftware.PacketDetails
import EmbeddedSoftware.FileStreams
import EmbeddedSoftware.TransferLoops
import EmbeddedSoftware.LoopCores
import EmbeddedSoftware.LoopAgreement
import EmbeddedSoftware.TransferSystem
import EmbeddedSoftware.TransferSafety
import EmbeddedSoftware.SynchronousRounds
import EmbeddedSoftware.SenderPackets
import EmbeddedSoftware.CommandText
import EmbeddedSoftware.SessionPrograms
import EmbeddedSoftware.SessionSystem
import EmbeddedSoftware.PutSessions
import EmbeddedSoftware.PutServers
import EmbeddedSoftware.PutProgress
import EmbeddedSoftware.SessionIsolation
import EmbeddedSoftware.CommandIntegrity
import EmbeddedSoftware.MalformedPackets
import EmbeddedSoftware.InOrderSessions
import EmbeddedSoftware.InOrderTransfers
import EmbeddedSoftware.MissingSources
import EmbeddedSoftware.DirectoryListings
import EmbeddedSoftware.CountingSemaphore
import EmbeddedSoftware.OneSlotChannel
import EmbeddedSoftware.LoggerTasks
import EmbeddedSoftware.LoggerToken
import EmbeddedSoftware.LoggerRefinement
import EmbeddedSoftware.LoggerSafety
import EmbeddedSoftware.LoggerProducers
import EmbeddedSoftware.LoggerTrace
import EmbeddedSoftware.LoggerTimestamps
import EmbeddedSoftware.LoggerToggles
import EmbeddedSoftware.BubbleSort
import EmbeddedSoftware.UserMemory
import EmbeddedSoftware.SortCall
import EmbeddedSoftware.SortLoops
import EmbeddedSoftware.ExchangeSort
import EmbeddedSoftware.SortAnimal
import EmbeddedSoftware.LinkedRings
import EmbeddedSoftware.AnimalNodes
import EmbeddedSoftware.TimerModule
import EmbeddedSoftware.FifoStream
import EmbeddedSoftware.DrawnRecords
import EmbeddedSoftware.PipeExchange
import EmbeddedSoftware.SharedSegments
import EmbeddedSoftware.MessageQueues
import EmbeddedSoftware.QueueLayouts
import EmbeddedSoftware.SocketExchange
import EmbeddedSoftware.SharedHandle
import EmbeddedSoftware.LetterStatistics
import EmbeddedSoftware.LetterBuckets
import EmbeddedSoftware.ArgumentCopy
import EmbeddedSoftware.FileProgram
import EmbeddedSoftware.Credentials
import EmbeddedSoftware.ProcessGroups
import EmbeddedSoftware.ResourceLimits
import EmbeddedSoftware.Priorities
import EmbeddedSoftware.MemoryMaps
import EmbeddedSoftware.RoseTrees
import EmbeddedSoftware.Subreapers
import EmbeddedSoftware.SystemNames
import EmbeddedSoftware.SystemInfo
import EmbeddedSoftware.LoggerProgress
import EmbeddedSoftware.PrintedText
import EmbeddedSoftware.LoggerText
import EmbeddedSoftware.SortPrograms
import EmbeddedSoftware.PipeOutcome
import EmbeddedSoftware.GetProgress
