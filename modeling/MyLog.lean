import MyLog.AtomicLog
import MyLog.Batches
import MyLog.BufferGrowth
import MyLog.BufferIndex
import MyLog.BufferQueue
import MyLog.BuildMode
import MyLog.BuilderPrograms
import MyLog.Composition
import MyLog.Delivery
import MyLog.Directories
import MyLog.Layout
import MyLog.Lifetime
import MyLog.LogFiles
import MyLog.Opening
import MyLog.Payload
import MyLog.ProgramSettling
import MyLog.Quiescence
import MyLog.Races
import MyLog.Recovery
import MyLog.RegistryOrder
import MyLog.RollBatching
import MyLog.RollCount
import MyLog.RollLimit
import MyLog.RollRecord
import MyLog.Sessions
import MyLog.Shutdown
import MyLog.SinkSharing
import MyLog.Standstill
import MyLog.TimeField
import MyLog.TimeSlots
