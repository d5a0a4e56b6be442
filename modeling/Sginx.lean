import Sginx.BlockSearch
import Sginx.CgiEnvironment
import Sginx.CgiInput
import Sginx.CleanupOnce
import Sginx.ConfBuffer
import Sginx.ConfSettings
import Sginx.Connection
import Sginx.ContentLength
import Sginx.EventLoopService
import Sginx.FdLine
import Sginx.HeaderDrain
import Sginx.HeaderEntries
import Sginx.HeaderTraversal
import Sginx.HeadersEnd
import Sginx.HttpMessages
import Sginx.IntrusiveList
import Sginx.KeepAlive
import Sginx.Library.Regions
import Sginx.LineExchange
import Sginx.MessageHandled
import Sginx.MethodToken
import Sginx.NotModified
import Sginx.PoolBlocks
import Sginx.PoolDestroy
import Sginx.PoolLifetime
import Sginx.PoolReset
import Sginx.PoolRuns
import Sginx.PostedBody
import Sginx.PriorityQueueCost
import Sginx.PriorityQueueOwnership
import Sginx.PriorityQueueUp
import Sginx.Readline
import Sginx.Rush
import Sginx.SendFile
import Sginx.ServedPath
import Sginx.SlabBitmap
import Sginx.SlabLayout
import Sginx.SlabSlots
import Sginx.SliceLifetime
import Sginx.SocketDrain
import Sginx.SocketMessages
import Sginx.ThreadPoolCompletion
import Sginx.ThreadPoolOwnership
import Sginx.ThreadPoolShutdown
import Sginx.ThreadPoolWakeup
import Sginx.TimerCancel
import Sginx.TimerIdle
import Sginx.TimerReentrant
import Sginx.Writeline
