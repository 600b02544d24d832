import Xuanqiong.Base.Machine
import Xuanqiong.Base.Threads
import Xuanqiong.Base.Link
import Xuanqiong.Base.Linear
import Xuanqiong.Base.Bytes
import Xuanqiong.Util.Block
import Xuanqiong.Util.OutputBuffer
import Xuanqiong.Util.OutputOps
import Xuanqiong.Util.OutputQueue
import Xuanqiong.Util.InputBuffer
import Xuanqiong.Util.InputOps
import Xuanqiong.Util.InputStream
import Xuanqiong.Util.FetchUint32
import Xuanqiong.Util.ZeroCopy
import Xuanqiong.Util.InputRoom
import Xuanqiong.Util.InputSkip
import Xuanqiong.Util.InputPieces
import Xuanqiong.Util.InputBlocks
import Xuanqiong.Util.OutputBlocks
import Xuanqiong.Util.MpmcQueue
import Xuanqiong.Util.MpmcInv
import Xuanqiong.Util.MpmcSteps
import Xuanqiong.Util.MpmcFifo
import Xuanqiong.Util.MpmcReclaim
import Xuanqiong.Util.MpmcSolo
import Xuanqiong.Util.MpmcSeq
import Xuanqiong.Util.MpmcChunks
import Xuanqiong.Util.MpmcStall
import Xuanqiong.Util.MpmcRetire
import Xuanqiong.Util.MpmcWalk
import Xuanqiong.Util.MpmcRefs
import Xuanqiong.Util.MpmcLinear
import Xuanqiong.Scheduler.Notify
import Xuanqiong.Scheduler.Executor
import Xuanqiong.Scheduler.TaskOrder
import Xuanqiong.Scheduler.Stop
import Xuanqiong.Scheduler.FailedSignal
import Xuanqiong.Net.PollWrite
import Xuanqiong.Net.UringWrite
import Xuanqiong.Net.UringStall
import Xuanqiong.Net.UringSend
import Xuanqiong.Net.Connection
import Xuanqiong.Net.Frames
import Xuanqiong.Net.ConnBlocks
import Xuanqiong.Net.Coroutines
import Xuanqiong.Net.ConnInv
import Xuanqiong.Net.AsyncWrite
import Xuanqiong.Net.AsyncRead
import Xuanqiong.Net.EdgeRead
import Xuanqiong.Net.PollFlush
import Xuanqiong.Server.RecvFn
import Xuanqiong.Server.Pipeline
import Xuanqiong.Server.LeftBytes
import Xuanqiong.Net.ResumeWrite
import Xuanqiong.Server.ResumeRead
import Xuanqiong.Server.Teardown
import Xuanqiong.Server.ReadEof
import Xuanqiong.Server.RingConn
import Xuanqiong.Server.RingTeardown
import Xuanqiong.Server.Start
import Xuanqiong.Client.RecvFn
import Xuanqiong.Client.Sessions
import Xuanqiong.Client.Responses
import Xuanqiong.Rpc.Wire
import Xuanqiong.Rpc.EndToEnd
import Xuanqiong.Rpc.Delivery
import Xuanqiong.Rpc.Stream
import Xuanqiong.Rpc.Poll
import Xuanqiong.Rpc.Ring
import Xuanqiong.Rpc.Memory
import Xuanqiong.Net.KqueueEvents
import Xuanqiong.Rpc.Kqueue
import Xuanqiong.Rpc.Threads
