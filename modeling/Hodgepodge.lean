import Hodgepodge.Core.Lts
import Hodgepodge.Core.Monitor
import Hodgepodge.Core.FilterFifo
import Hodgepodge.Threads.BlockingQueue
import Hodgepodge.Threads.BlockingQueueClose
import Hodgepodge.Threads.ThreadPool
import Hodgepodge.Threads.ThreadPoolStop
import Hodgepodge.Threads.ThreadPoolProgress
import Hodgepodge.Ipc.Notify
import Hodgepodge.Ipc.Registry
import Hodgepodge.Ipc.Handshake
import Hodgepodge.Core.Barrier
import Hodgepodge.Core.BaseChain
import Hodgepodge.Gemm.Matmult
import Hodgepodge.Gemm.MyGemm2
import Hodgepodge.Ipc.Leaks
import Hodgepodge.Ipc.EpollBatch
import Hodgepodge.Ipc.HandleMap
import Hodgepodge.Kernel.Reverse
import Hodgepodge.Kernel.ReverseData
import Hodgepodge.Threads.ThreadPoolDrain
import Hodgepodge.Core.Levels
import Hodgepodge.Core.SortedSet
import Hodgepodge.Cube.Cube
import Hodgepodge.Cube.Growth
import Hodgepodge.Cube.Search
import Hodgepodge.Socket.Descriptors
import Hodgepodge.Socket.Stream
import Hodgepodge.Threads.BlockingQueueMark
import Hodgepodge.Core.Checked
import Hodgepodge.Ipc.Tst1Progress
import Hodgepodge.Ipc.Uds
import Hodgepodge.Socket.ReceiveFds
import Hodgepodge.Kernel.ReverseFault
import Hodgepodge.Font.DrawBitmap
import Hodgepodge.Font.PrintString
import Hodgepodge.Ipc.ServerTst1
import Hodgepodge.Ipc.NamedPipe
import Hodgepodge.Font.Blend
import Hodgepodge.Gemm.MyGemm1
import Hodgepodge.Cube.Undo
import Hodgepodge.Socket.Setup
import Hodgepodge.Ipc.Names
import Hodgepodge.Core.Lens
import Hodgepodge.Config.Tuple
import Hodgepodge.Core.Calls
import Hodgepodge.Drm.Modeset
import Hodgepodge.Drm.Display
import Hodgepodge.Drm.Draw
import Hodgepodge.Ipc.PipeAccept
import Hodgepodge.Ipc.PipeAcceptInv
import Hodgepodge.Ipc.PipeAcceptRuns
import Hodgepodge.Core.RefCount
import Hodgepodge.Threads.SharedObjects
import Hodgepodge.Threads.SharedObjectsEnd
