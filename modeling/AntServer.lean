import AntServer.ChaseLev
import AntServer.SpmcOwnership
import AntServer.SpmcCopy
import AntServer.ExecutorConservation
import AntServer.ExecutorPinning
import AntServer.SchedulerOwner
import AntServer.TimerTimeliness
import AntServer.TimerDispatch
import AntServer.TimerCancel
import AntServer.TimerClosures
import AntServer.TimerWheelInvariant
import AntServer.TimeoutResume
import AntServer.AwaiterHandOff
import AntServer.HttpSplit
import AntServer.HttpFraming
import AntServer.HttpHeaders
import AntServer.HttpKeepAlive
import AntServer.HttpResponses
import AntServer.RingOwner
import AntServer.Reactor
import AntServer.ReactorOwners
import AntServer.TimerReclaim
import AntServer.HttpTeardown
import AntServer.HttpServer
import AntServer.HttpServerBuffers
import AntServer.HttpServerRefines
import AntServer.SpmcDeque
import AntServer.OverflowSteps
import AntServer.ExecutorOverflow
import AntServer.BoundedWait
import AntServer.ExecutorFairness
import AntServer.TimerExecutor
import AntServer.Inbox
import AntServer.TimeoutFrames
import AntServer.Lifecycle
import AntServer.SocketAwait
import AntServer.Chrono
import AntServer.SleepFor
import AntServer.RefCount
import AntServer.IOBuf
import AntServer.IOBufInvariant
import AntServer.IOBufContents
import AntServer.ReadBuffer
import AntServer.IOBufCut
import AntServer.MaskedRing
import AntServer.IOBufView
import AntServer.IOBufViewRun
import AntServer.IOBufWrite
import AntServer.XorShift
import AntServer.XorLinear
import AntServer.FastRandom
import AntServer.FastRandomPeriod
import AntServer.SpinLockFifo
import AntServer.Dispatch
import AntServer.Parking
