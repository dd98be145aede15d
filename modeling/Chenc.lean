import Chenc.Convert.Overflow
import Chenc.Convert.Bounds
import Chenc.Convert.Recovery
import Chenc.Convert.Truncation
import Chenc.Convert.Relaxed
import Chenc.Struct.ArrayGroup
import Chenc.Struct.ArrayIncrement
import Chenc.Thread.QueueProtocol
import Chenc.Thread.QueueCapacity
import Chenc.Lock.Mutex
import Chenc.Lock.SharedMutexWakeup
import Chenc.Lock.RwLockWakeup
import Chenc.Core.IntProgram
import Chenc.Convert.ApplyArg
import Chenc.Convert.UtfEndian
import Chenc.Convert.EndianVerdict
import Chenc.Convert.CharToChar
import Chenc.Convert.Compatible
import Chenc.Vm.LoadImmediate
import Chenc.Vm.PushPop
import Chenc.Vm.CallFrames
import Chenc.Lock.SpinLock
import Chenc.Lock.SpinLockWakeup
import Chenc.Lock.ProtectedCounter
import Chenc.Lock.RwLockPriority
import Chenc.Lock.SharedMutexPriority
import Chenc.Thread.QueueRefinement
import Chenc.Thread.QueueResources
import Chenc.Thread.QueueBenchmark
import Chenc.Thread.QueueProgress
import Chenc.Convert.Composition
import Chenc.Convert.Sanitising
import Chenc.Convert.MainProgram
import Chenc.Struct.ArrayProgram
import Chenc.Vm.NestedCode
