import MiniOsv.Mempool.AllocComplete
import MiniOsv.Mempool.L2Refill
import MiniOsv.Sync.RcuWakes
import MiniOsv.Sync.RwLimits
import MiniOsv.Sync.LfMutexRuns
import MiniOsv.Mmu.TableDetach
import MiniOsv.Mmu.TlbContract
import MiniOsv.Timer.TimerExpire
import MiniOsv.Mempool.Memalign
import MiniOsv.Mempool.PagePool
import MiniOsv.Mempool.ObjectPool
import MiniOsv.Mmu.Mprotect
import MiniOsv.Mmu.SplitLarge
import MiniOsv.Mmu.Faults
import MiniOsv.Sync.FutexWake
import MiniOsv.Sync.StdRwMutex2Runs
import MiniOsv.Sync.PrLockDuty
import MiniOsv.Sync.Semaphore
import MiniOsv.Sched.ThreadExit
import MiniOsv.Sched.CpuTime
import MiniOsv.Sched.MigrationLock
import MiniOsv.Sched.PinWakeupsRuns
import MiniOsv.Sync.Barrier
import MiniOsv.Sync.CondvarMutex
import MiniOsv.Sync.CondvarWakeAll
import MiniOsv.Mempool.Reclaimer
import MiniOsv.Libc.Select
import MiniOsv.Libc.SignalWait
import MiniOsv.Libc.EnvironRace
import MiniOsv.Libc.NamedSemaphores
import MiniOsv.Arch.BootMemory
import MiniOsv.Libc.PthreadOnce
import MiniOsv.Libc.Itimer
import MiniOsv.Arch.ItsQueue
import MiniOsv.Arch.ItsMap
import MiniOsv.Sync.StdRwMutex2Version
import MiniOsv.Arch.ClockEvents
import MiniOsv.Arch.GicLpi
import MiniOsv.Arch.Pvclock
import MiniOsv.Arch.BootTime
import MiniOsv.Drivers.DebugBuffer
import MiniOsv.Drivers.BarSize
