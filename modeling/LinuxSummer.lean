import LinuxSummer.Machine
import LinuxSummer.FutexModel
import LinuxSummer.FutexInvariant
import LinuxSummer.FutexSignal
import LinuxSummer.FutexSleeper
import LinuxSummer.MpmcModel
import LinuxSummer.HinaDelivery
import LinuxSummer.LinkedTree
import LinuxSummer.MpmcCells
import LinuxSummer.MpmcDelivery
import LinuxSummer.STreeDepth
import LinuxSummer.WorkStealDelivery
import LinuxSummer.FutexExclusion
import LinuxSummer.HinaArrays
import LinuxSummer.HinaOldArray
import LinuxSummer.Programs
import LinuxSummer.QsortArray
import LinuxSummer.QsortBytes
import LinuxSummer.QsortScale
import LinuxSummer.QsortSort
import LinuxSummer.AlignUp
import LinuxSummer.ClockCounter
import LinuxSummer.ClockRun
import LinuxSummer.FutexPi
import LinuxSummer.FutexPiCond
import LinuxSummer.FutexPiExclusion
import LinuxSummer.HinaSession
import LinuxSummer.LockRing
import LinuxSummer.LockRingInvariant
import LinuxSummer.LockRingProgress
import LinuxSummer.MpmcFindCell
import LinuxSummer.QsortInts
import LinuxSummer.QsortNums
import LinuxSummer.STreeHints
import LinuxSummer.RbWord
import LinuxSummer.TreeintSystem
import LinuxSummer.WorkStealSequential
import LinuxSummer.WorkStealTasks
import LinuxSummer.PoolCleanUp
import LinuxSummer.HinaSortSafety
import LinuxSummer.WorkStealLinear
import LinuxSummer.MpmcLinear
import LinuxSummer.MpmcRest
import LinuxSummer.ListHead
import LinuxSummer.FutexNotified
import LinuxSummer.FutexProgram
import LinuxSummer.FutexRefines
import LinuxSummer.FutexStuck
import LinuxSummer.ClockFutex
import LinuxSummer.FutexRest
