import Mcsos.ContextSwitch
import Mcsos.ElfPermissions
import Mcsos.ElfReads
import Mcsos.ElfRejected
import Mcsos.KernelBoot
import Mcsos.KmemBadFree
import Mcsos.KmemFirstFit
import Mcsos.KmemFreeReport
import Mcsos.KmemValidated
import Mcsos.LockdepDeadlock
import Mcsos.MutexLinear
import Mcsos.MutexQueries
import Mcsos.PathWalkers
import Mcsos.PicRuns
import Mcsos.PitTimer
import Mcsos.PmmOrder
import Mcsos.PmmReservation
import Mcsos.SchedulerEnqueue
import Mcsos.SchedulerFailures
import Mcsos.SchedulerStatistics
import Mcsos.SchedulerSwitch
import Mcsos.SchedulerValidate
import Mcsos.SerialPolling
import Mcsos.SpinlockCounter
import Mcsos.SpinlockLinear
import Mcsos.SyscallCopy
import Mcsos.SyscallDispatch
import Mcsos.SyscallEntry
import Mcsos.VfsAppend
import Mcsos.VfsFailures
import Mcsos.VfsIsolation
import Mcsos.VfsNamespace
import Mcsos.VfsReadOnly
import Mcsos.VfsRoundTrip
import Mcsos.VfsTransfers
import Mcsos.TrapRuns
import Mcsos.VmmAgreement
import Mcsos.VmmLedger
import Mcsos.VmmTlb
