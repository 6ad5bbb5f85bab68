import Xv6.LostWakeup
import Xv6.LogSpace
import Xv6.PipeWaiters
import Xv6.KillTarget
import Xv6.TimeAccounting
import Xv6.MlfqRotation
import Xv6.MlfqLevels
import Xv6.FailedFork
import Xv6.SleepLocks
import Xv6.MkfsNamei
import Xv6.MkfsLimits
import Xv6.PriorityShare
import Xv6.SyscallArgs
import Xv6.VmCopyout
import Xv6.MlfqTicks
import Xv6.Console
import Xv6.LogTrace
import Xv6.SharedWrites
import Xv6.DirectoryMap
import Xv6.FullDirectory
import Xv6.SleepTicks
import Xv6.MpTable
import Xv6.Grep
import Xv6.ShellRedirs
import Xv6.CopyFile
import Xv6.UmallocSbrk
import Xv6.Memmove
import Xv6.InterruptNesting
