import Hzlibc.Internal.MutexCount
import Hzlibc.Posix.BarrierRounds
import Hzlibc.Posix.RwLockRuns
import Hzlibc.Internal.Once
import Hzlibc.Internal.CondWakeups
import Hzlibc.Rtld.Interposition
import Hzlibc.Stdio.EofFlag
import Hzlibc.Stdio.Position
import Hzlibc.Stdio.Getdelim
import Hzlibc.Stdio.PrintLock
import Hzlibc.Stdio.StrField
import Hzlibc.Stdio.RoundTrip
import Hzlibc.Stdio.ScanSet
import Hzlibc.Stdlib.Inttypes
import Hzlibc.Wchar.Canonical
import Hzlibc.Internal.Strtok
import Hzlibc.Time.Localtime
import Hzlibc.Stdlib.Environ
import Hzlibc.Glibc.Permutation
import Hzlibc.Posix.FnmatchGlob
import Hzlibc.Posix.RealpathLinks
import Hzlibc.Inet.Ipv6Text
import Hzlibc.Internal.DnsExpand
import Hzlibc.Glibc.NameserSections
import Hzlibc.Stdlib.Qsort
import Hzlibc.Posix.TimedWait
import Hzlibc.Internal.KeysRuns
import Hzlibc.Posix.SemaphoreWaiters
import Hzlibc.Posix.BarrierDestroy
import Hzlibc.Internal.ThreadExit
import Hzlibc.Lsb.Fork
import Hzlibc.Rtld.SymbolLookup
import Hzlibc.Rtld.RelocateTwice
import Hzlibc.Glibc.CxxDestructors
import Hzlibc.Stdlib.ExitReentry
import Hzlibc.Rtld.StaticTlsAbove
import Hzlibc.Rtld.TlsDescriptors
import Hzlibc.Rtld.GetSym
import Hzlibc.Rtld.FindObject
import Hzlibc.Rtld.RelrDecoding
import Hzlibc.Internal.Gcc
import Hzlibc.Posix.Spawn
import Hzlibc.Posix.Ucontext
