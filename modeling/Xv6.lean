import Xv6.Balloc
import Xv6.Bio.Lru
import Xv6.Bio.Supply
import Xv6.Exec.Vector
import Xv6.Find.Complete
import Xv6.Fs.Orphans
import Xv6.Fs.Torn
import Xv6.Grep.Lines
import Xv6.Grep.Match
import Xv6.Log.Crash
import Xv6.Log.Idle
import Xv6.Log.Reserve
import Xv6.Memmove
import Xv6.Pipe.Read
import Xv6.Pipe.Wakeup
import Xv6.Printf.Kernel
import Xv6.Printf.User
import Xv6.ProcTable.Kill
import Xv6.ProcTable.Pid
import Xv6.ProcTable.Tree
import Xv6.Sh.Terminate
import Xv6.Sleeplock.Exclusion
import Xv6.Spinlock.Nesting
import Xv6.Umalloc.Break
import Xv6.Vm.Str
import Xv6.Xargs.Bounds
import Xv6.Xargs.Errors
import Xv6.Xargs.Words
