import Xv6.Signal.Linear
import Xv6.Proc.Stranded
import Xv6.Proc.Channel
import Xv6.Trap.Undisturbed
import Xv6.Trap.Sigret
import Xv6.Trap.Activation
import Xv6.Trap.Privilege
import Xv6.Trap.Leak
import Xv6.Cli.Matched
import Xv6.Log.Capacity
import Xv6.Log.Refine
import Xv6.Fs.Links
import Xv6.Fs.Dangling
import Xv6.Trap.Stores
import Xv6.Proc.Lookup
import Xv6.Pipes.Fifo
import Xv6.File.Shared
import Xv6.Primsrv.Session
import Xv6.Shell.Accept
import Xv6.Proc.Alloc
import Xv6.Bio.Errors
import Xv6.Disk.Directory
import Xv6.Fs.Resolve
import Xv6.Disk.Reserve
import Xv6.Paging.Unmap
import Xv6.Paging.Copyout
import Xv6.Malloc.Sbrk
import Xv6.Exec.Arguments
import Xv6.Vm.Leak
import Xv6.Grep.Regex
import Xv6.Memmove
import Xv6.Primsrv.Prime
import Xv6.Mp
import Xv6.Shell.Terminate
import Xv6.Spinlock
