import Xv6.Signal.Cstack

/-!
# The process table and the control points of `proc.c`

The process table has no lock: every function reads and writes it with single loads, stores and cas calls. A control
point names the next of these accesses.
-/

namespace Xv6

open Function (update)

inductive ProcState
  | unused | embryo | sleeping | runnable | running | zombie | nSleeping | nRunnable | nZombie
  deriving DecidableEq

/-- A sleep channel: the null pointer, the address of a process, or another address of the kernel. -/
inductive Chan
  | null
  | proc (p : Slot)
  | addr (a : ℕ)
  deriving DecidableEq

/-- A page that `kalloc` can return; a page directory is named by its own page. -/
abbrev Page := ℕ

/-! ## Control points -/

/-- In the body of the loop of `wakeup1`. -/
inductive WakeAt
  /-- `p->chan == chan`. -/
  | chan
  /-- `cas(&p->state, nSLEEPING, nRUNNABLE)`. -/
  | casN
  /-- `p->chan = 0` after the first cas. -/
  | clrN
  /-- `cas(&p->state, SLEEPING, RUNNABLE)`. -/
  | casS
  /-- `p->chan = 0` after the second cas. -/
  | clrS
  deriving DecidableEq

/-- `wakeup1(chan)` at the process `p`. -/
structure Wake where
  chan : Chan
  p : Slot
  pc : WakeAt
  deriving DecidableEq

/-- `fix_tf`, at its accesses to the process table and to the pending signals. -/
inductive Fix
  /-- `proc->handling_signal == 1`. -/
  | handling
  | pop (pc : Pop)
  /-- `proc->sighandler == DEFSIG_HENDLER`. -/
  | handler (i : FrameIx)
  /-- `proc->handling_signal = 1`. -/
  | set (i : FrameIx)
  /-- `new_signal->used = 0`. -/
  | used (i : FrameIx)
  /-- The load of `new_signal->value`. -/
  | value (i : FrameIx)
  /-- The load of `new_signal->sender_pid`; the pair is then on the user stack. -/
  | sender (i : FrameIx) (v : Word)
  deriving DecidableEq

inductive Wait
  /-- `proc->chan = (int)proc`. -/
  | chan
  /-- `cas(&proc->state, RUNNING, nSLEEPING)`. -/
  | cas
  /-- `p->parent != proc`, with `havekids` so far. -/
  | parent (p : Slot) (havekids : Bool)
  /-- `while(p->state == nZOMBIE)`. -/
  | spin (p : Slot)
  /-- `p->state == ZOMBIE`. -/
  | zombie (p : Slot)
  /-- `pid = p->pid`. -/
  | pid (p : Slot)
  /-- `cas(&p->state, ZOMBIE, UNUSED)`. -/
  | reap (p : Slot) (pid : Word)
  /-- `p->pid = 0`. -/
  | clrPid (p : Slot) (pid : Word)
  /-- `p->parent = 0`. -/
  | clrParent (p : Slot) (pid : Word)
  /-- `proc->chan = 0` on the way out with a pid. -/
  | clrChan (pid : Word)
  /-- `cas(&proc->state, nRUNNABLE, RUNNING)`. -/
  | casR (pid : Word)
  /-- `cas(&proc->state, nSLEEPING, RUNNING)`. -/
  | casS (pid : Word)
  /-- `!havekids || proc->killed`. -/
  | kids (havekids : Bool)
  /-- `proc->chan = 0` on the way out with -1. -/
  | failChan
  /-- `cas(&proc->state, nSLEEPING, RUNNING)` on the way out with -1. -/
  | failCas
  /-- The return; `none` is -1. -/
  | ret (r : Option Word)
  deriving DecidableEq

inductive Exit
  /-- `proc == initproc`. -/
  | init
  /-- `cas(&proc->state, RUNNING, nZOMBIE)`. -/
  | cas
  /-- The load of `proc->parent`. -/
  | parent
  /-- `wakeup1(proc->parent)`. -/
  | wake (w : Wake)
  /-- `p->parent == proc`. -/
  | scan (p : Slot)
  /-- `p->parent = initproc`. -/
  | adopt (p : Slot)
  /-- `p->state == ZOMBIE`. -/
  | zombie (p : Slot)
  /-- `p->state == nZOMBIE`. -/
  | nZombie (p : Slot)
  /-- `wakeup1(initproc)` for the child `p`. -/
  | wakeInit (w : Wake) (p : Slot)
  deriving DecidableEq

/-- `fork`, with `allocproc` and `allocpid`; `p` is `np`. -/
inductive Fork
  /-- `cas(&p->state, UNUSED, EMBRYO)`. -/
  | scan (p : Slot)
  /-- `pid = nextpid`. -/
  | loadPid (p : Slot)
  /-- `cas(&nextpid, pid, pid+1)`. -/
  | casPid (p : Slot) (pid : Word)
  /-- `p->pid = allocpid()`. -/
  | setPid (p : Slot) (pid : Word)
  | kalloc (p : Slot)
  /-- `p->kstack = kalloc()`. -/
  | setKstack (p : Slot) (k : Option Page)
  /-- `p->state = UNUSED`, no kernel stack. -/
  | noKstack (p : Slot)
  /-- `csf->used = 0`. -/
  | clrUsed (p : Slot) (i : FrameIx)
  /-- `p->pending_signals.head = 0`. -/
  | clrHead (p : Slot)
  /-- `p->handling_signal = 0`. -/
  | clrHandling (p : Slot)
  /-- `p->context`, set up to start at `forkret`. -/
  | context (p : Slot)
  | copyuvm (p : Slot)
  /-- `np->pgdir = copyuvm(..)`. -/
  | setPgdir (p : Slot) (d : Option Page)
  /-- `kfree(np->kstack)`, no page directory. -/
  | freeKstack (p : Slot)
  /-- `np->kstack = 0`. -/
  | clrKstack (p : Slot)
  /-- `np->state = UNUSED`, no page directory. -/
  | noPgdir (p : Slot)
  /-- `np->parent = proc`. -/
  | parent (p : Slot)
  /-- The load of `proc->sighandler`. -/
  | loadHandler (p : Slot)
  /-- `np->sighandler = proc->sighandler`. -/
  | setHandler (p : Slot) (h : Word)
  /-- `pid = np->pid`. -/
  | pid (p : Slot)
  /-- `cas(&np->state, EMBRYO, RUNNABLE)`. -/
  | cas (p : Slot) (pid : Word)
  /-- The return; `none` is -1. -/
  | ret (r : Option Word)
  deriving DecidableEq

inductive Send
  /-- `p->pid == dest_pid`. -/
  | scan (p : Slot)
  /-- The load of `proc->pid` for the call of `push`. -/
  | self (p : Slot)
  | push (p : Slot) (r : Record) (pc : Push)
  /-- The load of `p->chan`. -/
  | chan (p : Slot)
  | wake (w : Wake)
  /-- The return: `true` is 0, `false` is -1. -/
  | ret (b : Bool)
  deriving DecidableEq

inductive Pause
  /-- `is_empty` before the loop. -/
  | empty1
  /-- `proc->chan = (int)proc`. -/
  | chan
  /-- `cas(&proc->state, RUNNING, nSLEEPING)`. -/
  | cas
  /-- `is_empty` in the loop. -/
  | empty2
  /-- `cas(&proc->state, nSLEEPING, RUNNING)`. -/
  | undoN
  /-- `cas(&proc->state, SLEEPING, RUNNING)`. -/
  | undoS
  | ret
  deriving DecidableEq

inductive Kill
  /-- `p->pid == pid`. -/
  | scan (p : Slot)
  /-- `p->killed = 1`. -/
  | set (p : Slot)
  /-- `while(p->state == nSLEEPING)`. -/
  | spin (p : Slot)
  /-- `cas(&proc->state, SLEEPING, RUNNING)`, on the caller. -/
  | cas
  | ret
  deriving DecidableEq

/-- Who called `sched`. -/
inductive SchedK
  | sleep (c : Chan)
  | wait
  | sigpause
  | exit
  deriving DecidableEq

/-- A process outside interrupt handlers. -/
inductive Pc
  /-- User code, and kernel code that does not touch the process table. -/
  | idle
  /-- `proc->chan = chan` in `sleep`. -/
  | sleepChan (c : Chan)
  /-- `cas(&proc->state, RUNNING, nSLEEPING)` in `sleep`. -/
  | sleepCas (c : Chan)
  /-- `sleep` after `sched`. -/
  | sleepRet (c : Chan)
  | wakeup (w : Wake)
  | wait (pc : Wait)
  | exit (pc : Exit)
  | fork (pc : Fork)
  | sigsend (dest value : Word) (pc : Send)
  | sigpause (pc : Pause)
  | kill (pid : Word) (pc : Kill)
  /-- `proc->sighandler = new_handler`. -/
  | sigset (h : Word)
  /-- `proc->handling_signal = 0` in `sigret`. -/
  | sigret
  /-- `proc->killed = 1` in `trap`, after a fault of the user program. -/
  | fault
  | fixTf (pc : Fix)
  /-- `sched`, at `proc->state == RUNNING`. -/
  | sched (k : SchedK)
  /-- `swtch(&proc->context, cpu->scheduler)`. -/
  | swtch (k : SchedK)
  /-- `panic` does not return. -/
  | panic
  deriving DecidableEq

/-- An interrupt handler that runs on top of a process. -/
inductive Intr
  /-- A `wakeup` of the handler; then, for the clock, the end of `trap`. -/
  | wake (w : Wake) (timer : Bool)
  /-- `proc->state == RUNNING` in `trap`, after a clock interrupt. -/
  | trap
  /-- `cas(&proc->state, RUNNING, nRUNNABLE)` in `yield`. -/
  | yieldCas
  | sched
  | swtch
  /-- `yield` after `sched`. -/
  | yieldRet
  | fixTf (pc : Fix)
  /-- `panic` does not return. -/
  | panic
  deriving DecidableEq

/-- The kernel thread of a process. Interrupt gates clear `FL_IF`, so at most one handler runs on top of it. -/
structure Thread where
  base : Pc
  intr : Option Intr
  deriving DecidableEq

inductive Sched
  /-- The window between `sti` and `pushcli`. -/
  | start
  /-- `cas(&p->state, RUNNABLE, RUNNING)`. -/
  | pick (p : Slot)
  /-- `swtch(&cpu->scheduler, proc->context)`. -/
  | load (p : Slot)
  /-- `cas(&p->state, nRUNNABLE, RUNNABLE)`. -/
  | post1 (p : Slot)
  /-- `cas(&p->state, nSLEEPING, SLEEPING)`. -/
  | post2 (p : Slot)
  /-- `cas(&p->state, nZOMBIE, ZOMBIE)`. -/
  | post3 (p : Slot)
  /-- `p->state == ZOMBIE`; `z` is the result of the cas before, which the code does not look at. -/
  | check (p : Slot) (z : Bool)
  /-- `p->state != ZOMBIE` in `freeproc`. -/
  | freeCheck (p : Slot)
  /-- `kfree(p->kstack)`. -/
  | freeKstack (p : Slot)
  /-- `p->kstack = 0`. -/
  | clrKstack (p : Slot)
  /-- `freevm(p->pgdir)`. -/
  | freePgdir (p : Slot)
  /-- `p->killed = 0`. -/
  | clrKilled (p : Slot)
  /-- `p->chan = 0`. -/
  | clrChan (p : Slot)
  | panic
  deriving DecidableEq

/-- What a CPU executes. -/
inductive CpuCtl
  | sched (pc : Sched)
  /-- A handler's `wakeup` in the scheduler's interrupt window, with no process. -/
  | intr (w : Wake)
  /-- The process `p`, at the control point of its thread. -/
  | run (p : Slot) (th : Thread)
  deriving DecidableEq

/-! ## The process table -/

/-- The process table, one column for each field of `struct proc`, with `nextpid` and the pages in use. -/
structure Mem where
  state : Slot → ProcState
  chan : Slot → Chan
  pid : Slot → Word
  parent : Slot → Option Slot
  killed : Slot → Bool
  kstack : Slot → Option Page
  pgdir : Slot → Option Page
  /-- Where `swtch` resumes the process. -/
  context : Slot → Thread
  sighandler : Slot → Word
  pending : Slot → Cstack
  handling : Slot → Bool
  nextpid : Word
  /-- Pages that are not on the free list of `kalloc`. -/
  inUse : Page → Bool

/-- The process table and every CPU. -/
structure State (Cpu : Type*) where
  mem : Mem
  cpu : Cpu → CpuCtl

/-- `initproc`: `userinit` takes the first entry of the table. -/
def initproc : Slot := 0

namespace Mem

variable (m : Mem) (p : Slot)

def setState (v : ProcState) : Mem := { m with state := update m.state p v }

def setChan (v : Chan) : Mem := { m with chan := update m.chan p v }

def setPid (v : Word) : Mem := { m with pid := update m.pid p v }

def setParent (v : Option Slot) : Mem := { m with parent := update m.parent p v }

def setKilled (v : Bool) : Mem := { m with killed := update m.killed p v }

def setKstack (v : Option Page) : Mem := { m with kstack := update m.kstack p v }

def setPgdir (v : Option Page) : Mem := { m with pgdir := update m.pgdir p v }

def setContext (v : Thread) : Mem := { m with context := update m.context p v }

def setSighandler (v : Word) : Mem := { m with sighandler := update m.sighandler p v }

def setPending (v : Cstack) : Mem := { m with pending := update m.pending p v }

def setHandling (v : Bool) : Mem := { m with handling := update m.handling p v }

def setInUse (k : Page) (v : Bool) : Mem := { m with inUse := update m.inUse k v }

def cas (e n : ProcState) : Mem := if m.state p = e then m.setState p n else m

end Mem

end Xv6
