import Mathlib.Tactic.Common

/-!
# Interrupt nesting: `pushcli`, `popcli` and `sched`

What `spinlock.c` and `proc.c` do to the interrupt flag. A CPU holds `ncli`, `intena` and its flag `FL_IF`; a thread is
a stack of activations (an interrupt puts a handler on top of whatever runs), each standing at a `Line`.
-/

namespace Xv6.Cli

/-- The panics of `sched` and `popcli` that concern interrupts. -/
inductive Panic
  | schedLocks            -- "sched locks"
  | schedInterruptible    -- "sched interruptible"
  | popcliInterruptible   -- "popcli - interruptible"
  | popcli                -- "popcli"
  deriving DecidableEq, Repr

/-! ## One CPU -/

/-- The fields of `struct cpu` used here and the flag `FL_IF` of the CPU's `eflags`. -/
structure Cpu where
  ncli : Int
  intena : Bool
  ifl : Bool
  deriving DecidableEq, Repr

/-- `pushcli` from `cli` on; `eflags` was read before. -/
def pushcli (c : Cpu) (eflags : Bool) : Cpu where
  ncli := c.ncli + 1
  intena := if c.ncli = 0 then eflags else c.intena
  ifl := false

def popcli (c : Cpu) : Except Panic Cpu :=
  if c.ifl then .error .popcliInterruptible
  else if c.ncli - 1 < 0 then .error .popcli
  else .ok { c with
    ncli := c.ncli - 1
    ifl := if c.ncli - 1 = 0 ∧ c.intena then true else c.ifl }

/-- `sched` up to its `swtch`: the value of its local `intena`. -/
def sched (c : Cpu) : Except Panic Bool :=
  if c.ncli ≠ 1 then .error .schedLocks
  else if c.ifl then .error .schedInterruptible
  else .ok c.intena

theorem popcli_ok {c : Cpu} (hi : c.ifl = false) (hn : 0 < c.ncli) :
    popcli c = .ok { c with ncli := c.ncli - 1, ifl := decide (c.ncli = 1) && c.intena } := by
  have h0 : ¬ c.ncli - 1 < 0 := by omega
  have h1 : c.ncli - 1 = 0 ↔ c.ncli = 1 := by omega
  by_cases h : c.ncli = 1 <;> cases hc : c.intena <;> simp [popcli, hi, h0, h1, h, hc]

theorem sched_ok {c : Cpu} (hi : c.ifl = false) (hn : c.ncli = 1) : sched c = .ok c.intena := by
  simp [sched, hi, hn]

/-! ## Threads -/

/-- Where an activation stands: the call of `pushcli`, `popcli` or `sched` that comes next in it. -/
inductive Line
  | user
  | kernel
  | yieldSched | yieldPop
  | sleepRelease | sleepSched | sleepAcquire | sleepPop
  | wait
  | sigpause | sigpauseSched | sigpausePop
  | exit | exited
  | forkret
  | schedulerSti | schedulerPush | scheduler
  deriving DecidableEq, Repr

structure Frame where
  line : Line
  /-- `eflags` of a `pushcli` that has not executed `cli` yet. -/
  eflags : Option Bool
  /-- `FL_IF` in the trap frame through which this activation was entered. -/
  saved : Bool
  depth : Nat
  was : Option Bool
  deriving DecidableEq, Repr

/-- An activation at `l` that has called nothing yet. -/
def Frame.enter (l : Line) (saved : Bool) : Frame := ⟨l, none, saved, 0, none⟩

structure Thread where
  top : Frame
  below : List Frame
  deriving DecidableEq, Repr

/-- What `swtch` saves in `proc->context`: a thread inside `sched`, or the context that `allocproc` makes. -/
inductive Context
  | resume (intena : Bool) (th : Thread)
  | forkret
  deriving DecidableEq, Repr

/-- A new process: `forkret` above user mode. The `pushcli` that its `popcli` undoes is the scheduler's. -/
def newborn : Thread := ⟨⟨.forkret, none, true, 1, none⟩, [.enter .user true]⟩

inductive Op
  | skip | pushcli | popcli | sched | sti
  deriving DecidableEq, Repr

/-- What the code does next where that is not determined by the line. -/
inductive Choice
  | go | done | acquire | release | yield | sleep | wait | sigpause | exit
  deriving DecidableEq, Repr

/-- The calls of kernel code outside the listed functions; `proc` says whether this CPU runs a process. -/
def Frame.call (f : Frame) (proc : Bool) : Choice → Option (Op × Line)
  | .acquire => some (.pushcli, .kernel)
  | .release => if 0 < f.depth then some (.popcli, .kernel) else none
  | .yield => if proc ∧ f.depth = 0 then some (.pushcli, .yieldSched) else none
  | .sleep => if proc ∧ f.depth = 1 then some (.pushcli, .sleepRelease) else none
  | .wait => if proc ∧ f.depth = 0 then some (.pushcli, .wait) else none
  | .sigpause => if proc ∧ f.depth = 0 then some (.skip, .sigpause) else none
  | .exit => if proc ∧ f.depth = 0 then some (.pushcli, .exit) else none
  | .go | .done => none

/-- The next call of an activation, and the line after it. -/
def Frame.next (f : Frame) (proc : Bool) (ch : Choice) : Option (Op × Line) :=
  match f.line, ch with
  | .kernel, ch => f.call proc ch
  | .yieldSched, .go => some (.sched, .yieldPop)
  | .yieldPop, .go => some (.popcli, .kernel)
  | .sleepRelease, .go => some (.popcli, .sleepSched)
  | .sleepSched, .go => some (.sched, .sleepAcquire)
  | .sleepAcquire, .go => some (.pushcli, .sleepPop)
  | .sleepPop, .go => some (.popcli, .kernel)
  -- no child is a zombie yet
  | .wait, .go => some (.sched, .wait)
  | .wait, .done => some (.popcli, .kernel)
  | .sigpause, .go => some (.pushcli, .sigpauseSched)
  | .sigpause, .done => some (.skip, .kernel)
  | .sigpauseSched, .go => some (.sched, .sigpausePop)
  | .sigpausePop, .go => some (.popcli, .sigpause)
  | .exit, .go => some (.sched, .exited)
  -- `cas` failed
  | .exit, .done => some (.popcli, .kernel)
  | .forkret, .go => some (.popcli, .kernel)
  | .schedulerSti, .go => some (.sti, .schedulerPush)
  | .schedulerPush, .go => some (.pushcli, .scheduler)
  -- `switchuvm` and the locks taken by `freeproc`
  | .scheduler, .acquire => some (.pushcli, .scheduler)
  | .scheduler, .release => if 1 < f.depth then some (.popcli, .scheduler) else none
  | .scheduler, .done => if f.depth = 1 then some (.popcli, .schedulerSti) else none
  | _, _ => none

/-! ## The machine -/

variable {C P : Type*}

/-- A CPU with what it executes. `scheduler` is the saved context of its scheduler while a process runs. -/
structure Core (P : Type*) where
  cpu : Cpu
  proc : Option P
  run : Thread
  scheduler : Thread
  panic : Option Panic
  deriving DecidableEq

structure Machine (C P : Type*) where
  core : C → Core P
  context : P → Option Context

/-- What a CPU can do in one step. -/
inductive Act (P : Type*)
  | go (ch : Choice)   -- the next call of the running activation; of `pushcli` the read of `eflags`
  | cli                -- the rest of `pushcli`
  | intr               -- an interrupt is taken
  | syscall            -- `int $T_SYSCALL` in user mode
  | iret (b : Bool)    -- return from a trap; `b` is `FL_IF` in the trap frame
  | swtch (p : P)      -- the scheduler switches to `p`
  deriving DecidableEq

inductive Label (C P : Type*)
  | cpu (c : C) (a : Act P)
  | allocproc (p : P)
  deriving DecidableEq

/-- The running activation goes to another line. -/
def Core.goto (k : Core P) (l : Line) : Core P := { k with run.top.line := l }

/-- Execute `op` and go to the line `l`; with the context that it saves. -/
def Core.exec (k : Core P) (l : Line) : Op → Option (Core P × Option (P × Context))
  | .skip => some (k.goto l, none)
  | .pushcli =>
    let top := k.run.top
    some ({ k with run.top := { top with
      line := l
      eflags := some k.cpu.ifl
      was := if top.depth = 0 then some k.cpu.ifl else top.was } }, none)
  | .popcli =>
    match popcli k.cpu with
    | .error e => some ({ k with panic := some e }, none)
    | .ok cpu => some ({ k.goto l with cpu, run.top.depth := k.run.top.depth - 1 }, none)
  | .sched =>
    match k.proc, sched k.cpu with
    | none, _ => none
    | some _, .error e => some ({ k with panic := some e }, none)
    | some p, .ok intena =>
      some ({ k with proc := none, run := k.scheduler }, some (p, .resume intena (k.goto l).run))
  | .sti => some ({ k.goto l with cpu.ifl := true }, none)

/-- `swtch` to a saved context. After `swtch`, `sched` writes its local `intena` back. -/
def Core.resume (k : Core P) (p : P) : Context → Core P
  | .resume intena th => { k with proc := some p, run := th, scheduler := k.run, cpu.intena := intena }
  | .forkret => { k with proc := some p, run := newborn, scheduler := k.run }

def Core.act (context : P → Option Context) (k : Core P) : Act P → Option (Core P × Option (P × Context))
  | .go ch =>
    if k.run.top.eflags = none then (k.run.top.next k.proc.isSome ch).bind fun (op, l) => k.exec l op else none
  | .cli =>
    k.run.top.eflags.map fun e =>
      ({ k with cpu := pushcli k.cpu e, run.top.eflags := none, run.top.depth := k.run.top.depth + 1 }, none)
  | .intr =>
    -- an interrupt gate clears the flag
    if k.cpu.ifl then
      some ({ k with cpu.ifl := false, run := ⟨.enter .kernel true, k.run.top :: k.run.below⟩ }, none)
    else none
  | .syscall =>
    -- the gate of `T_SYSCALL` is a trap gate
    if k.run.top.line = .user then
      some ({ k with run := ⟨.enter .kernel k.cpu.ifl, k.run.top :: k.run.below⟩ }, none)
    else none
  | .iret b =>
    match k.run.below with
    | [] => none
    | f :: below =>
      -- only the trap frame of user mode is ever changed (`sigret`)
      if k.run.top.line = .kernel ∧ k.run.top.eflags = none ∧ k.run.top.depth = 0 ∧
          (f.line = .user ∨ b = k.run.top.saved) then
        some ({ k with cpu.ifl := b, run := ⟨f, below⟩ }, none)
      else none
  | .swtch p =>
    match context p with
    | none => none
    | some ctx =>
      if k.proc.isNone ∧ k.run.top.line = .scheduler ∧ k.run.top.eflags = none ∧ k.run.top.depth = 1 ∧
          k.run.below = [] then
        some (k.resume p ctx, none)
      else none

/-- Store a context in the process table. -/
def save [DecidableEq P] (context : P → Option Context) : Option (P × Context) → P → Option Context
  | none => context
  | some (p, ctx) => Function.update context p (some ctx)

def step [DecidableEq C] [DecidableEq P] (m : Machine C P) : Label C P → Option (Machine C P)
  | .cpu c a =>
    if (m.core c).panic = none then
      ((m.core c).act m.context a).map fun (k, ctx) => ⟨Function.update m.core c k, save m.context ctx⟩
    else none
  | .allocproc p => some { m with context := save m.context (some (p, .forkret)) }

/-- Every CPU is about to enter `scheduler`, with interrupts still off. -/
def boot : Machine C P where
  core _ := ⟨⟨0, false, false⟩, none, ⟨.enter .schedulerSti false, []⟩, ⟨.enter .schedulerSti false, []⟩, none⟩
  context _ := none

end Xv6.Cli
