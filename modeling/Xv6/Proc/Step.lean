import Xv6.Proc.Control

/-!
# The atomic steps of `proc.c`

Each function of `proc.c` that touches the process table has a step function that executes the access at its control
point. `CpuCtl.step` is one step of a CPU and `step` one step of the machine: any CPU may take the next step, so the
runs of `step` are the interleavings of the atomic accesses.
-/

namespace Xv6

open Function (update)

/-- What a process may call from user code, or from kernel code outside this model. -/
inductive Call
  | sleep (c : Chan)
  | wakeup (c : Chan)
  | wait
  | exit
  | fork
  | sigsend (dest value : Word)
  | sigpause
  | kill (pid : Word)
  | sigset (h : Word)
  | sigret
  /-- A fault of the user program. -/
  | fault
  /-- `trapret`, on the way back to user mode. -/
  | fixTf
  deriving DecidableEq

inductive Choice
  /-- The control point determines the step. -/
  | go
  /-- A process calls a function. -/
  | call (f : Call)
  /-- An interrupt arrives; its handler may wake a channel, and `timer` tells a clock interrupt. -/
  | intr (c : Option Chan) (timer : Bool)
  /-- What `kalloc` or `copyuvm` returns. -/
  | page (k : Option Page)
  deriving DecidableEq

/-! ## `wakeup1` -/

def Wake.start (c : Chan) : Wake := ⟨c, 0, .chan⟩

/-- `wakeup1` goes on with the next process, if there is one. -/
def Wake.next (w : Wake) : Option Wake := (nextIx w.p).map fun p => { w with p := p, pc := .chan }

def Wake.step (m : Mem) (w : Wake) : Mem × Option Wake :=
  match w.pc with
  | .chan => if m.chan w.p = w.chan then (m, some { w with pc := .casN }) else (m, w.next)
  | .casN =>
    if m.state w.p = .nSleeping then (m.setState w.p .nRunnable, some { w with pc := .clrN })
    else (m, some { w with pc := .casS })
  | .clrN => (m.setChan w.p .null, some { w with pc := .casS })
  | .casS =>
    if m.state w.p = .sleeping then (m.setState w.p .runnable, some { w with pc := .clrS }) else (m, w.next)
  | .clrS => (m.setChan w.p .null, w.next)

/-! ## `fix_tf` -/

def Fix.step (q : Slot) (m : Mem) : Fix → Mem × Option Fix
  | .handling => if m.handling q then (m, none) else (m, some (.pop .loadHead))
  | .pop pc =>
    (m.setPending q (pc.step (m.pending q)).1,
      match (pc.step (m.pending q)).2 with
      | .inl pc' => some (.pop pc')
      | .inr none => none
      | .inr (some i) => some (.handler i))
  | .handler i => if m.sighandler q = DEFSIG_HENDLER then (m, none) else (m, some (.set i))
  | .set i => (m.setHandling q true, some (.used i))
  | .used i =>
    (m.setPending q { m.pending q with used := update (m.pending q).used i false }, some (.value i))
  | .value i => (m, some (.sender i ((m.pending q).value i)))
  | .sender _ _ => (m, none)

/-! ## `wait` -/

/-- The scan of `wait` after the process `p`. -/
def Wait.next (p : Slot) (havekids : Bool) : Wait :=
  match nextIx p with
  | some p' => .parent p' havekids
  | none => .kids havekids

def Wait.step (q : Slot) (m : Mem) : Wait → Mem × Pc
  | .chan => (m.setChan q (.proc q), .wait .cas)
  | .cas => (m.cas q .running .nSleeping, .wait (.parent 0 false))
  | .parent p hk => if m.parent p = some q then (m, .wait (.spin p)) else (m, .wait (Wait.next p hk))
  | .spin p => if m.state p = .nZombie then (m, .wait (.spin p)) else (m, .wait (.zombie p))
  | .zombie p => if m.state p = .zombie then (m, .wait (.pid p)) else (m, .wait (Wait.next p true))
  | .pid p => (m, .wait (.reap p (m.pid p)))
  | .reap p k => (m.cas p .zombie .unused, .wait (.clrPid p k))
  | .clrPid p k => (m.setPid p 0, .wait (.clrParent p k))
  | .clrParent p k => (m.setParent p none, .wait (.clrChan k))
  | .clrChan k => (m.setChan q .null, .wait (.casR k))
  | .casR k => (m.cas q .nRunnable .running, .wait (.casS k))
  | .casS k => (m.cas q .nSleeping .running, .wait (.ret (some k)))
  | .kids hk => if !hk || m.killed q then (m, .wait .failChan) else (m, .sched .wait)
  | .failChan => (m.setChan q .null, .wait .failCas)
  | .failCas => (m.cas q .nSleeping .running, .wait (.ret none))
  | .ret _ => (m, .idle)

/-! ## `exit` -/

/-- The channel of a process pointer. -/
def procChan : Option Slot → Chan
  | some p => .proc p
  | none => .null

/-- The scan of `exit` after the process `p`; then `sched`. -/
def Exit.next (p : Slot) : Pc :=
  match nextIx p with
  | some p' => .exit (.scan p')
  | none => .sched .exit

def Exit.step (q : Slot) (m : Mem) : Exit → Mem × Pc
  | .init => if q = initproc then (m, .panic) else (m, .exit .cas)
  | .cas => if m.state q = .running then (m.setState q .nZombie, .exit .parent) else (m, .idle)
  | .parent => (m, .exit (.wake (Wake.start (procChan (m.parent q)))))
  | .wake w =>
    ((w.step m).1,
      match (w.step m).2 with
      | some w' => .exit (.wake w')
      | none => .exit (.scan 0))
  | .scan p => if m.parent p = some q then (m, .exit (.adopt p)) else (m, Exit.next p)
  | .adopt p => (m.setParent p (some initproc), .exit (.zombie p))
  | .zombie p =>
    if m.state p = .zombie then (m, .exit (.wakeInit (Wake.start (.proc initproc)) p)) else (m, .exit (.nZombie p))
  | .nZombie p =>
    if m.state p = .nZombie then (m, .exit (.wakeInit (Wake.start (.proc initproc)) p)) else (m, Exit.next p)
  | .wakeInit w p =>
    ((w.step m).1,
      match (w.step m).2 with
      | some w' => .exit (.wakeInit w' p)
      | none => Exit.next p)

/-! ## `fork` -/

/-- A new process starts at `forkret`, which returns to user code. -/
def forkret : Thread := ⟨.idle, none⟩

/-- `kalloc` and `copyuvm` return a page that was not in use, or fail. -/
def Mem.alloc (m : Mem) : Option Page → Option Mem
  | some k => if m.inUse k then none else some (m.setInUse k true)
  | none => some m

/-- The steps of `fork` other than the two allocations. -/
def Fork.step (q : Slot) (m : Mem) : Fork → Mem × Pc
  | .scan p =>
    if m.state p = .unused then (m.setState p .embryo, .fork (.loadPid p))
    else
      (m, match nextIx p with
          | some p' => .fork (.scan p')
          | none => .fork (.ret none))
  | .loadPid p => (m, .fork (.casPid p m.nextpid))
  | .casPid p k =>
    if m.nextpid = k then ({ m with nextpid := k + 1 }, .fork (.setPid p (k + 1))) else (m, .fork (.loadPid p))
  | .setPid p k => (m.setPid p k, .fork (.kalloc p))
  | .setKstack p k => (m.setKstack p k, if k.isNone then .fork (.noKstack p) else .fork (.clrUsed p 0))
  | .noKstack p => (m.setState p .unused, .fork (.ret none))
  | .clrUsed p i =>
    (m.setPending p { m.pending p with used := update (m.pending p).used i false },
      match nextIx i with
      | some j => .fork (.clrUsed p j)
      | none => .fork (.clrHead p))
  | .clrHead p => (m.setPending p { m.pending p with head := none }, .fork (.clrHandling p))
  | .clrHandling p => (m.setHandling p false, .fork (.context p))
  | .context p => (m.setContext p forkret, .fork (.copyuvm p))
  | .setPgdir p d => (m.setPgdir p d, if d.isNone then .fork (.freeKstack p) else .fork (.parent p))
  | .freeKstack p =>
    match m.kstack p with
    | some k => (m.setInUse k false, .fork (.clrKstack p))
    | none => (m, .panic)
  | .clrKstack p => (m.setKstack p none, .fork (.noPgdir p))
  | .noPgdir p => (m.setState p .unused, .fork (.ret none))
  | .parent p => (m.setParent p (some q), .fork (.loadHandler p))
  | .loadHandler p => (m, .fork (.setHandler p (m.sighandler q)))
  | .setHandler p h => (m.setSighandler p h, .fork (.pid p))
  | .pid p => (m, .fork (.cas p (m.pid p)))
  | .cas p k =>
    if m.state p = .embryo then (m.setState p .runnable, .fork (.ret (some k))) else (m, .fork (.ret none))
  | .ret _ => (m, .idle)
  | .kalloc p => (m, .fork (.kalloc p))
  | .copyuvm p => (m, .fork (.copyuvm p))

/-! ## `sigsend`, `sigpause` and `kill` -/

def Send.step (q : Slot) (dest value : Word) (m : Mem) : Send → Mem × Pc
  | .scan p =>
    if m.pid p = dest then (m, .sigsend dest value (.self p))
    else
      (m, match nextIx p with
          | some p' => .sigsend dest value (.scan p')
          | none => .sigsend dest value (.ret false))
  | .self p => (m, .sigsend dest value (.push p ⟨m.pid q, dest, value⟩ (.scan 0)))
  | .push p r pc =>
    (m.setPending p (pc.step (m.pending p) r).1,
      match (pc.step (m.pending p) r).2 with
      | .inl pc' => .sigsend dest value (.push p r pc')
      | .inr true => .sigsend dest value (.chan p)
      | .inr false => .sigsend dest value (.ret false))
  | .chan p => (m, .sigsend dest value (.wake (Wake.start (m.chan p))))
  | .wake w =>
    ((w.step m).1,
      match (w.step m).2 with
      | some w' => .sigsend dest value (.wake w')
      | none => .sigsend dest value (.ret true))
  | .ret _ => (m, .idle)

def Pause.step (q : Slot) (m : Mem) : Pause → Mem × Pc
  | .empty1 => if (m.pending q).isEmpty then (m, .sigpause .ret) else (m, .sigpause .chan)
  | .chan => (m.setChan q (.proc q), .sigpause .cas)
  | .cas => (m.cas q .running .nSleeping, .sigpause .empty2)
  | .empty2 => if (m.pending q).isEmpty then (m, .sigpause .undoN) else (m, .sched .sigpause)
  | .undoN => (m.cas q .nSleeping .running, .sigpause .undoS)
  | .undoS => (m.cas q .sleeping .running, .sigpause .ret)
  | .ret => (m, .idle)

/-- `kill` ends in `popcli` without a `pushcli`, which panics because interrupts are enabled in a system call. -/
def Kill.step (q : Slot) (pid : Word) (m : Mem) : Kill → Mem × Pc
  | .scan p =>
    if m.pid p = pid then (m, .kill pid (.set p))
    else
      (m, match nextIx p with
          | some p' => .kill pid (.scan p')
          | none => .kill pid .ret)
  | .set p => (m.setKilled p true, .kill pid (.spin p))
  | .spin p => if m.state p = .nSleeping then (m, .kill pid (.spin p)) else (m, .kill pid .cas)
  | .cas => (m.cas q .sleeping .running, .panic)
  | .ret => (m, .idle)

/-! ## Processes -/

/-- The first control point of a call. -/
def Call.start : Call → Pc
  | .sleep c => .sleepChan c
  | .wakeup c => .wakeup (Wake.start c)
  | .wait => .wait .chan
  | .exit => .exit .init
  | .fork => .fork (.scan 0)
  | .sigsend d v => .sigsend d v (.scan 0)
  | .sigpause => .sigpause .empty1
  | .kill pid => .kill pid (.scan 0)
  | .sigset h => .sigset h
  | .sigret => .sigret
  | .fault => .fault
  | .fixTf => .fixTf .handling

/-- Where a process goes on when the scheduler switches back to it. -/
def SchedK.resume : SchedK → Pc
  | .sleep c => .sleepRet c
  | .wait => .wait .chan
  | .sigpause => .sigpause .chan
  | .exit => .panic

/-- `exit` runs with interrupts off after its `pushcli`. -/
def Exit.interruptible : Exit → Bool
  | .init => true
  | _ => false

/-- `fork` runs with interrupts off after its `pushcli`. -/
def Fork.interruptible : Fork → Bool
  | .cas _ _ => false
  | _ => true

/-- `wakeup` in `sigsend` runs with interrupts off. -/
def Send.interruptible : Send → Bool
  | .wake _ => false
  | _ => true

/-- Control points with interrupts enabled. `sleep`, `wakeup` and `wait` run with interrupts off; a system call returns
through `fix_tf` with interrupts on. -/
def Pc.interruptible : Pc → Bool
  | .idle | .sigset _ | .sigret | .sigpause _ | .kill _ _ | .fixTf _ => true
  | .exit pc => pc.interruptible
  | .fork pc => pc.interruptible
  | .sigsend _ _ pc => pc.interruptible
  | .sleepChan _ | .sleepCas _ | .sleepRet _ | .wakeup _ | .wait _ | .fault | .sched _ | .swtch _ | .panic => false

/-- The step at a control point that determines it. -/
def Pc.next (q : Slot) (m : Mem) : Pc → Mem × Pc
  | .sleepChan c => (m.setChan q c, .sleepCas c)
  | .sleepCas c => (m.cas q .running .nSleeping, .sched (.sleep c))
  | .sleepRet _ => (m, .idle)
  | .wakeup w =>
    ((w.step m).1,
      match (w.step m).2 with
      | some w' => .wakeup w'
      | none => .idle)
  | .wait pc => pc.step q m
  | .exit pc => pc.step q m
  | .fork pc => pc.step q m
  | .sigsend d v pc => pc.step q d v m
  | .sigpause pc => pc.step q m
  | .kill pid pc => pc.step q pid m
  | .sigset h => (m.setSighandler q h, .idle)
  | .sigret => (m.setHandling q false, .idle)
  | .fault => (m.setKilled q true, .idle)
  | .fixTf pc =>
    ((pc.step q m).1,
      match (pc.step q m).2 with
      | some pc' => .fixTf pc'
      | none => .idle)
  | .sched k => if m.state q = .running then (m, .panic) else (m, .swtch k)
  | .idle => (m, .idle)
  | .swtch k => (m, .swtch k)
  | .panic => (m, .panic)

/-- One step of the process `q` outside interrupt handlers. -/
def Pc.step (q : Slot) (m : Mem) (a : Choice) : Pc → Option (Mem × Pc)
  | .idle =>
    match a with
    | .call f => some (m, f.start)
    | _ => none
  | .fork (.kalloc p) =>
    match a with
    | .page k => (m.alloc k).map fun m' => (m', .fork (.setKstack p k))
    | _ => none
  | .fork (.copyuvm p) =>
    match a with
    | .page d => (m.alloc d).map fun m' => (m', .fork (.setPgdir p d))
    | _ => none
  | .panic => none
  | pc =>
    match a with
    | .go => some (pc.next q m)
    | _ => none

/-- The first control point of an interrupt handler. -/
def Intr.start : Option Chan → Bool → Intr
  | some c, timer => .wake (Wake.start c) timer
  | none, true => .trap
  | none, false => .fixTf .handling

/-- One step of an interrupt handler on top of `q`; `none` is the return to the process. -/
def Intr.step (q : Slot) (m : Mem) : Intr → Mem × Option Intr
  | .wake w timer =>
    ((w.step m).1,
      match (w.step m).2 with
      | some w' => some (.wake w' timer)
      | none => some (Intr.start none timer))
  | .trap => if m.state q = .running then (m, some .yieldCas) else (m, some (.fixTf .handling))
  | .yieldCas => (m.cas q .running .nRunnable, some .sched)
  | .sched => if m.state q = .running then (m, some .panic) else (m, some .swtch)
  | .yieldRet => (m, some (.fixTf .handling))
  | .fixTf pc =>
    ((pc.step q m).1, (pc.step q m).2.map .fixTf)
  | .swtch => (m, some .swtch)
  | .panic => (m, some .panic)

/-- Control points of a handler before which `trap` looks at `proc->killed`. -/
def Intr.exits : Intr → Bool
  | .trap | .fixTf .handling => true
  | _ => false

/-- What `swtch` saves of a thread that it leaves. -/
def Thread.saved (th : Thread) : Option Thread :=
  match th.intr with
  | none =>
    match th.base with
    | .swtch k => some ⟨k.resume, none⟩
    | _ => none
  | some .swtch => some ⟨th.base, some .yieldRet⟩
  | some _ => none

/-- One step of the process `q` that stays on its CPU. A killed process that was interrupted in user mode exits. -/
def Thread.next (q : Slot) (m : Mem) (a : Choice) : Thread → Option (Mem × Thread)
  | ⟨b, none⟩ =>
    match a with
    | .intr c timer => if b.interruptible then some (m, ⟨b, some (Intr.start c timer)⟩) else none
    | _ => (b.step q m a).map fun x => (x.1, ⟨x.2, none⟩)
  | ⟨b, some i⟩ =>
    match a with
    | .go => if i = .panic then none else some ((i.step q m).1, ⟨b, (i.step q m).2⟩)
    | .call .exit => if b = .idle ∧ i.exits ∧ m.killed q then some (m, ⟨.exit .init, none⟩) else none
    | _ => none

/-- One step of a CPU that runs the process `q`; `swtch` returns to the scheduler. -/
def Thread.step (q : Slot) (m : Mem) (a : Choice) (th : Thread) : Option (Mem × CpuCtl) :=
  match th.saved with
  | some th' =>
    match a with
    | .go => some (m.setContext q th', .sched (.post1 q))
    | _ => none
  | none => (th.next q m a).map fun x => (x.1, .run q x.2)

/-! ## The scheduler and the machine -/

/-- The scheduler goes on with the next process, or starts over. -/
def Sched.next (p : Slot) : Sched :=
  match nextIx p with
  | some p' => .pick p'
  | none => .start

def Sched.step (m : Mem) : Sched → Option (Mem × CpuCtl)
  | .start => some (m, .sched (.pick 0))
  | .pick p =>
    if m.state p = .runnable then some (m.setState p .running, .sched (.load p)) else some (m, .sched (Sched.next p))
  | .load p => some (m, .run p (m.context p))
  | .post1 p => some (m.cas p .nRunnable .runnable, .sched (.post2 p))
  | .post2 p => some (m.cas p .nSleeping .sleeping, .sched (.post3 p))
  | .post3 p => some (m.cas p .nZombie .zombie, .sched (.check p (m.state p = .nZombie)))
  | .check p _ => if m.state p = .zombie then some (m, .sched (.freeCheck p)) else some (m, .sched (Sched.next p))
  | .freeCheck p => if m.state p = .zombie then some (m, .sched (.freeKstack p)) else some (m, .sched .panic)
  | .freeKstack p =>
    match m.kstack p with
    | some k => some (m.setInUse k false, .sched (.clrKstack p))
    | none => some (m, .sched .panic)
  | .clrKstack p => some (m.setKstack p none, .sched (.freePgdir p))
  | .freePgdir p =>
    match m.pgdir p with
    | some d => some (m.setInUse d false, .sched (.clrKilled p))
    | none => some (m, .sched .panic)
  | .clrKilled p => some (m.setKilled p false, .sched (.clrChan p))
  | .clrChan p => some (m.setChan p .null, .sched (Sched.next p))
  | .panic => none

def CpuCtl.step (m : Mem) (a : Choice) : CpuCtl → Option (Mem × CpuCtl)
  | .sched .start =>
    match a with
    | .go => Sched.step m .start
    | .intr (some c) _ => some (m, .intr (Wake.start c))
    | _ => none
  | .sched pc =>
    match a with
    | .go => pc.step m
    | _ => none
  | .intr w =>
    match a with
    | .go =>
      some ((w.step m).1,
        match (w.step m).2 with
        | some w' => .intr w'
        | none => .sched .start)
    | _ => none
  | .run q th => th.step q m a

variable {Cpu : Type*} [DecidableEq Cpu]

/-- **One step of the machine**: the CPU of the label takes the next step. -/
def step (s : State Cpu) (a : Cpu × Choice) : Option (State Cpu) :=
  ((s.cpu a.1).step s.mem a.2).map fun x => ⟨x.1, update s.cpu a.1 x.2⟩

/-- The process table after `userinit`. -/
def Mem.boot : Mem where
  state := update (fun _ => .unused) initproc .runnable
  chan := fun _ => .null
  pid := update (fun _ => 0) initproc 2
  parent := fun _ => none
  killed := fun _ => false
  kstack := update (fun _ => none) initproc (some 0)
  pgdir := update (fun _ => none) initproc (some 1)
  context := fun _ => forkret
  sighandler := fun _ => 0
  pending := fun _ => Cstack.empty
  handling := fun _ => false
  nextpid := 2
  inUse := fun k => k = 0 || k = 1

/-- The machine after `userinit`, with every CPU at the start of `scheduler`. -/
def boot : State Cpu := ⟨Mem.boot, fun _ => .sched .start⟩

/-! ## Labels of runs -/

omit [DecidableEq Cpu]

/-- `n` steps of the CPU `c`, each determined by its control point. -/
def go (c : Cpu) (n : ℕ) : List (Cpu × Choice) := List.replicate n (c, .go)

/-- A `fork` on the CPU `c` that looks at `n` slots in use, takes the pages `k` and `d` and returns. -/
def forkRun (c : Cpu) (n : ℕ) (k d : Page) : List (Cpu × Choice) :=
  (c, .call .fork) :: go c (n + 4) ++ [(c, .page (some k))] ++ go c 14 ++ [(c, .page (some d))] ++ go c 7

end Xv6
