import Xv6.Proc.Step

/-!
# What a step can do

`CpuStep m k m' k'` is a step of a CPU without its label, and `ThreadStep` a step of a process that stays on its CPU,
with one constructor for each kind of step. Every step makes at most one store: `Store m k m'` lists the stores of the
kernel with the control points that make them (`CpuStep.store`).
-/

namespace Xv6

/-! ## Steps without labels -/

/-- The control points of a process at which the step is determined. -/
def Pc.determined : Pc → Bool
  | .idle | .panic | .swtch _ | .fork (.kalloc _) | .fork (.copyuvm _) => false
  | _ => true

/-- One step of the process `q` that stays on its CPU. -/
inductive ThreadStep (q : Slot) (m : Mem) : Thread → Mem → Thread → Prop
  | arrive (b : Pc) (c : Option Chan) (timer : Bool) : b.interruptible = true →
      ThreadStep q m ⟨b, none⟩ m ⟨b, some (Intr.start c timer)⟩
  | handler (b : Pc) (i : Intr) : i ≠ .swtch → i ≠ .panic →
      ThreadStep q m ⟨b, some i⟩ (i.step q m).1 ⟨b, (i.step q m).2⟩
  | exits (i : Intr) : i.exits = true → m.killed q = true → ThreadStep q m ⟨.idle, some i⟩ m ⟨.exit .init, none⟩
  | call (f : Call) : ThreadStep q m ⟨.idle, none⟩ m ⟨f.start, none⟩
  | kalloc (p : Slot) (k : Option Page) (m' : Mem) : m.alloc k = some m' →
      ThreadStep q m ⟨.fork (.kalloc p), none⟩ m' ⟨.fork (.setKstack p k), none⟩
  | copyuvm (p : Slot) (d : Option Page) (m' : Mem) : m.alloc d = some m' →
      ThreadStep q m ⟨.fork (.copyuvm p), none⟩ m' ⟨.fork (.setPgdir p d), none⟩
  | next (b : Pc) : b.determined = true → ThreadStep q m ⟨b, none⟩ (b.next q m).1 ⟨(b.next q m).2, none⟩

inductive CpuStep (m : Mem) : CpuCtl → Mem → CpuCtl → Prop
  | sched (pc : Sched) (m' : Mem) (k' : CpuCtl) : pc.step m = some (m', k') → CpuStep m (.sched pc) m' k'
  | schedIntr (c : Chan) : CpuStep m (.sched .start) m (.intr (Wake.start c))
  | wake (w w' : Wake) : (w.step m).2 = some w' → CpuStep m (.intr w) (w.step m).1 (.intr w')
  | wakeEnd (w : Wake) : (w.step m).2 = none → CpuStep m (.intr w) (w.step m).1 (.sched .start)
  | save (q : Slot) (th th' : Thread) : th.saved = some th' →
      CpuStep m (.run q th) (m.setContext q th') (.sched (.post1 q))
  | run (q : Slot) (th th' : Thread) (m' : Mem) : ThreadStep q m th m' th' → CpuStep m (.run q th) m' (.run q th')

theorem Pc.step_determined {q : Slot} {m : Mem} {a : Choice} {b : Pc} {x : Mem × Pc} (hd : b.determined = true)
    (h : b.step q m a = some x) : a = .go ∧ x = b.next q m := by
  unfold Pc.step at h
  split at h <;> try simp [Pc.determined] at hd
  split at h
  · exact ⟨rfl, by simpa using h.symm⟩
  · simp at h

theorem Pc.step_inv {q : Slot} {m m' : Mem} {a : Choice} {b b' : Pc} (hb : ∀ k, b ≠ .swtch k)
    (h : b.step q m a = some (m', b')) : ThreadStep q m ⟨b, none⟩ m' ⟨b', none⟩ := by
  by_cases hd : b.determined = true
  · obtain ⟨-, e⟩ := Pc.step_determined hd h
    rw [Prod.ext_iff] at e
    obtain ⟨rfl, rfl⟩ := e
    exact .next b hd
  · unfold Pc.determined at hd
    split at hd
    · cases a <;> simp [Pc.step] at h
      obtain ⟨rfl, rfl⟩ := h
      exact .call _
    · simp [Pc.step] at h
    · exact absurd rfl (hb _)
    · cases a <;> simp [Pc.step] at h
      obtain ⟨hm, rfl⟩ := h
      exact .kalloc _ _ _ hm
    · cases a <;> simp [Pc.step] at h
      obtain ⟨hm, rfl⟩ := h
      exact .copyuvm _ _ _ hm
    · simp at hd

theorem Thread.next_inv {q : Slot} {m m' : Mem} {a : Choice} {th th' : Thread} (hs : th.saved = none)
    (h : th.next q m a = some (m', th')) : ThreadStep q m th m' th' := by
  obtain ⟨b, i⟩ := th
  cases i with
  | none =>
    simp only [Thread.next] at h
    split at h
    · split at h
      · rename_i hb
        simp only [Option.some.injEq, Prod.mk.injEq] at h
        obtain ⟨rfl, rfl⟩ := h
        exact .arrive b _ _ hb
      · simp at h
    · simp only [Option.map_eq_some_iff, Prod.mk.injEq] at h
      obtain ⟨⟨m'', b'⟩, h, rfl, rfl⟩ := h
      exact Pc.step_inv (by rintro k rfl; simp [Thread.saved] at hs) h
  | some i =>
    have hi : i ≠ .swtch := by rintro rfl; simp [Thread.saved] at hs
    simp only [Thread.next] at h
    split at h
    · split at h
      · simp at h
      · rename_i hp
        simp only [Option.some.injEq, Prod.mk.injEq] at h
        obtain ⟨rfl, rfl⟩ := h
        exact .handler b i hi hp
    · split at h
      · rename_i hc
        obtain ⟨rfl, he, hk⟩ := hc
        simp only [Option.some.injEq, Prod.mk.injEq] at h
        obtain ⟨rfl, rfl⟩ := h
        exact .exits i he hk
      · simp at h
    · simp at h

theorem CpuStep.of_step {m m' : Mem} {k k' : CpuCtl} {a : Choice} (h : k.step m a = some (m', k')) :
    CpuStep m k m' k' := by
  unfold CpuCtl.step at h
  split at h
  · split at h
    · exact .sched _ _ _ h
    · simp only [Option.some.injEq, Prod.mk.injEq] at h
      obtain ⟨rfl, rfl⟩ := h
      exact .schedIntr _
    · simp at h
  · split at h
    · exact .sched _ _ _ h
    · simp at h
  · split at h
    · simp only [Option.some.injEq, Prod.mk.injEq] at h
      obtain ⟨rfl, rfl⟩ := h
      split
      · exact .wake _ _ ‹_›
      · exact .wakeEnd _ ‹_›
    · simp at h
  · unfold Thread.step at h
    split at h
    · rename_i hs
      split at h
      · simp only [Option.some.injEq, Prod.mk.injEq] at h
        obtain ⟨rfl, rfl⟩ := h
        exact .save _ _ _ hs
      · simp at h
    · rename_i hs
      simp only [Option.map_eq_some_iff, Prod.mk.injEq] at h
      obtain ⟨⟨m'', th'⟩, h, rfl, rfl⟩ := h
      exact .run _ _ _ _ (Thread.next_inv hs h)

theorem Thread.saved_cases {th th' : Thread} (h : th.saved = some th') :
    (∃ k : SchedK, th = ⟨.swtch k, none⟩ ∧ th' = ⟨k.resume, none⟩) ∨
      ∃ b, th = ⟨b, some .swtch⟩ ∧ th' = ⟨b, some .yieldRet⟩ := by
  obtain ⟨b, i⟩ := th
  cases i with
  | none =>
    cases b <;> simp only [Thread.saved, Option.some.injEq, reduceCtorEq] at h
    exact .inl ⟨_, rfl, h.symm⟩
  | some i =>
    cases i <;> simp only [Thread.saved, Option.some.injEq, reduceCtorEq] at h
    exact .inr ⟨b, rfl, h.symm⟩

/-! ## How a thread comes to a function -/

/-- The functions of `proc.c` that a process executes. -/
inductive Fn
  | user | sleep | wakeup | wait | exit | fork | sigsend | sigpause | kill | sigset | sigret | fault | fixTf | sched
  | panic
  deriving DecidableEq

def Pc.fn : Pc → Fn
  | .idle => .user
  | .sleepChan _ | .sleepCas _ | .sleepRet _ => .sleep
  | .wakeup _ => .wakeup
  | .wait _ => .wait
  | .exit _ => .exit
  | .fork _ => .fork
  | .sigsend _ _ _ => .sigsend
  | .sigpause _ => .sigpause
  | .kill _ _ => .kill
  | .sigset _ => .sigset
  | .sigret => .sigret
  | .fault => .fault
  | .fixTf _ => .fixTf
  | .sched _ | .swtch _ => .sched
  | .panic => .panic

/-- Not in a function that touches the process table. -/
def Fn.outside : Fn → Bool
  | .user | .sched | .panic => true
  | _ => false

section Flow

variable {q p : Slot} {m m' : Mem}

theorem Exit.next_fn (p : Slot) : (Exit.next p).fn = .exit ∨ (Exit.next p).fn.outside = true := by
  unfold Exit.next
  split
  · exact .inl rfl
  · exact .inr rfl

/-- **A step stays in the function**, or leaves it for the caller, for `sched` or in a `panic`. -/
theorem Pc.next_fn (q : Slot) (m : Mem) (b : Pc) :
    (b.next q m).2.fn = b.fn ∨ (b.next q m).2.fn.outside = true := by
  cases b with
  | fork pc =>
    cases pc <;> simp only [Pc.next, Fork.step, true_or] <;> repeat' split
    all_goals first | exact .inl rfl | exact .inr rfl
  | wait pc =>
    cases pc <;> simp only [Pc.next, Wait.step] <;> repeat' split
    all_goals first | exact .inl rfl | exact .inr rfl
  | sigpause pc =>
    cases pc <;> simp only [Pc.next, Pause.step] <;> repeat' split
    all_goals first | exact .inl rfl | exact .inr rfl
  | kill pid pc =>
    cases pc <;> simp only [Pc.next, Kill.step] <;> repeat' split
    all_goals first | exact .inl rfl | exact .inr rfl
  | sigsend d v pc =>
    cases pc <;> simp only [Pc.next, Send.step] <;> repeat' split
    all_goals first | exact .inl rfl | exact .inr rfl
  | exit pc =>
    cases pc <;> simp only [Pc.next, Exit.step] <;> repeat' split
    all_goals first | exact .inl rfl | exact .inr rfl | exact Exit.next_fn _
  | wakeup w | fixTf pc | sched k =>
    simp only [Pc.next]
    split <;> first | exact .inl rfl | exact .inr rfl
  | _ => first | exact .inl rfl | exact .inr rfl

end Flow

/-! ## Stores -/

def Exit.waking : Exit → Option Wake
  | .wake w | .wakeInit w _ => some w
  | _ => none

def Send.waking : Send → Option Wake
  | .wake w => some w
  | _ => none

/-- The `wakeup1` that a process executes outside handlers. -/
def Pc.wake : Pc → Option Wake
  | .wakeup w => some w
  | .exit pc => pc.waking
  | .sigsend _ _ pc => pc.waking
  | _ => none

def CpuCtl.wake : CpuCtl → Option Wake
  | .sched _ => none
  | .intr w => some w
  | .run _ th =>
    match th.intr with
    | none => th.base.wake
    | some (.wake w _) => some w
    | some _ => none

/-- The cas of `wait` on the caller's state: what it expects and what it stores. -/
def Wait.ownCas : Wait → Option (ProcState × ProcState)
  | .cas => some (.running, .nSleeping)
  | .casR _ => some (.nRunnable, .running)
  | .casS _ | .failCas => some (.nSleeping, .running)
  | .chan | .parent _ _ | .spin _ | .zombie _ | .pid _ | .reap _ _ | .clrPid _ _ | .clrParent _ _ | .clrChan _
  | .kids _ | .failChan | .ret _ => none

def Pause.ownCas : Pause → Option (ProcState × ProcState)
  | .cas => some (.running, .nSleeping)
  | .undoN => some (.nSleeping, .running)
  | .undoS => some (.sleeping, .running)
  | _ => none

def Kill.ownCas : Kill → Option (ProcState × ProcState)
  | .cas => some (.sleeping, .running)
  | _ => none

def Exit.ownCas : Exit → Option (ProcState × ProcState)
  | .cas => some (.running, .nZombie)
  | _ => none

/-- The cas of a process on its own state outside handlers. -/
def Pc.ownCas : Pc → Option (ProcState × ProcState)
  | .sleepCas _ => some (.running, .nSleeping)
  | .wait pc => pc.ownCas
  | .sigpause pc => pc.ownCas
  | .kill _ pc => pc.ownCas
  | .exit pc => pc.ownCas
  | _ => none

def Thread.ownCas (th : Thread) : Option (ProcState × ProcState) :=
  match th.intr with
  | none => th.base.ownCas
  | some .yieldCas => some (.running, .nRunnable)
  | some _ => none

/-- The store of `wait` to the caller's channel. -/
def Wait.ownChan (q : Slot) : Wait → Option Chan
  | .chan => some (.proc q)
  | .clrChan _ | .failChan => some .null
  | .cas | .parent _ _ | .spin _ | .zombie _ | .pid _ | .reap _ _ | .clrPid _ _ | .clrParent _ _ | .casR _
  | .casS _ | .kids _ | .failCas | .ret _ => none

/-- The store of `sigpause` to the caller's channel. -/
def Pause.ownChan (q : Slot) : Pause → Option Chan
  | .chan => some (.proc q)
  | _ => none

def Pc.ownChan (q : Slot) : Pc → Option Chan
  | .sleepChan c => some c
  | .wait pc => pc.ownChan q
  | .sigpause pc => pc.ownChan q
  | _ => none

def Thread.fix (th : Thread) : Option Fix :=
  match th.intr with
  | none =>
    match th.base with
    | .fixTf pc => some pc
    | _ => none
  | some (.fixTf pc) => some pc
  | some _ => none

inductive StateStep (m : Mem) : CpuCtl → Slot → ProcState → Prop
  | pick (p : Slot) : m.state p = .runnable → StateStep m (.sched (.pick p)) p .running
  | post1 (p : Slot) : m.state p = .nRunnable → StateStep m (.sched (.post1 p)) p .runnable
  | post2 (p : Slot) : m.state p = .nSleeping → StateStep m (.sched (.post2 p)) p .sleeping
  | post3 (p : Slot) : m.state p = .nZombie → StateStep m (.sched (.post3 p)) p .zombie
  | wakeN (k : CpuCtl) (w : Wake) : k.wake = some w → w.pc = .casN → m.state w.p = .nSleeping →
      StateStep m k w.p .nRunnable
  | wakeS (k : CpuCtl) (w : Wake) : k.wake = some w → w.pc = .casS → m.state w.p = .sleeping →
      StateStep m k w.p .runnable
  | own (q : Slot) (th : Thread) (e n : ProcState) : th.ownCas = some (e, n) → m.state q = e →
      StateStep m (.run q th) q n
  | reap (q p : Slot) (pid : Word) : m.state p = .zombie →
      StateStep m (.run q ⟨.wait (.reap p pid), none⟩) p .unused
  | claim (q p : Slot) : m.state p = .unused → StateStep m (.run q ⟨.fork (.scan p), none⟩) p .embryo
  | publish (q p : Slot) (pid : Word) : m.state p = .embryo →
      StateStep m (.run q ⟨.fork (.cas p pid), none⟩) p .runnable
  | noKstack (q p : Slot) : StateStep m (.run q ⟨.fork (.noKstack p), none⟩) p .unused
  | noPgdir (q p : Slot) : StateStep m (.run q ⟨.fork (.noPgdir p), none⟩) p .unused

inductive ChanStep : CpuCtl → Slot → Chan → Prop
  | own (q : Slot) (b : Pc) (c : Chan) : b.ownChan q = some c → ChanStep (.run q ⟨b, none⟩) q c
  | wakeN (k : CpuCtl) (w : Wake) : k.wake = some w → w.pc = .clrN → ChanStep k w.p .null
  | wakeS (k : CpuCtl) (w : Wake) : k.wake = some w → w.pc = .clrS → ChanStep k w.p .null
  | free (p : Slot) : ChanStep (.sched (.clrChan p)) p .null

inductive PidStep : CpuCtl → Slot → Word → Prop
  | alloc (q p : Slot) (v : Word) : PidStep (.run q ⟨.fork (.setPid p v), none⟩) p v
  | reap (q p : Slot) (k : Word) : PidStep (.run q ⟨.wait (.clrPid p k), none⟩) p 0

inductive ParentStep : CpuCtl → Slot → Option Slot → Prop
  | fork (q p : Slot) : ParentStep (.run q ⟨.fork (.parent p), none⟩) p (some q)
  | reap (q p : Slot) (k : Word) : ParentStep (.run q ⟨.wait (.clrParent p k), none⟩) p none
  | adopt (q p : Slot) : ParentStep (.run q ⟨.exit (.adopt p), none⟩) p (some initproc)

/-- The CPU at `k` sets the kernel stack of `p` to `v`. -/
inductive KstackStep : CpuCtl → Slot → Option Page → Prop
  | alloc (q p : Slot) (v : Option Page) : KstackStep (.run q ⟨.fork (.setKstack p v), none⟩) p v
  | noPgdir (q p : Slot) : KstackStep (.run q ⟨.fork (.clrKstack p), none⟩) p none
  | free (p : Slot) : KstackStep (.sched (.clrKstack p)) p none

inductive ContextStep : CpuCtl → Slot → Thread → Prop
  | save (q : Slot) (th th' : Thread) : th.saved = some th' → ContextStep (.run q th) q th'
  | fork (q p : Slot) : ContextStep (.run q ⟨.fork (.context p), none⟩) p forkret

/-- The CPU at `k` changes the pending signals of `p` to `cs`. -/
inductive PendingStep (m : Mem) : CpuCtl → Slot → Cstack → Prop
  | pop (q : Slot) (th : Thread) (pc : Pop) : th.fix = some (.pop pc) →
      PendingStep m (.run q th) q (pc.step (m.pending q)).1
  | release (q : Slot) (th : Thread) (i : FrameIx) : th.fix = some (.used i) →
      PendingStep m (.run q th) q { m.pending q with used := Function.update (m.pending q).used i false }
  | push (q p : Slot) (d v : Word) (r : Record) (pc : Push) :
      PendingStep m (.run q ⟨.sigsend d v (.push p r pc), none⟩) p (pc.step (m.pending p) r).1
  | clrUsed (q p : Slot) (i : FrameIx) : PendingStep m (.run q ⟨.fork (.clrUsed p i), none⟩) p
      { m.pending p with used := Function.update (m.pending p).used i false }
  | clrHead (q p : Slot) : PendingStep m (.run q ⟨.fork (.clrHead p), none⟩) p { m.pending p with head := none }

/-- The CPU at `k` takes the page `v` off the free list. -/
inductive AllocStep (m : Mem) : CpuCtl → Page → Prop
  | kalloc (q p : Slot) (v : Page) : m.inUse v = false → AllocStep m (.run q ⟨.fork (.kalloc p), none⟩) v
  | copyuvm (q p : Slot) (v : Page) : m.inUse v = false → AllocStep m (.run q ⟨.fork (.copyuvm p), none⟩) v

inductive FreeStep (m : Mem) : CpuCtl → Page → Prop
  | noPgdir (q p : Slot) (v : Page) : m.kstack p = some v → FreeStep m (.run q ⟨.fork (.freeKstack p), none⟩) v
  | kstack (p : Slot) (v : Page) : m.kstack p = some v → FreeStep m (.sched (.freeKstack p)) v
  | pgdir (p : Slot) (v : Page) : m.pgdir p = some v → FreeStep m (.sched (.freePgdir p)) v

/-- What the CPU at `k` stores in one step. -/
inductive Store (m : Mem) (k : CpuCtl) : Mem → Prop
  | keep : Store m k m
  | state (p : Slot) (v : ProcState) : StateStep m k p v → Store m k (m.setState p v)
  | chan (p : Slot) (v : Chan) : ChanStep k p v → Store m k (m.setChan p v)
  | pid (p : Slot) (v : Word) : PidStep k p v → Store m k (m.setPid p v)
  | parent (p : Slot) (v : Option Slot) : ParentStep k p v → Store m k (m.setParent p v)
  | killed (p : Slot) (v : Bool) : Store m k (m.setKilled p v)
  | kstack (p : Slot) (v : Option Page) : KstackStep k p v → Store m k (m.setKstack p v)
  | pgdir (q p : Slot) (v : Option Page) : k = .run q ⟨.fork (.setPgdir p v), none⟩ → Store m k (m.setPgdir p v)
  | context (p : Slot) (v : Thread) : ContextStep k p v → Store m k (m.setContext p v)
  | sighandler (p : Slot) (v : Word) : Store m k (m.setSighandler p v)
  | pending (p : Slot) (v : Cstack) : PendingStep m k p v → Store m k (m.setPending p v)
  | handling (p : Slot) (v : Bool) : Store m k (m.setHandling p v)
  | alloc (v : Page) : AllocStep m k v → Store m k (m.setInUse v true)
  | free (v : Page) : FreeStep m k v → Store m k (m.setInUse v false)
  | nextpid (q p : Slot) (v : Word) : k = .run q ⟨.fork (.casPid p v), none⟩ → m.nextpid = v →
      Store m k { m with nextpid := v + 1 }

section Store

variable {m m' : Mem} {k k' : CpuCtl} {q p : Slot} {th th' : Thread}

theorem Store.cas {e n : ProcState} (h : m.state p = e → StateStep m k p n) : Store m k (m.cas p e n) := by
  unfold Mem.cas
  split
  · exact .state p n (h ‹_›)
  · exact .keep

theorem Store.wake {w : Wake} (h : k.wake = some w) : Store m k (w.step m).1 := by
  unfold Wake.step
  split <;> rename_i hpc
  · split <;> exact .keep
  · split
    · exact .state _ _ (.wakeN k w h hpc ‹_›)
    · exact .keep
  · exact .chan _ _ (.wakeN k w h hpc)
  · split
    · exact .state _ _ (.wakeS k w h hpc ‹_›)
    · exact .keep
  · exact .chan _ _ (.wakeS k w h hpc)

theorem Store.fix {pc : Fix} (h : th.fix = some pc) : Store m (.run q th) (pc.step q m).1 := by
  cases pc with
  | handling => simp only [Fix.step]; split <;> exact .keep
  | pop pc => exact .pending _ _ (.pop q th pc h)
  | handler i => simp only [Fix.step]; split <;> exact .keep
  | set i => exact .handling _ _
  | used i => exact .pending _ _ (.release q th i h)
  | value i => exact .keep
  | sender i v => exact .keep

theorem Store.wait (pc : Wait) : Store m (.run q ⟨.wait pc, none⟩) (pc.step q m).1 := by
  cases pc with
  | chan | clrChan _ | failChan => exact .chan _ _ (.own q _ _ rfl)
  | cas | casR _ | casS _ | failCas => exact .cas (.own q _ _ _ rfl)
  | parent p hk | spin p | zombie p | kids hk => simp only [Wait.step]; split <;> exact .keep
  | pid p | ret r => exact .keep
  | reap p k => exact .cas (.reap q p k)
  | clrPid p k => exact .pid _ _ (.reap q p k)
  | clrParent p k => exact .parent _ _ (.reap q p k)

theorem Store.exit (pc : Exit) : Store m (.run q ⟨.exit pc, none⟩) (pc.step q m).1 := by
  cases pc with
  | cas =>
    simp only [Exit.step]
    split
    · exact .state _ _ (.own q _ _ _ rfl ‹_›)
    · exact .keep
  | init | scan p | zombie p | nZombie p => simp only [Exit.step]; split <;> exact .keep
  | parent => exact .keep
  | wake w | wakeInit w p => exact .wake rfl
  | adopt p => exact .parent _ _ (.adopt q p)

theorem Store.fork (pc : Fork) : Store m (.run q ⟨.fork pc, none⟩) (pc.step q m).1 := by
  cases pc with
  | scan p =>
    simp only [Fork.step]
    split
    · exact .state _ _ (.claim q p ‹_›)
    · exact .keep
  | casPid p k =>
    simp only [Fork.step]
    split
    · exact .nextpid q p k rfl ‹_›
    · exact .keep
  | setPid p k => exact .pid _ _ (.alloc q p k)
  | setKstack p k => exact .kstack _ _ (.alloc q p k)
  | noKstack p => exact .state _ _ (.noKstack q p)
  | clrUsed p i => exact .pending _ _ (.clrUsed q p i)
  | clrHead p => exact .pending _ _ (.clrHead q p)
  | clrHandling p => exact .handling _ _
  | context p => exact .context _ _ (.fork q p)
  | setPgdir p d => exact .pgdir q _ _ rfl
  | freeKstack p =>
    simp only [Fork.step]
    split
    · exact .free _ (.noPgdir q p _ ‹_›)
    · exact .keep
  | clrKstack p => exact .kstack _ _ (.noPgdir q p)
  | noPgdir p => exact .state _ _ (.noPgdir q p)
  | parent p => exact .parent _ _ (.fork q p)
  | setHandler p h => exact .sighandler _ _
  | cas p k =>
    simp only [Fork.step]
    split
    · exact .state _ _ (.publish q p k ‹_›)
    · exact .keep
  | loadPid p | kalloc p | copyuvm p | loadHandler p | pid p | ret r => exact .keep

theorem Store.sigsend (d v : Word) (pc : Send) : Store m (.run q ⟨.sigsend d v pc, none⟩) (pc.step q d v m).1 := by
  cases pc with
  | scan p => simp only [Send.step]; split <;> exact .keep
  | push p r pc => exact .pending _ _ (.push q p d v r pc)
  | wake w => exact .wake rfl
  | self p | chan p | ret b => exact .keep

theorem Store.sigpause (pc : Pause) : Store m (.run q ⟨.sigpause pc, none⟩) (pc.step q m).1 := by
  cases pc with
  | chan => exact .chan _ _ (.own q _ _ rfl)
  | cas | undoN | undoS => exact .cas (.own q _ _ _ rfl)
  | empty1 | empty2 => simp only [Pause.step]; split <;> exact .keep
  | ret => exact .keep

theorem Store.kill (pid : Word) (pc : Kill) : Store m (.run q ⟨.kill pid pc, none⟩) (pc.step q pid m).1 := by
  cases pc with
  | scan p | spin p => simp only [Kill.step]; split <;> exact .keep
  | set p => exact .killed _ _
  | cas => exact .cas (.own q _ _ _ rfl)
  | ret => exact .keep

theorem Store.next (b : Pc) : Store m (.run q ⟨b, none⟩) (b.next q m).1 := by
  cases b with
  | sleepChan c => exact .chan _ _ (.own q _ _ rfl)
  | sleepCas c => exact .cas (.own q _ _ _ rfl)
  | wakeup w => exact .wake rfl
  | wait pc => exact .wait pc
  | exit pc => exact .exit pc
  | fork pc => exact .fork pc
  | sigsend d v pc => exact .sigsend d v pc
  | sigpause pc => exact .sigpause pc
  | kill pid pc => exact .kill pid pc
  | sigset h => exact .sighandler _ _
  | sigret => exact .handling _ _
  | fault => exact .killed _ _
  | fixTf pc => exact .fix rfl
  | sched c => simp only [Pc.next]; split <;> exact .keep
  | idle | sleepRet c | swtch c | panic => exact .keep

theorem Store.handler (b : Pc) (i : Intr) : Store m (.run q ⟨b, some i⟩) (i.step q m).1 := by
  cases i with
  | wake w t => exact .wake rfl
  | trap | sched => simp only [Intr.step]; split <;> exact .keep
  | yieldCas => exact .cas (.own q _ _ _ rfl)
  | fixTf pc => exact .fix rfl
  | swtch | yieldRet | panic => exact .keep

theorem Mem.alloc_some {v : Option Page} (h : m.alloc v = some m') :
    (v = none ∧ m' = m) ∨ ∃ d, v = some d ∧ m.inUse d = false ∧ m' = m.setInUse d true := by
  cases v with
  | none => exact .inl ⟨rfl, by simpa [Mem.alloc] using h.symm⟩
  | some d =>
    simp only [Mem.alloc, Option.ite_none_left_eq_some, Option.some.injEq, Bool.not_eq_true] at h
    exact .inr ⟨d, rfl, h.1, h.2.symm⟩

theorem Store.thread (h : ThreadStep q m th m' th') : Store m (.run q th) m' := by
  cases h with
  | arrive | exits | call => exact .keep
  | handler b i => exact .handler b i
  | next b => exact .next b
  | kalloc p v _ hm =>
    obtain ⟨-, rfl⟩ | ⟨d, -, hd, rfl⟩ := Mem.alloc_some hm
    · exact .keep
    · exact .alloc d (.kalloc q p d hd)
  | copyuvm p v _ hm =>
    obtain ⟨-, rfl⟩ | ⟨d, -, hd, rfl⟩ := Mem.alloc_some hm
    · exact .keep
    · exact .alloc d (.copyuvm q p d hd)

theorem Store.sched {pc : Sched} (h : pc.step m = some (m', k')) : Store m (.sched pc) m' := by
  cases pc with
  | pick p =>
    simp only [Sched.step] at h
    split at h <;> obtain ⟨rfl, -⟩ := by simpa using h
    · exact .state _ _ (.pick p ‹_›)
    · exact .keep
  | post1 p =>
    obtain ⟨rfl, -⟩ := by simpa [Sched.step] using h
    exact .cas (.post1 p)
  | post2 p =>
    obtain ⟨rfl, -⟩ := by simpa [Sched.step] using h
    exact .cas (.post2 p)
  | post3 p =>
    obtain ⟨rfl, -⟩ := by simpa [Sched.step] using h
    exact .cas (.post3 p)
  | check p z | freeCheck p =>
    simp only [Sched.step] at h
    split at h <;> obtain ⟨rfl, -⟩ := by simpa using h
    · exact .keep
    · exact .keep
  | freeKstack p =>
    simp only [Sched.step] at h
    split at h <;> obtain ⟨rfl, -⟩ := by simpa using h
    · exact .free _ (.kstack p _ ‹_›)
    · exact .keep
  | freePgdir p =>
    simp only [Sched.step] at h
    split at h <;> obtain ⟨rfl, -⟩ := by simpa using h
    · exact .free _ (.pgdir p _ ‹_›)
    · exact .keep
  | clrKstack p =>
    obtain ⟨rfl, -⟩ := by simpa [Sched.step] using h
    exact .kstack _ _ (.free p)
  | clrKilled p =>
    obtain ⟨rfl, -⟩ := by simpa [Sched.step] using h
    exact .killed _ _
  | clrChan p =>
    obtain ⟨rfl, -⟩ := by simpa [Sched.step] using h
    exact .chan _ _ (.free p)
  | start | load p =>
    obtain ⟨rfl, -⟩ := by simpa [Sched.step] using h
    exact .keep
  | panic => simp [Sched.step] at h

/-- **Every step makes at most one store**, and its control point says which. -/
theorem CpuStep.store (h : CpuStep m k m' k') : Store m k m' := by
  cases h with
  | sched pc _ _ h => exact .sched h
  | schedIntr c => exact .keep
  | wake w | wakeEnd w => exact .wake rfl
  | save q th th' h => exact .context _ _ (.save q th th' h)
  | run q th th' _ h => exact .thread h

/-! ### One column at a time -/

theorem Store.state_cases (h : Store m k m') (p : Slot) :
    m'.state p = m.state p ∨ StateStep m k p (m'.state p) := by
  cases h with
  | state p' v hs =>
    obtain rfl | hp := eq_or_ne p p'
    · exact .inr (by simpa [Mem.setState] using hs)
    · exact .inl (by simp [Mem.setState, hp])
  | _ => exact .inl rfl

theorem Store.chan_cases (h : Store m k m') (p : Slot) : m'.chan p = m.chan p ∨ ChanStep k p (m'.chan p) := by
  cases h with
  | chan p' v hs =>
    obtain rfl | hp := eq_or_ne p p'
    · exact .inr (by simpa [Mem.setChan] using hs)
    · exact .inl (by simp [Mem.setChan, hp])
  | _ => exact .inl rfl

theorem Store.context_cases (h : Store m k m') (p : Slot) :
    m'.context p = m.context p ∨ ContextStep k p (m'.context p) := by
  cases h with
  | context p' v hs =>
    obtain rfl | hp := eq_or_ne p p'
    · exact .inr (by simpa [Mem.setContext] using hs)
    · exact .inl (by simp [Mem.setContext, hp])
  | _ => exact .inl rfl

end Store

/-! ## Steps of the machine -/

theorem step_inv {Cpu : Type*} [DecidableEq Cpu] {s s' : State Cpu} {a : Cpu × Choice} (h : step s a = some s') :
    ∃ m' k', CpuStep s.mem (s.cpu a.1) m' k' ∧ s' = ⟨m', Function.update s.cpu a.1 k'⟩ := by
  simp only [step, Option.map_eq_some_iff] at h
  obtain ⟨⟨m', k'⟩, h, rfl⟩ := h
  exact ⟨m', k', .of_step h, rfl⟩

section Machine

variable {Cpu : Type*} [DecidableEq Cpu] {s s' : State Cpu} {a : Cpu × Choice} {q : Slot} {b : Pc}

end Machine

theorem Store.nextpid_cases {m m' : Mem} {k : CpuCtl} (h : Store m k m') :
    m'.nextpid = m.nextpid ∨
      (∃ x r, k = .run x ⟨.fork (.casPid r m.nextpid), none⟩) ∧ m'.nextpid = m.nextpid + 1 := by
  cases h with
  | nextpid x r v hk hv => exact .inr ⟨⟨x, r, by rw [hv]; exact hk⟩, by rw [hv]⟩
  | _ => exact .inl rfl

end Xv6
