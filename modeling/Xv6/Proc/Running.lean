import Xv6.Proc.Mutex

/-!
# A running process is RUNNING

Each control point of a process comes with the states in which the process can be there (`Thread.expects`). There are
two such tables.
-/

namespace Xv6

open Lib

variable {Cpu : Type*}

/-! ## The states that belong to a control point -/

/-- The states of a process that goes to sleep, before its CPU has left it. -/
def ProcState.drowsy : ProcState → Bool
  | .nSleeping | .nRunnable => true
  | _ => false

/-- RUNNING; in the lax table also nRUNNABLE. -/
def ProcState.awake (strict : Bool) (st : ProcState) : Bool := st = .running || (!strict && st = .nRunnable)

/-- nSLEEPING; in the lax table also nRUNNABLE. -/
def ProcState.undoing (strict : Bool) (st : ProcState) : Bool := st = .nSleeping || (!strict && st = .nRunnable)

def Wait.expects (strict : Bool) (st : ProcState) : Wait → Bool
  | .chan | .cas | .ret _ => st.awake strict
  | .parent _ _ | .spin _ | .zombie _ | .pid _ | .reap _ _ | .clrPid _ _ | .clrParent _ _ | .clrChan _ | .casR _
  | .kids _ => st.drowsy
  | .casS _ => st.awake strict || st.undoing strict
  | .failChan | .failCas => st.undoing strict

def Pause.expects (strict : Bool) (st : ProcState) : Pause → Bool
  | .empty1 | .chan | .cas | .undoS | .ret => st.awake strict
  | .empty2 => st.drowsy
  | .undoN => st.undoing strict

def Exit.expects (strict : Bool) (st : ProcState) : Exit → Bool
  | .init | .cas => st.awake strict
  | .parent | .wake _ | .scan _ | .adopt _ | .zombie _ | .nZombie _ | .wakeInit _ _ => st = .nZombie

def SchedK.expects (st : ProcState) : SchedK → Bool
  | .sleep _ | .wait | .sigpause => st.drowsy
  | .exit => st = .nZombie

/-- The states in which a process can be at a control point. -/
def Pc.expects (strict : Bool) (st : ProcState) : Pc → Bool
  | .wait pc => pc.expects strict st
  | .sigpause pc => pc.expects strict st
  | .exit pc => pc.expects strict st
  | .sched k | .swtch k => k.expects st
  | .panic => st.busy
  | _ => st.awake strict

/-- The same for an interrupted process: a handler that yields has found the process RUNNING. -/
def Thread.expects (strict : Bool) (st : ProcState) (th : Thread) : Bool :=
  match th.intr with
  | none => th.base.expects strict st
  | some (.wake _ _) | some .trap | some (.fixTf _) => th.base.expects strict st
  | some .yieldCas | some .yieldRet => st.awake strict && th.base.expects strict .running
  | some .sched | some .swtch => st = .nRunnable && th.base.expects strict .running
  | some .panic => st.busy

/-- Every process on a CPU is in a state that belongs to its control point, and the saved ones can be resumed. -/
structure Settled (strict : Bool) (s : State Cpu) : Prop where
  run : ∀ {c q th}, s.cpu c = .run q th → th.expects strict (s.mem.state q) = true
  load : ∀ {c q}, s.cpu c = .sched (.load q) → s.mem.state q = .running
  context : ∀ q, (s.mem.context q).expects strict .running = true

/-- Control points of `wait` and `sigpause` from which nRUNNABLE is not undone any more. -/
def Pc.undoing : Pc → Bool
  | .wait pc =>
    match pc with
    | .casS _ | .failChan | .failCas => true
    | .chan | .cas | .parent _ _ | .spin _ | .zombie _ | .pid _ | .reap _ _ | .clrPid _ _ | .clrParent _ _
    | .clrChan _ | .casR _ | .kids _ | .ret _ => false
  | .sigpause pc => pc = .undoN
  | _ => false

/-- The CPU runs the process `p`, and nRUNNABLE is not undone any more. -/
def CpuCtl.undoing (p : Slot) : CpuCtl → Bool
  | .run q th => q = p && th.base.undoing
  | .sched _ | .intr _ => false

/-- `wait` takes its way out with -1. -/
def Wait.leaves (m : Mem) (q : Slot) : Wait → Bool
  | .kids havekids => !havekids || m.killed q
  | _ => false

/-- The process takes a way out of `wait` or `sigpause` that does not undo nRUNNABLE. -/
def Pc.leaves (m : Mem) (q : Slot) : Pc → Bool
  | .wait pc => pc.leaves m q
  | .sigpause pc => pc = .empty2 && (m.pending q).isEmpty
  | _ => false

/-- The process that takes such a way out on the CPU. -/
def CpuCtl.leaving (m : Mem) : CpuCtl → Option Slot
  | .run q th => if th.intr = none ∧ th.base.leaves m q = true then some q else none
  | .sched _ | .intr _ => none

/-- No wakeup hits a process on its way out of `wait` or `sigpause`, and none has hit it when it takes a way out that
does not undo nRUNNABLE. -/
def Undisturbed (s : State Cpu) (a : Cpu × Choice) : Prop :=
  (∀ w ∈ (s.cpu a.1).wake, w.pc = .casN → s.mem.state w.p = .nSleeping → ∀ c, (s.cpu c).undoing w.p = false) ∧
  ∀ q ∈ (s.cpu a.1).leaving s.mem, s.mem.state q ≠ .nRunnable

instance [Fintype Cpu] (s : State Cpu) (a : Cpu × Choice) : Decidable (Undisturbed s a) :=
  inferInstanceAs (Decidable (_ ∧ _))

/-! ## One step of a process -/

section Own

variable {strict : Bool} {q : Slot} {m m' : Mem}

theorem Mem.cas_state_self {e n : ProcState} :
    (m.cas q e n).state q = if m.state q = e then n else m.state q := by
  unfold Mem.cas
  split <;> simp [Mem.setState]

theorem Pc.expects_nRunnable {b : Pc} (h : b.expects false .running = true ∨ b.expects false .nSleeping = true) :
    b.expects false .nRunnable = true := by
  cases b with
  | wait pc | sigpause pc | exit pc | sched pc | swtch pc =>
    cases pc <;> simp_all [Pc.expects, Wait.expects, Pause.expects, Exit.expects, SchedK.expects, ProcState.drowsy,
      ProcState.awake, ProcState.undoing]
  | _ => simp_all [Pc.expects, ProcState.awake, ProcState.busy]

theorem Thread.expects_wake {th : Thread} (hu : strict = true → th.base.undoing = false)
    (h : th.expects strict .nSleeping = true) : th.expects strict .nRunnable = true := by
  obtain ⟨b, i⟩ := th
  have hb : b.expects strict .nSleeping = true → b.expects strict .nRunnable = true := by
    intro h
    cases b with
    | wait pc | sigpause pc | exit pc | sched pc | swtch pc =>
      cases strict <;> cases pc <;> simp_all [Pc.expects, Wait.expects, Pause.expects, Exit.expects, SchedK.expects,
        ProcState.drowsy, ProcState.awake, ProcState.undoing, Pc.undoing]
    | _ => simp_all [Pc.expects, ProcState.awake, ProcState.busy]
  cases i with
  | none => exact hb h
  | some i => cases i <;> simp_all [Thread.expects, ProcState.awake, ProcState.busy]

theorem Wait.next_expects (p : Slot) (hk : Bool) (st : ProcState) :
    (Pc.wait (Wait.next p hk)).expects strict st = st.drowsy := by
  unfold Wait.next
  split <;> rfl

theorem Exit.next_expects (p : Slot) (st : ProcState) : (Exit.next p).expects strict st = decide (st = .nZombie) := by
  unfold Exit.next
  split <;> rfl

theorem Pc.next_expects {b : Pc} (hc : b.ownCas = none)
    (hl : strict = true → b.leaves m q = true → m.state q ≠ .nRunnable) (he : b.expects strict (m.state q) = true) :
    (b.next q m).2.expects strict (m.state q) = true := by
  cases b with
  | wait pc =>
    cases pc with
    | kids hk =>
      simp only [Pc.next, Wait.step]
      split
      · rename_i hout
        have hne : strict = true → m.state q ≠ .nRunnable := fun hs => hl hs hout
        cases strict <;> cases hst : m.state q <;>
          simp_all [Pc.expects, Wait.expects, ProcState.drowsy, ProcState.undoing]
      · exact he
    | parent p hk | zombie p =>
      simp only [Pc.next, Wait.step]
      split
      · exact he
      · rw [Wait.next_expects]; exact he
    | spin p => simp only [Pc.next, Wait.step]; split <;> exact he
    | cas | casR k | casS k | failCas => simp [Pc.ownCas, Wait.ownCas] at hc
    | _ => exact he
  | sigpause pc =>
    cases pc with
    | empty2 =>
      simp only [Pc.next, Pause.step]
      split
      · rename_i hout
        have hne : strict = true → m.state q ≠ .nRunnable := fun hs => hl hs (by simpa [Pc.leaves] using hout)
        cases strict <;> cases hst : m.state q <;>
          simp_all [Pc.expects, Pause.expects, ProcState.drowsy, ProcState.undoing]
      · exact he
    | empty1 => simp only [Pc.next, Pause.step]; split <;> exact he
    | cas | undoN | undoS => simp [Pc.ownCas, Pause.ownCas] at hc
    | _ => exact he
  | exit pc =>
    cases pc with
    | init =>
      simp only [Pc.next, Exit.step]
      split
      · cases strict <;> cases hst : m.state q <;>
          simp_all [Pc.expects, Exit.expects, ProcState.awake, ProcState.busy]
      · exact he
    | cas => simp [Pc.ownCas, Exit.ownCas] at hc
    | wake w => simp only [Pc.next, Exit.step]; split <;> exact he
    | scan p | nZombie p =>
      simp only [Pc.next, Exit.step]
      split
      · exact he
      · rw [Exit.next_expects]; exact he
    | zombie p => simp only [Pc.next, Exit.step]; split <;> exact he
    | wakeInit w p =>
      simp only [Pc.next, Exit.step]
      split
      · exact he
      · rw [Exit.next_expects]; exact he
    | _ => exact he
  | sched k =>
    simp only [Pc.next]
    split
    · rename_i hr
      cases k <;> simp [Pc.expects, SchedK.expects, hr, ProcState.drowsy] at he
    · exact he
  | kill pid pc =>
    cases pc with
    | cas => simp [Pc.ownCas, Kill.ownCas] at hc
    | scan p =>
      simp only [Pc.next, Kill.step]
      split
      · exact he
      · split <;> exact he
    | spin p => simp only [Pc.next, Kill.step]; split <;> exact he
    | _ => exact he
  | fork pc =>
    have hb : (m.state q).busy = true := by
      cases strict <;> cases hst : m.state q <;> simp_all [Pc.expects, ProcState.awake, ProcState.busy]
    cases pc with
    | scan p =>
      simp only [Pc.next, Fork.step]
      split
      · exact he
      · split <;> exact he
    | casPid p k | cas p k => simp only [Pc.next, Fork.step]; split <;> exact he
    | setKstack p k | setPgdir p k => simp only [Pc.next, Fork.step]; split <;> exact he
    | clrUsed p i => simp only [Pc.next, Fork.step]; split <;> exact he
    | freeKstack p =>
      simp only [Pc.next, Fork.step]
      split
      · exact he
      · exact hb
    | _ => exact he
  | sigsend d v pc =>
    cases pc with
    | scan p =>
      simp only [Pc.next, Send.step]
      split
      · exact he
      · split <;> exact he
    | push p r pc => simp only [Pc.next, Send.step]; split <;> exact he
    | wake w => simp only [Pc.next, Send.step]; split <;> exact he
    | _ => exact he
  | wakeup w | fixTf pc => simp only [Pc.next]; split <;> exact he
  | sleepCas c => simp [Pc.ownCas] at hc
  | _ => exact he

theorem Intr.start_expects (b : Pc) (c : Option Chan) (t : Bool) (st : ProcState) :
    (Thread.mk b (some (Intr.start c t))).expects strict st = b.expects strict st := by
  cases c <;> cases t <;> rfl

theorem ThreadStep.expects_control {th th' : Thread} (h : ThreadStep q m th m' th') (hc : th.ownCas = none)
    (hl : strict = true → ∀ b, th = ⟨b, none⟩ → b.leaves m q = true → m.state q ≠ .nRunnable)
    (he : th.expects strict (m.state q) = true) : th'.expects strict (m.state q) = true := by
  cases h with
  | arrive b c t => rw [Intr.start_expects]; exact he
  | handler b i hsw hpa =>
    cases i with
    | wake w t =>
      simp only [Intr.step]
      split
      · exact he
      · rw [Intr.start_expects]; exact he
    | trap =>
      simp only [Intr.step]
      split
      · rename_i hr
        simpa [Thread.expects, hr, ProcState.awake] using he
      · exact he
    | yieldCas => simp [Thread.ownCas] at hc
    | sched =>
      simp only [Intr.step]
      split
      · rename_i hr
        simp [Thread.expects, hr] at he
      · exact he
    | yieldRet =>
      -- the process was RUNNING when it yielded, so its control point accepts what `yield` returns with
      simp only [Thread.expects, Bool.and_eq_true] at he
      simp only [Intr.step, Thread.expects]
      obtain ⟨ha, hb⟩ := he
      cases strict
      · simp only [ProcState.awake, Bool.or_eq_true, decide_eq_true_eq, Bool.not_false, Bool.true_and] at ha
        obtain e | e := ha <;> rw [e]
        · exact hb
        · exact Pc.expects_nRunnable (.inl hb)
      · simp only [ProcState.awake, Bool.not_true, Bool.false_and, Bool.or_false, decide_eq_true_eq] at ha
        rwa [ha]
    | fixTf pc =>
      simp only [Intr.step]
      cases (pc.step q m).2 <;> exact he
    | swtch => exact absurd rfl hsw
    | panic => exact absurd rfl hpa
  | exits i hi => cases i <;> simp [Intr.exits] at hi <;> exact he
  | kalloc | copyuvm => exact he
  | call f => cases f <;> exact he
  | next b => exact Pc.next_expects hc (fun hs => hl hs b rfl) he

theorem ThreadStep.expects_cas {th th' : Thread} (h : ThreadStep q m th m' th') {e n : ProcState}
    (hc : th.ownCas = some (e, n)) (he : th.expects strict (m.state q) = true) :
    th'.expects strict (m'.state q) = true := by
  cases h with
  | arrive b c t => rw [Intr.start_expects]; exact he
  | handler b i =>
    cases i <;> simp [Thread.ownCas] at hc
    simp only [Thread.expects, Bool.and_eq_true] at he
    simp only [Intr.step, Thread.expects, Mem.cas_state_self]
    cases strict <;> cases hst : m.state q <;> simp_all [ProcState.awake]
  | exits i hi => cases i <;> simp [Thread.ownCas, Intr.exits] at hc hi
  | call | kalloc | copyuvm => simp [Thread.ownCas, Pc.ownCas] at hc
  | next b =>
    cases b with
    | wait pc | sigpause pc | exit pc | kill _ pc =>
      cases pc <;> simp [Thread.ownCas, Pc.ownCas, Wait.ownCas, Pause.ownCas, Exit.ownCas, Kill.ownCas] at hc
      all_goals
        clear hc
        simp only [Thread.expects, Pc.expects, Wait.expects, Pause.expects, Exit.expects] at he
        cases strict <;> cases hst : m.state q <;>
          simp_all [Pc.next, Wait.step, Pause.step, Exit.step, Kill.step, Thread.expects, Pc.expects, Wait.expects,
            Pause.expects, Exit.expects, Mem.cas, Mem.setState, ProcState.awake, ProcState.drowsy, ProcState.undoing,
            ProcState.busy]
    | sleepCas c =>
      simp only [Thread.expects, Pc.expects] at he
      simp only [Pc.next, Thread.expects, Pc.expects, SchedK.expects, Mem.cas_state_self]
      cases strict <;> cases hst : m.state q <;> simp_all [ProcState.awake, ProcState.drowsy]
    | _ => simp [Thread.ownCas, Pc.ownCas] at hc

end Own

/-! ## Every run keeps to the tables -/

theorem Thread.saved_expects {strict : Bool} {th th' : Thread} {st : ProcState} (h : th.saved = some th')
    (he : th.expects strict st = true) : th'.expects strict .running = true := by
  obtain ⟨k, rfl, rfl⟩ | ⟨b, rfl, rfl⟩ := Thread.saved_cases h
  · cases k <;> cases strict <;> rfl
  · simp only [Thread.expects, Bool.and_eq_true] at he ⊢
    exact ⟨by cases strict <;> rfl, he.2⟩

theorem ThreadStep.wake_base {strict : Bool} {q : Slot} {m m' : Mem} {th th' : Thread} (h : ThreadStep q m th m' th')
    {w : Wake} (hw : (CpuCtl.run q th).wake = some w) (he : th.expects strict .nSleeping = true) :
    th'.base = th.base := by
  cases h with
  | handler | arrive => rfl
  | exits i hi => cases i <;> simp [CpuCtl.wake, Intr.exits] at hw hi
  | call | kalloc | copyuvm => simp [CpuCtl.wake, Pc.wake] at hw
  | next b =>
    cases b with
    | exit pc =>
      cases pc <;> simp [CpuCtl.wake, Pc.wake, Exit.waking] at hw <;> simp [Thread.expects, Pc.expects, Exit.expects] at he
    | wakeup w' | sigsend d v pc => simp [Thread.expects, Pc.expects, ProcState.awake] at he
    | _ => simp [CpuCtl.wake, Pc.wake] at hw

section Step

variable {strict : Bool}

/-- What the tables ask of a step. -/
def Guard (strict : Bool) (s : State Cpu) (a : Cpu × Choice) : Prop := Prompt s a ∧ (strict = true → Undisturbed s a)

variable [DecidableEq Cpu] {s s' : State Cpu} {a : Cpu × Choice}

theorem Settled.step_own (hs : Safe s) (ht : Settled strict s) (hok : Guard strict s a) (h : step s a = some s')
    {q : Slot} {th th' : Thread} (hc : s.cpu a.1 = .run q th) (hstep : ThreadStep q s.mem th s'.mem th') :
    th'.expects strict (s'.mem.state q) = true := by
  have he := ht.run hc
  cases hcas : th.ownCas with
  | some en => exact hstep.expects_cas hcas he
  | none =>
    have hl : strict = true → ∀ b, th = ⟨b, none⟩ → b.leaves s.mem q = true → s.mem.state q ≠ .nRunnable := by
      rintro hst b rfl hb
      exact (hok.2 hst).2 q (by simp [hc, CpuCtl.leaving, hb])
    have he' := hstep.expects_control hcas hl he
    obtain hsame | ⟨hsl, hnr, w, hw, hpc, rfl⟩ | ⟨-, hp1 | ⟨th₁, e, hrun, hcas'⟩⟩ :=
      hs.hand_state hok.1 h (p := q) (by rw [hc]; rfl)
    · rwa [hsame]
    · rw [hsl] at he he'
      rw [hnr]
      have hbase := hstep.wake_base (hc ▸ hw) he
      have hu : strict = true → th.base.undoing = false := fun hst => by
        simpa [hc, CpuCtl.undoing] using (hok.2 hst).1 w hw hpc hsl a.1
      exact Thread.expects_wake (hbase ▸ hu) he'
    · simp [hc] at hp1
    · simp only [hc, CpuCtl.run.injEq, true_and] at hrun
      simp [hrun, hcas'] at hcas

theorem Settled.step_run (hs : Safe s) (ht : Settled strict s) (hok : Guard strict s a) (h : step s a = some s')
    {c : Cpu} {q : Slot} {th : Thread} (hc : s'.cpu c = .run q th) : th.expects strict (s'.mem.state q) = true := by
  obtain ⟨m', k', hk, rfl⟩ := step_inv h
  obtain rfl | hne := eq_or_ne c a.1
  · obtain rfl : k' = .run q th := by simpa using hc
    generalize hkc : s.cpu a.1 = k at hk
    cases hk with
    | sched pc _ _ hp =>
      obtain ⟨rfl, rfl, rfl⟩ := Sched.step_run hp
      simpa [ht.load hkc] using ht.context q
    | run _ th₀ _ _ hstep => exact ht.step_own hs hok h hkc hstep
  · replace hc : s.cpu c = .run q th := by simpa [Function.update_of_ne hne] using hc
    have he := ht.run hc
    obtain hsame | ⟨hsl, hnr, w, hw, hpc, rfl⟩ | ⟨hca, -⟩ := hs.hand_state hok.1 h (p := q) (by rw [hc]; rfl)
    · rwa [hsame]
    · rw [hnr]
      have hu : strict = true → th.base.undoing = false := fun hst => by
        simpa [hc, CpuCtl.undoing] using (hok.2 hst).1 w hw hpc hsl c
      exact Thread.expects_wake hu (hsl ▸ he)
    · exact absurd hca hne

theorem Settled.step_load (hs : Safe s) (ht : Settled strict s) (hok : Guard strict s a) (h : step s a = some s')
    {c : Cpu} {q : Slot} (hc : s'.cpu c = .sched (.load q)) : s'.mem.state q = .running := by
  obtain ⟨m', k', hk, rfl⟩ := step_inv h
  obtain rfl | hne := eq_or_ne c a.1
  · obtain rfl : k' = .sched (.load q) := by simpa using hc
    obtain ⟨hold, -⟩ | ⟨-, -, rfl⟩ := hk.hand (p := q) rfl
    · -- no step leads from a hand to `load`
      generalize hkc : s.cpu a.1 = k at hk hold
      cases hk with
      | sched pc _ _ hp =>
        cases pc <;> simp [CpuCtl.hand] at hold <;> simp [Sched.step] at hp
    · simp [Mem.setState]
  · replace hc : s.cpu c = .sched (.load q) := by simpa [Function.update_of_ne hne] using hc
    have hr := ht.load hc
    obtain hsame | ⟨hsl, -⟩ | ⟨hca, -⟩ := hs.hand_state hok.1 h (p := q) (by rw [hc]; rfl)
    · rwa [hsame]
    · simp [hr] at hsl
    · exact absurd hca hne

theorem Settled.step_context (ht : Settled strict s) (h : step s a = some s') (q : Slot) :
    (s'.mem.context q).expects strict .running = true := by
  obtain ⟨m', k', hk, rfl⟩ := step_inv h
  obtain hsame | hctx := hk.store.context_cases q
  · simpa [hsame] using ht.context q
  · simp only
    generalize hkc : s.cpu a.1 = k at hctx
    generalize m'.context q = th' at hctx
    cases hctx with
    | save _ th _ hsv => exact Thread.saved_expects hsv (ht.run hkc)
    | fork => cases strict <;> rfl

theorem Settled.step (hs : Safe s) (ht : Settled strict s) (hok : Guard strict s a) (h : step s a = some s') :
    Settled strict s' where
  run := ht.step_run hs hok h
  load := ht.step_load hs hok h
  context := ht.step_context h

omit [DecidableEq Cpu] in
theorem Settled.boot : Settled strict (boot : State Cpu) where
  run hc := by simp [Xv6.boot] at hc
  load hc := by simp [Xv6.boot] at hc
  context q := by cases strict <;> rfl

theorem Settled.of_path {tr : List (State Cpu × Cpu × Choice)} (h : Path Xv6.step (Guard strict) Xv6.boot tr s) :
    Safe s ∧ Settled strict s :=
  h.inv (I := fun s => Safe s ∧ Settled strict s) ⟨.boot, .boot⟩
    fun _ _ _ hi hok hst => ⟨hi.1.step hok.1 hst, hi.2.step hi.1 hok hst⟩

end Step

/-! ## Returning processes are RUNNING -/

/-- `wait`, `sleep`, `sigpause` or `yield` returns to its caller. -/
def Thread.Returns (th : Thread) : Prop :=
  (∃ r, th = ⟨.wait (.ret r), none⟩) ∨ (∃ c, th = ⟨.sleepRet c, none⟩) ∨ th = ⟨.sigpause .ret, none⟩ ∨
    ∃ b, th = ⟨b, some .yieldRet⟩

theorem Thread.Returns.running {th : Thread} {st : ProcState} (h : th.Returns) (he : th.expects true st = true) :
    st = .running := by
  obtain ⟨r, rfl⟩ | ⟨c, rfl⟩ | rfl | ⟨b, rfl⟩ := h
  · simpa [Thread.expects, Pc.expects, Wait.expects, ProcState.awake] using he
  · simpa [Thread.expects, Pc.expects, ProcState.awake] using he
  · simpa [Thread.expects, Pc.expects, Pause.expects, ProcState.awake] using he
  · simp only [Thread.expects, Bool.and_eq_true, ProcState.awake, Bool.not_true, Bool.false_and, Bool.or_false,
      decide_eq_true_eq] at he
    exact he.1

/-- **A process that returns from `wait`, `sleep`, `yield` or `sigpause` is RUNNING**; the cas of `exit` finds it so, and
`exit` goes on. -/
theorem returns_running [DecidableEq Cpu] {tr : List (State Cpu × Cpu × Choice)} {s : State Cpu}
    (h : Path step (fun s a => Prompt s a ∧ Undisturbed s a) boot tr s) {c : Cpu} {q : Slot} {th : Thread}
    (hc : s.cpu c = .run q th) :
    (th.Returns → s.mem.state q = .running) ∧
      (th = ⟨.exit .cas, none⟩ → s.mem.state q = .running ∧
        ∀ s', step s (c, .go) = some s' → s'.cpu c = .run q ⟨.exit .parent, none⟩) := by
  have ht : Settled true s := (Settled.of_path (h.mono fun s a hok => ⟨hok.1, fun _ => hok.2⟩)).2
  have he := ht.run hc
  refine ⟨fun hr => hr.running he, ?_⟩
  rintro rfl
  have hrun : s.mem.state q = .running := by
    simpa [Thread.expects, Pc.expects, Exit.expects, ProcState.awake] using he
  refine ⟨hrun, fun s' hs' => ?_⟩
  simp only [step, hc, CpuCtl.step, Thread.step, Thread.saved, Thread.next, Pc.step, Pc.next, Exit.step, hrun, if_true,
    Option.map_some, Option.some.injEq] at hs'
  simp [← hs']

/-- `initproc` sleeps and a disk interrupt wakes it after its CPU has left it: it returns RUNNING. -/
theorem returns_running_from_sleep : ∃ (tr : List (State (Fin 2) × Fin 2 × Choice)) (s : State (Fin 2)),
    Path step (fun s a => Prompt s a ∧ Undisturbed s a) boot tr s ∧
      s.cpu 0 = .run 0 ⟨.sleepRet (.addr 7), none⟩ ∧ s.mem.state 0 = .running := by
  obtain ⟨s, hs, hc⟩ := exists_path step (fun s a => Prompt s a ∧ Undisturbed s a) boot
    (go (0 : Fin 2) 3 ++ [(0, .call (.sleep (.addr 7)))] ++ go 0 7 ++ [(1, .intr (some (.addr 7)) false)] ++ go 1 4 ++
      go 0 67)
    (fun s => s.cpu 0 = .run 0 ⟨.sleepRet (.addr 7), none⟩) (by decide +kernel)
  exact ⟨_, s, hs, hc, (returns_running hs hc).1 (.inr (.inl ⟨_, rfl⟩))⟩

/-- `initproc` forks a child; the child has no children of its own and calls `wait`; while it scans the table, `initproc`
sends it a signal, which wakes it. -/
def signalInWait : List (Fin 2 × Choice) :=
  go 0 3 ++ forkRun 0 1 2 3 ++ go 1 4 ++ [(1, .call .wait)] ++ go 1 2 ++ [(0, .call (.sigsend 3 9))] ++ go 0 15 ++
    go 1 67

/-- `wait` returns -1 to a process that is nRUNNABLE, and `exit` then returns as well. -/
theorem wait_returns_nRunnable : ∃ (tr tr' : List (State (Fin 2) × Fin 2 × Choice)) (s s' : State (Fin 2)),
    Path step free boot tr s ∧ s.cpu 1 = .run 1 ⟨.wait (.ret none), none⟩ ∧ s.mem.state 1 = .nRunnable ∧
    Path step free boot tr' s' ∧ s'.cpu 1 = .run 1 ⟨.exit .cas, none⟩ ∧
      (step s' (1, .go)).map (fun t => t.cpu 1) = some (.run 1 ⟨.idle, none⟩) := by
  obtain ⟨s, hs, hc, hm⟩ := exists_path step free boot signalInWait
    (fun s => s.cpu 1 = .run 1 ⟨.wait (.ret none), none⟩ ∧ s.mem.state 1 = .nRunnable) (by decide +kernel)
  obtain ⟨s', hs', hc', hm'⟩ := exists_path step free boot (signalInWait ++ go 1 1 ++ [(1, .call .exit)] ++ go 1 1)
    (fun s => s.cpu 1 = .run 1 ⟨.exit .cas, none⟩ ∧
      (step s (1, .go)).map (fun t => t.cpu 1) = some (.run 1 ⟨.idle, none⟩)) (by decide +kernel)
  exact ⟨_, _, s, s', hs, hc, hm, hs', hc', hm'⟩

/-- **A process in `sched` is in a transitional state**, at its test and at `swtch`: nSLEEPING or nRUNNABLE if it comes
from `sleep`, `wait` or `sigpause`, nZOMBIE from `exit`, nRUNNABLE in the `yield` of a clock interrupt. So `sched` does not
panic over a RUNNING process. -/
theorem sched_in_transition [DecidableEq Cpu] {tr : List (State Cpu × Cpu × Choice)} {s : State Cpu}
    (h : Path step Prompt boot tr s) {c : Cpu} {q : Slot} {th : Thread} (hc : s.cpu c = .run q th) :
    (∀ k, th = ⟨.sched k, none⟩ ∨ th = ⟨.swtch k, none⟩ →
      if k = .exit then s.mem.state q = .nZombie else s.mem.state q = .nSleeping ∨ s.mem.state q = .nRunnable) ∧
      ∀ b, th = ⟨b, some .sched⟩ ∨ th = ⟨b, some .swtch⟩ → s.mem.state q = .nRunnable := by
  have hg : Path step (Guard false) boot tr s := h.mono fun _ _ hok => ⟨hok, fun h => absurd h (by decide)⟩
  have he := (Settled.of_path hg).2.run hc
  generalize s.mem.state q = st at he ⊢
  constructor
  · rintro k (rfl | rfl)
    all_goals cases k <;> cases st <;> simp_all [Thread.expects, Pc.expects, SchedK.expects, ProcState.drowsy]
  · rintro b (rfl | rfl)
    all_goals simp_all [Thread.expects]

/-- `initproc` goes to sleep. -/
theorem sched_in_transition_sleep : ∃ (tr : List (State (Fin 2) × Fin 2 × Choice)) (s : State (Fin 2)),
    Path step Prompt boot tr s ∧ s.cpu 0 = .run 0 ⟨.sched (.sleep (.addr 7)), none⟩ ∧
      (s.mem.state 0 = .nSleeping ∨ s.mem.state 0 = .nRunnable) := by
  obtain ⟨s, hs, hc⟩ := exists_path step Prompt boot (go (0 : Fin 2) 3 ++ [(0, .call (.sleep (.addr 7)))] ++ go 0 2)
    (fun s => s.cpu 0 = .run 0 ⟨.sched (.sleep (.addr 7)), none⟩) (by decide +kernel)
  exact ⟨_, s, hs, hc, by simpa using (sched_in_transition hs hc).1 _ (.inl rfl)⟩

end Xv6
