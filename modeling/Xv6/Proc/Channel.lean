import Xv6.Proc.Running

/-!
# Sleep channels

A process asleep in `sleep(c)` or `wait` is found by `wakeup1(c)` through `p->chan`. `wakeup1` and `freeproc` clear that
field with a plain store, which can come so late that it hits the next sleep of the process.
-/

namespace Xv6

open Lib

variable {Cpu : Type*}

/-! ## Asleep on a channel -/

/-- The channel that `wait` has set and not cleared itself. The loop of `wait` resumes at `chan`. -/
def Wait.sleepsOn (q : Slot) : Wait → Option Chan
  | .chan | .cas | .parent _ _ | .spin _ | .zombie _ | .pid _ | .reap _ _ | .clrPid _ _ | .clrParent _ _ | .clrChan _
  | .kids _ | .failChan => some (.proc q)
  | .casR _ | .casS _ | .failCas | .ret _ => none

def SchedK.sleepsOn (q : Slot) : SchedK → Option Chan
  | .sleep c => some c
  | .wait => some (.proc q)
  | .sigpause | .exit => none

/-- The channel that a process inside `sleep` or `wait` has set and not cleared itself. -/
def Pc.sleepsOn (q : Slot) : Pc → Option Chan
  | .sleepCas c | .sleepRet c => some c
  | .wait pc => pc.sleepsOn q
  | .sched k | .swtch k => k.sleepsOn q
  | _ => none

/-- The process has set its channel and is about to make itself nSLEEPING. -/
def Thread.arming (q : Slot) (th : Thread) (c : Chan) : Prop :=
  th = ⟨.sleepCas c, none⟩ ∨ th = ⟨.wait .cas, none⟩ ∧ c = .proc q

/-- nSLEEPING or SLEEPING. -/
def ProcState.asleep : ProcState → Bool
  | .nSleeping | .sleeping => true
  | _ => false

/-- The process `q` is inside `sleep(c)`, or inside `wait` with `c` its own address, and nSLEEPING or SLEEPING. -/
def Asleep (s : State Cpu) (q : Slot) (c : Chan) : Prop :=
  (s.mem.state q).asleep = true ∧ ∃ th, Live s q th ∧ th.base.sleepsOn q = some c

/-- The process `q` is about to fall asleep on `c`. -/
def Arming (s : State Cpu) (q : Slot) (c : Chan) : Prop :=
  s.mem.state q = .running ∧ ∃ d th, s.cpu d = .run q th ∧ th.arming q c

/-- The process whose channel the CPU clears, in `wakeup1` or in `freeproc`. -/
def CpuCtl.clears : CpuCtl → Option Slot
  | .sched (.clrChan p) => some p
  | k => k.wake.bind fun w => if w.pc = .clrN ∨ w.pc = .clrS then some w.p else none

/-- `wakeup1` and `freeproc` do not clear the channel of a process that has gone to sleep since. -/
def Tidy (s : State Cpu) (a : Cpu × Choice) : Prop :=
  ∀ p ∈ (s.cpu a.1).clears, ∀ c, ¬ Asleep s p c ∧ ¬ Arming s p c

/-- The channel of a process that sleeps, or is about to, is the one it sleeps on. -/
structure Tuned (s : State Cpu) : Prop where
  asleep : ∀ {q c}, Asleep s q c → s.mem.chan q = c
  arming : ∀ {q c}, Arming s q c → s.mem.chan q = c

/-! ## One step -/

theorem ChanStep.cases {k : CpuCtl} {p : Slot} {v : Chan} (h : ChanStep k p v) :
    (∃ b, k = .run p ⟨b, none⟩ ∧ b.ownChan p = some v) ∨ k.clears = some p := by
  cases h with
  | own q b c hc => exact .inl ⟨b, rfl, hc⟩
  | free p => exact .inr rfl
  | wakeN k w hw hpc | wakeS k w hw hpc =>
    refine .inr ?_
    cases k with
    | sched pc => simp [CpuCtl.wake] at hw
    | _ => simp [CpuCtl.clears, hw, hpc]

theorem StateStep.asleep {m : Mem} {k : CpuCtl} {p : Slot} {v : ProcState} (h : StateStep m k p v)
    (hv : v.asleep = true) :
    m.state p = .nSleeping ∨ m.state p = .running ∧ ∃ th, k = .run p th ∧ th.ownCas = some (.running, .nSleeping) := by
  cases h with
  | post2 _ h => exact .inl h
  | own q th e n hc he =>
    subst he
    obtain ⟨he, rfl | rfl | rfl⟩ | ⟨-, rfl⟩ := Thread.ownCas_cases hc
    · exact .inr ⟨he, th, rfl, he ▸ hc⟩
    all_goals simp [ProcState.asleep] at hv
  | _ => simp [ProcState.asleep] at hv

section Own

variable {q : Slot} {m m' : Mem}

theorem Wait.next_sleepsOn (p : Slot) (hk : Bool) : (Wait.next p hk).sleepsOn q = some (.proc q) := by
  unfold Wait.next
  split <;> rfl

theorem Exit.next_sleepsOn (p : Slot) : (Exit.next p).sleepsOn q = none := by
  unfold Exit.next
  split <;> rfl

theorem Pc.next_sleepsOn {b : Pc} {c : Chan} (h : (b.next q m).2.sleepsOn q = some c) :
    b.sleepsOn q = some c ∨ b = .sleepChan c := by
  cases b with
  | sleepChan c' => exact .inr (by simpa [Pc.next, Pc.sleepsOn] using h)
  | sleepCas c' => exact .inl h
  | wait pc =>
    cases pc with
    | parent p hk | zombie p =>
      simp only [Pc.next, Wait.step] at h
      split at h
      · exact .inl h
      · simp only [Pc.sleepsOn, Wait.next_sleepsOn] at h
        exact .inl h
    | spin p | kids hk => simp only [Pc.next, Wait.step] at h; split at h <;> exact .inl h
    | clrChan k | casR k | casS k | failChan | failCas | ret r =>
      simp [Pc.next, Wait.step, Pc.sleepsOn, Wait.sleepsOn] at h
    | _ => exact .inl h
  | sched k =>
    simp only [Pc.next] at h
    split at h
    · simp [Pc.sleepsOn] at h
    · exact .inl h
  | swtch k => exact .inl h
  | exit pc =>
    cases pc <;> simp only [Pc.next, Exit.step] at h <;> repeat' split at h
    all_goals first
      | (rw [Exit.next_sleepsOn] at h; simp at h)
      | simp [Pc.sleepsOn] at h
  | fork pc =>
    cases pc <;> simp only [Pc.next, Fork.step] at h <;> repeat' split at h
    all_goals simp [Pc.sleepsOn] at h
  | sigsend d v pc =>
    cases pc <;> simp only [Pc.next, Send.step] at h <;> repeat' split at h
    all_goals simp [Pc.sleepsOn] at h
  | sigpause pc =>
    cases pc <;> simp only [Pc.next, Pause.step] at h <;> repeat' split at h
    all_goals simp [Pc.sleepsOn, SchedK.sleepsOn] at h
  | kill pid pc =>
    cases pc <;> simp only [Pc.next, Kill.step] at h <;> repeat' split at h
    all_goals simp [Pc.sleepsOn] at h
  | wakeup w | fixTf pc => simp only [Pc.next] at h; split at h <;> simp [Pc.sleepsOn] at h
  | _ => simp [Pc.next, Pc.sleepsOn] at h

theorem ThreadStep.sleepsOn {th th' : Thread} {c : Chan} (h : ThreadStep q m th m' th')
    (hc : th'.base.sleepsOn q = some c) :
    th.base.sleepsOn q = some c ∨ th = ⟨.sleepChan c, none⟩ ∨ th = ⟨.idle, none⟩ := by
  cases h with
  | arrive | handler => exact .inl hc
  | exits | kalloc | copyuvm => simp [Pc.sleepsOn] at hc
  | call f => exact .inr (.inr rfl)
  | next b =>
    obtain h | rfl := Pc.next_sleepsOn hc
    · exact .inl h
    · exact .inr (.inl rfl)

theorem Thread.saved_sleepsOn {th th' : Thread} (h : th.saved = some th') :
    th'.base.sleepsOn q = th.base.sleepsOn q := by
  obtain ⟨k, rfl, rfl⟩ | ⟨b, rfl, rfl⟩ := Thread.saved_cases h
  · cases k <;> rfl
  · rfl

theorem Thread.Resumable.not_arming {th : Thread} {c : Chan} (h : th.Resumable) : ¬ th.arming q c := by
  intro harm
  have hno : th.intr = none ∧ th.base ≠ .idle ∧ ∀ k : SchedK, th.base ≠ k.resume := by
    obtain rfl | ⟨rfl, -⟩ := harm <;> exact ⟨rfl, by simp, fun k => by cases k <;> simp [SchedK.resume]⟩
  obtain hy | ⟨-, hidle | ⟨k, hk⟩⟩ := h
  · simp [hno.1] at hy
  · exact hno.2.1 hidle
  · exact hno.2.2 k hk

theorem Pc.next_arming {b : Pc} {c : Chan} (h : (Thread.mk (b.next q m).2 none).arming q c) :
    (b.next q m).1.chan q = c := by
  have hc : (b.next q m).2.sleepsOn q = some c := by
    obtain h | ⟨h, rfl⟩ := h <;> simp only [Thread.mk.injEq, and_true] at h <;> rw [h] <;> rfl
  obtain hs | rfl := Pc.next_sleepsOn hc
  · cases b with
    | sleepCas c' | sleepRet c' => simp [Thread.arming, Pc.next] at h
    | sched k => simp only [Pc.next] at h; split at h <;> simp [Thread.arming] at h
    | wait pc =>
      cases pc with
      | chan => simpa [Pc.next, Wait.step, Mem.setChan, Pc.sleepsOn, Wait.sleepsOn] using hs
      | parent p hk | zombie p =>
        simp only [Pc.next, Wait.step] at h
        split at h
        · simp [Thread.arming] at h
        · simp only [Wait.next] at h
          split at h <;> simp [Thread.arming] at h
      | spin p | kids hk => simp only [Pc.next, Wait.step] at h; split at h <;> simp [Thread.arming] at h
      | _ => simp [Thread.arming, Pc.next, Wait.step] at h
    | swtch k => simp [Thread.arming, Pc.next] at h
    | _ => simp [Pc.sleepsOn] at hs
  · simp [Pc.next, Mem.setChan]

theorem Thread.arming_interruptible {th : Thread} {c : Chan} (h : th.arming q c) :
    th.intr = none ∧ th.base.interruptible = false ∧ th.base.sleepsOn q = some c := by
  obtain rfl | ⟨rfl, rfl⟩ := h <;> exact ⟨rfl, rfl, rfl⟩

theorem ThreadStep.arming {th th' : Thread} {c : Chan} (h : ThreadStep q m th m' th')
    (hg : th.intr ≠ none → th.base.interruptible = true) (hc : th'.arming q c) : m'.chan q = c := by
  have hi := Thread.arming_interruptible hc
  cases h with
  | arrive => simp at hi
  | handler b i =>
    have := hg (by simp)
    simp_all
  | call f => cases f <;> simp [Call.start, Thread.arming] at hc
  | exits | kalloc | copyuvm => simp [Thread.arming] at hc
  | next b => exact Pc.next_arming hc

theorem Pc.ownChan_sleepsOn {b : Pc} {c v : Chan} (hv : b.ownChan q = some v) (hc : b.sleepsOn q = some c) :
    v = c ∨ (b.next q m).2.sleepsOn q = none := by
  cases b with
  | wait pc =>
    cases pc <;> simp [Pc.ownChan, Wait.ownChan] at hv
    · exact .inl (by simpa [Pc.sleepsOn, Wait.sleepsOn, hv] using hc)
    all_goals exact .inr rfl
  | _ => simp [Pc.ownChan, Pc.sleepsOn] at hv hc

theorem Thread.ownCas_arming {th : Thread} {c : Chan} (h : th.ownCas = some (.running, .nSleeping))
    (hc : th.base.sleepsOn q = some c) : th.arming q c := by
  obtain ⟨b, i⟩ := th
  cases i with
  | none =>
    cases b with
    | wait pc =>
      cases pc <;> simp [Thread.ownCas, Pc.ownCas, Wait.ownCas] at h
      exact .inr ⟨rfl, by simpa [Pc.sleepsOn, Wait.sleepsOn] using hc.symm⟩
    | sleepCas c' => exact .inl (by simpa [Pc.sleepsOn] using hc)
    | sched | swtch | sleepRet => simp [Thread.ownCas, Pc.ownCas] at h
    | _ => simp [Pc.sleepsOn] at hc
  | some i => cases i <;> simp [Thread.ownCas] at h

end Own

/-! ## The invariant -/

section Step

variable [DecidableEq Cpu] {s s' : State Cpu} {a : Cpu × Choice}

theorem Asleep.before (hs : Safe s) (ht : Settled false s) (h : step s a = some s') {q : Slot} {c : Chan}
    (hq : Asleep s' q c) : (Asleep s q c ∨ Arming s q c) ∧
      ∀ b v, s.cpu a.1 = .run q ⟨b, none⟩ → b.ownChan q = some v → s'.mem.chan q = v → v = c := by
  obtain ⟨hst, th', hl, hso⟩ := hq
  obtain ⟨hl', hnot⟩ | ⟨th, hrun, hstep | ⟨hsv, hm⟩⟩ | ⟨x, -, rfl⟩ := live_step hs h hl
  · refine ⟨.inl ⟨?_, th', hl', hso⟩, fun b v hb => absurd hb (hnot _)⟩
    obtain ⟨m', k', hk, rfl⟩ := step_inv h
    obtain hsame | hss := hk.store.state_cases q
    · exact hsame ▸ hst
    · obtain hn | ⟨-, th₁, hr, -⟩ := hss.asleep hst
      · rw [hn]; rfl
      · exact absurd hr (hnot th₁)
  · have hlive : Live s q th := .inl ⟨a.1, hrun⟩
    have hsame_or : (s.mem.state q).asleep = true ∨
        s.mem.state q = .running ∧ th.ownCas = some (.running, .nSleeping) := by
      obtain hsame | hss := (Store.thread hstep).state_cases q
      · exact .inl (hsame ▸ hst)
      · obtain hn | ⟨hr, th₁, e, hcas⟩ := hss.asleep hst
        · exact .inl (by rw [hn]; rfl)
        · simp only [CpuCtl.run.injEq, true_and] at e
          exact .inr ⟨hr, e ▸ hcas⟩
    have hpre : th.base.sleepsOn q = some c := by
      obtain hpre | hentry := hstep.sleepsOn hso
      · exact hpre
      · -- outside `sleep` and `wait` a process is not asleep, and it does not fall asleep in this step
        have he := ht.run hrun
        have haw : (s.mem.state q).awake false = true ∧ th.ownCas = none := by
          obtain rfl | rfl := hentry <;> exact ⟨he, rfl⟩
        obtain hsl | ⟨-, hcas⟩ := hsame_or
        · cases hq : s.mem.state q <;> simp_all [ProcState.awake, ProcState.asleep]
        · simp [haw.2] at hcas
    refine ⟨?_, fun b v hb hv hchan => ?_⟩
    · obtain hsl | ⟨hr, hcas⟩ := hsame_or
      · exact .inl ⟨hsl, th, hlive, hpre⟩
      · exact .inr ⟨hr, a.1, th, hrun, Thread.ownCas_arming hcas hpre⟩
    · obtain rfl : th = ⟨b, none⟩ := by simpa [hrun] using hb
      obtain hvc | hnone := Pc.ownChan_sleepsOn (m := s.mem) hv hpre
      · exact hvc
      · generalize s'.mem = m' at *
        cases hstep with
        | next => simp [hnone] at hso
        | arrive _ _ _ hb' =>
          cases b with
          | wait pc => simp [Pc.interruptible] at hb'
          | _ => simp [Pc.ownChan, Pc.sleepsOn] at hv hpre
        | call | kalloc | copyuvm => simp [Pc.ownChan] at hv
  · rw [Thread.saved_sleepsOn hsv] at hso
    refine ⟨.inl ⟨by simpa [hm, Mem.setContext] using hst, th, .inl ⟨a.1, hrun⟩, hso⟩, fun b v hb hv => ?_⟩
    obtain rfl : th = ⟨b, none⟩ := by simpa [hrun] using hb
    cases b <;> simp [Thread.saved, Pc.ownChan] at hsv hv
  · simp [forkret, Pc.sleepsOn] at hso

theorem Tuned.step (hs : Safe s) (ht : Settled false s) (hu : Tuned s) (hok : Prompt s a) (htidy : Tidy s a)
    (h : step s a = some s') : Tuned s' where
  asleep {q c} hq := by
    obtain ⟨hpre, hown⟩ := hq.before hs ht h
    have hold : s.mem.chan q = c := hpre.elim hu.asleep hu.arming
    obtain ⟨m', k', hk, rfl⟩ := step_inv h
    obtain hsame | hch := hk.store.chan_cases q
    · exact hsame.trans hold
    · obtain ⟨b, hb, hv⟩ | hclr := hch.cases
      · exact hown b _ hb hv rfl
      · have := htidy q hclr c
        exact absurd hpre (not_or.mpr this)
  arming {q c} hq := by
    obtain ⟨hr, d, th', hd, harm⟩ := hq
    obtain ⟨m', k', hk, rfl⟩ := step_inv h
    obtain rfl | hne := eq_or_ne d a.1
    · obtain rfl : k' = .run q th' := by simpa using hd
      generalize hkc : s.cpu a.1 = k at hk
      cases hk with
      | sched pc _ _ hp =>
        obtain ⟨rfl, rfl, rfl⟩ := Sched.step_run hp
        exact absurd harm (hs.context q).not_arming
      | run _ th _ _ hstep => exact hstep.arming (hs.gate (.inl ⟨a.1, hkc⟩)) harm
    · replace hd : s.cpu d = .run q th' := by simpa [Function.update_of_ne hne] using hd
      have hpre : Arming s q c := by
        refine ⟨?_, d, th', hd, harm⟩
        obtain hsame | ⟨-, hn, -⟩ | ⟨hda, -⟩ := hs.hand_state hok h (c := d) (p := q) (by rw [hd]; rfl)
        · exact hsame ▸ hr
        · exact absurd (hr.symm.trans hn) (by simp)
        · exact absurd hda hne
      obtain hsame | hch := hk.store.chan_cases q
      · exact hsame.trans (hu.arming hpre)
      · obtain ⟨b, hb, -⟩ | hclr := hch.cases
        · exact absurd (hs.unique (c := d) (p := q) (by rw [hd]; rfl) (by rw [hb]; rfl)) hne
        · exact absurd hpre (htidy q hclr c).2

omit [DecidableEq Cpu] in
theorem Tuned.boot : Tuned (boot : State Cpu) where
  asleep {q c} hq := by
    obtain ⟨-, th, hl, hso⟩ := hq
    simp [hl.boot, forkret, Pc.sleepsOn] at hso
  arming {q c} hq := by
    obtain ⟨-, d, th, hd, -⟩ := hq
    simp [Xv6.boot] at hd

theorem Tuned.of_path {tr : List (State Cpu × Cpu × Choice)}
    (h : Path Xv6.step (fun s a => Prompt s a ∧ Tidy s a) Xv6.boot tr s) : Safe s ∧ Settled false s ∧ Tuned s :=
  h.inv (I := fun s => Safe s ∧ Settled false s ∧ Tuned s) ⟨.boot, .boot, .boot⟩
    fun _ _ _ hi hok hst => ⟨hi.1.step hok.1 hst, hi.2.1.step hi.1 ⟨hok.1, by simp⟩ hst,
      hi.2.2.step hi.1 hi.2.1 hok.1 hok.2 hst⟩

end Step

/-! ## A wakeup does not get past a sleeper -/

/-- The process `q` clears its channel on its way out of `wait`. -/
def CpuCtl.givesUp (q : Slot) (k : CpuCtl) : Prop :=
  k = .run q ⟨.wait .failChan, none⟩ ∨ ∃ pid, k = .run q ⟨.wait (.clrChan pid), none⟩

/-- Somewhere on the way the process has become nRUNNABLE or RUNNABLE, or has left `wait` by itself. -/
def Woken (q : Slot) (tr : List (State Cpu × Cpu × Choice)) (t : State Cpu) : Prop :=
  (∃ u, (u = t ∨ u ∈ tr.map Prod.fst) ∧ (u.mem.state q = .nRunnable ∨ u.mem.state q = .runnable)) ∨
    ∃ e ∈ tr, (e.1.cpu e.2.1).givesUp q

theorem Woken.snoc {q : Slot} {tr : List (State Cpu × Cpu × Choice)} {t : State Cpu} (h : Woken q tr t)
    (a : Cpu × Choice) (t' : State Cpu) : Woken q (tr ++ [(t, a)]) t' := by
  obtain ⟨u, rfl | hu, hst⟩ | ⟨e, he, hg⟩ := h
  · exact .inl ⟨u, .inr (by simp), hst⟩
  · exact .inl ⟨u, .inr (by simp [hu]), hst⟩
  · exact .inr ⟨e, by simp [he], hg⟩

/-- `wakeup1` has not made its cas calls on `q` in vain. -/
def Wake.before (m : Mem) (q : Slot) (w : Wake) : Prop :=
  w.p < q ∨ w.p = q ∧ (w.pc = .chan ∨ w.pc = .casN ∨ w.pc = .casS ∧ m.state q = .sleeping)

theorem Wake.next_before {m : Mem} {q : Slot} {w : Wake} (h : w.p < q) :
    ∃ w', w.next = some w' ∧ w'.chan = w.chan ∧ w'.before m q := by
  have hlt : w.p.val < q.val := h
  cases hn : nextIx w.p with
  | none =>
    have hend := nextIx_eq_none.mp hn
    have := q.isLt
    omega
  | some p' =>
    have hp' := nextIx_eq_some.mp hn
    refine ⟨⟨w.chan, p', .chan⟩, by rw [Wake.next, hn]; rfl, rfl, ?_⟩
    by_cases hp : p' = q
    · exact .inr ⟨hp, .inl rfl⟩
    · refine .inl (Fin.lt_def.mpr ?_)
      have hne : p'.val ≠ q.val := fun e => hp (Fin.ext e)
      show p'.val < q.val
      omega

theorem CpuStep.wake_next {m m' : Mem} {k k' : CpuCtl} (h : CpuStep m k m' k') {w : Wake} (hw : k.wake = some w) :
    m' = (w.step m).1 ∧ k'.wake = (w.step m).2 := by
  cases h with
  | sched | schedIntr => simp [CpuCtl.wake] at hw
  | wake _ w' hw' | wakeEnd _ hw' =>
    obtain rfl := by simpa [CpuCtl.wake] using hw
    exact ⟨rfl, hw'.symm⟩
  | save q th th' hs =>
    obtain ⟨b, i⟩ := th
    cases i with
    | none => cases b <;> simp [Thread.saved, CpuCtl.wake, Pc.wake] at hs hw
    | some i => cases i <;> simp [Thread.saved, CpuCtl.wake] at hs hw
  | run q th th' m' h =>
    cases h with
    | arrive b c t hb =>
      cases b with
      | exit pc => cases pc <;> simp [CpuCtl.wake, Pc.wake, Exit.waking, Pc.interruptible, Exit.interruptible] at hw hb
      | sigsend d v pc =>
        cases pc <;> simp [CpuCtl.wake, Pc.wake, Send.waking, Pc.interruptible, Send.interruptible] at hw hb
      | _ => simp [CpuCtl.wake, Pc.wake, Pc.interruptible] at hw hb
    | handler b i =>
      cases i <;> simp [CpuCtl.wake] at hw
      subst hw
      refine ⟨rfl, ?_⟩
      rename_i w t _ _
      simp only [Intr.step, CpuCtl.wake]
      cases (w.step m).2 with
      | some w' => rfl
      | none => cases t <;> rfl
    | exits i hi => cases i <;> simp [CpuCtl.wake, Intr.exits] at hw hi
    | call | kalloc | copyuvm => simp [CpuCtl.wake, Pc.wake] at hw
    | next b =>
      cases b with
      | wakeup w =>
        obtain rfl := by simpa [CpuCtl.wake, Pc.wake] using hw
        refine ⟨rfl, ?_⟩
        simp only [Pc.next, CpuCtl.wake]
        cases (w.step m).2 <;> rfl
      | exit pc =>
        cases pc <;> simp [CpuCtl.wake, Pc.wake, Exit.waking] at hw
        · subst hw
          refine ⟨rfl, ?_⟩
          simp only [Pc.next, Exit.step, CpuCtl.wake]
          rename_i w _
          cases (w.step m).2 <;> rfl
        · subst hw
          refine ⟨rfl, ?_⟩
          simp only [Pc.next, Exit.step, CpuCtl.wake]
          rename_i w p _
          cases (w.step m).2 with
          | some w' => rfl
          | none => simp only [Exit.next]; split <;> rfl
      | sigsend d v pc =>
        cases pc <;> simp [CpuCtl.wake, Pc.wake, Send.waking] at hw
        subst hw
        refine ⟨rfl, ?_⟩
        simp only [Pc.next, Send.step, CpuCtl.wake]
        rename_i w _
        cases (w.step m).2 <;> rfl
      | _ => simp [CpuCtl.wake, Pc.wake] at hw

theorem Wake.step_before {m : Mem} {q : Slot} {w : Wake} (hb : w.before m q) (hc : m.chan q = w.chan)
    (hs : (m.state q).asleep = true) (hs' : ((w.step m).1.state q).asleep = true) :
    ∃ w', (w.step m).2 = some w' ∧ w'.chan = w.chan ∧ w'.before (w.step m).1 q := by
  obtain ⟨c, p, pc⟩ := w
  obtain hlt | ⟨rfl, hpc⟩ := hb
  · have hnext : ∀ m', ∃ w', (Wake.mk c p pc).next = some w' ∧ w'.chan = c ∧ w'.before m' q := fun m' =>
      Wake.next_before hlt
    cases pc <;> simp only [Wake.step]
    · split
      · exact ⟨_, rfl, rfl, .inl hlt⟩
      · exact hnext m
    · split <;> exact ⟨_, rfl, rfl, .inl hlt⟩
    · exact ⟨_, rfl, rfl, .inl hlt⟩
    · split
      · exact ⟨_, rfl, rfl, .inl hlt⟩
      · exact hnext m
    · exact hnext _
  · obtain rfl | rfl | ⟨rfl, hsl⟩ := hpc
    · simp only [Wake.step, hc, if_true]
      exact ⟨_, rfl, rfl, .inr ⟨rfl, .inr (.inl rfl)⟩⟩
    · by_cases hn : m.state p = .nSleeping
      · simp [Wake.step, hn, Mem.setState, ProcState.asleep] at hs'
      · have hsl : m.state p = .sleeping := by
          cases hq : m.state p <;> simp_all [ProcState.asleep]
        simp only [Wake.step, if_neg hn]
        exact ⟨_, rfl, rfl, .inr ⟨rfl, .inr (.inr ⟨rfl, hsl⟩)⟩⟩
    · simp [Wake.step, hsl, Mem.setState, ProcState.asleep] at hs'

section Sleeper

variable [DecidableEq Cpu] {s s' : State Cpu} {a : Cpu × Choice} {q : Slot} {c : Chan}

theorem Wake.before.kept {w : Wake} (hb : w.before s.mem q) (h : Xv6.step s a = some s')
    (hq' : (s'.mem.state q).asleep = true) : w.before s'.mem q := by
  obtain ⟨m', k', hk, rfl⟩ := step_inv h
  obtain hlt | ⟨hp, hpc⟩ := hb
  · exact .inl hlt
  refine .inr ⟨hp, ?_⟩
  obtain h1 | h2 | ⟨h3, hsl⟩ := hpc
  · exact .inl h1
  · exact .inr (.inl h2)
  · -- SLEEPING does not go back to nSLEEPING while the process sleeps
    refine .inr (.inr ⟨h3, ?_⟩)
    obtain hsame | hst := hk.store.state_cases q
    · exact hsame.trans hsl
    · obtain hn | ⟨hr, -⟩ := hst.asleep hq'
      · simp [hsl] at hn
      · simp [hsl] at hr

theorem Tuned.wake_before (hu : Tuned s) (hq : Asleep s q c) (hq' : Asleep s' q c) (h : Xv6.step s a = some s')
    {d : Cpu} {w : Wake} (hw : (s.cpu d).wake = some w) (hc : w.chan = c) (hb : w.before s.mem q) :
    ∃ w', (s'.cpu d).wake = some w' ∧ w'.chan = c ∧ w'.before s'.mem q := by
  have hstep := h
  obtain ⟨m', k', hk, rfl⟩ := step_inv h
  obtain rfl | hne := eq_or_ne d a.1
  · obtain ⟨rfl, hk'⟩ := hk.wake_next hw
    obtain ⟨w', hw', hc', hb'⟩ := Wake.step_before hb (hc ▸ hu.asleep hq) hq.1 hq'.1
    exact ⟨w', by simpa [hk'] using hw', hc'.trans hc, hb'⟩
  · exact ⟨w, by simpa [Function.update_of_ne hne] using hw, hc, hb.kept hstep hq'.1⟩

theorem Live.forward (hs : Safe s) (h : step s a = some s') {th : Thread} (hl : Live s q th)
    (hnot : ∀ th, s.cpu a.1 ≠ .run q th) (he : s.mem.state q ≠ .embryo) : Live s' q th := by
  obtain ⟨m', k', hk, rfl⟩ := step_inv h
  obtain ⟨d, hd⟩ | ⟨hoff, hctx⟩ := hl
  · have hne : d ≠ a.1 := fun e => hnot th (e ▸ hd)
    exact .inl ⟨d, by simpa [Function.update_of_ne hne] using hd⟩
  · have hctx' : m'.context q = th := by
      obtain hsame | hst := hk.store.context_cases q
      · exact hsame.trans hctx
      · generalize hkc : s.cpu a.1 = k at hst
        generalize m'.context q = th' at hst
        cases hst with
        | save _ th₁ => exact absurd hkc (hnot th₁)
        | fork x => exact absurd (hs.owned (.inl ⟨a.1, hkc⟩) rfl) he
    by_cases hload : ∃ th', k' = .run q th'
    · obtain ⟨th', rfl⟩ := hload
      refine .inl ⟨a.1, ?_⟩
      generalize hkc : s.cpu a.1 = k at hk
      cases hk with
      | sched pc _ _ hp =>
        obtain ⟨-, rfl, rfl⟩ := Sched.step_run hp
        simpa using hctx
      | run _ th₁ => exact absurd hkc (hnot th₁)
    · refine .inr ⟨fun d th₁ hd => ?_, hctx'⟩
      obtain rfl | hne := eq_or_ne d a.1
      · exact hload ⟨th₁, by simpa using hd⟩
      · exact hoff d th₁ (by simpa [Function.update_of_ne hne] using hd)

theorem Pc.keeps_sleepsOn {m : Mem} {b : Pc} (hc : b.sleepsOn q = some c)
    (he : b.expects false (m.state q) = true) (hs : (m.state q).asleep = true) :
    b.ownCas = none ∧ ((b.next q m).2.sleepsOn q = some c ∨ (CpuCtl.run q ⟨b, none⟩).givesUp q) := by
  have hns : m.state q = .nSleeping ∨ m.state q = .sleeping := by
    cases hq : m.state q <;> simp_all [ProcState.asleep]
  cases b with
  | sleepCas c' | sleepRet c' => obtain e | e := hns <;> simp [Pc.expects, e, ProcState.awake] at he
  | sched k =>
    refine ⟨rfl, .inl ?_⟩
    have hne : m.state q ≠ .running := by obtain e | e := hns <;> simp [e]
    simp only [Pc.next, if_neg hne]
    exact hc
  | swtch k => exact ⟨rfl, .inl hc⟩
  | wait pc =>
    cases pc with
    | chan | cas => obtain e | e := hns <;> simp [Pc.expects, Wait.expects, e, ProcState.awake] at he
    | parent p hk | zombie p =>
      refine ⟨rfl, .inl ?_⟩
      simp only [Pc.next, Wait.step]
      split
      · exact hc
      · simp only [Pc.sleepsOn, Wait.next_sleepsOn]; exact hc
    | spin p | kids hk =>
      refine ⟨rfl, .inl ?_⟩
      simp only [Pc.next, Wait.step]
      split <;> exact hc
    | clrChan k => exact ⟨rfl, .inr (.inr ⟨k, rfl⟩)⟩
    | failChan => exact ⟨rfl, .inr (.inl rfl)⟩
    | casR k | casS k | failCas | ret r => simp [Pc.sleepsOn, Wait.sleepsOn] at hc
    | _ => exact ⟨rfl, .inl hc⟩
  | _ => simp [Pc.sleepsOn] at hc

theorem Pc.sleepsOn_interruptible {b : Pc} (hc : b.sleepsOn q = some c) : b.interruptible = false := by
  cases b <;> first | rfl | simp [Pc.sleepsOn] at hc

/-- **How a sleeper stops sleeping**: a wakeup makes it nRUNNABLE or RUNNABLE, or it gives up `wait`. -/
theorem Asleep.step (hs : Safe s) (ht : Settled false s) (hok : Prompt s a) (h : step s a = some s')
    (hq : Asleep s q c) :
    Asleep s' q c ∨ (s'.mem.state q = .nRunnable ∨ s'.mem.state q = .runnable) ∨ (s.cpu a.1).givesUp q := by
  obtain ⟨hst, th, hl, hso⟩ := hq
  have hne : s.mem.state q ≠ .embryo := by rintro e; simp [e, ProcState.asleep] at hst
  by_cases hrun : ∃ th', s.cpu a.1 = .run q th'
  · obtain ⟨th', hrun⟩ := hrun
    obtain rfl := hl.unique hs (.inl ⟨a.1, hrun⟩)
    have hi : th.intr = none := by
      by_contra hi
      have := hs.gate hl hi
      rw [Pc.sleepsOn_interruptible hso] at this
      simp at this
    obtain ⟨b, i⟩ := th
    obtain rfl : i = none := hi
    obtain ⟨hcas, hkeep⟩ := Pc.keeps_sleepsOn hso (ht.run hrun) hst
    obtain ⟨m', k', hk, rfl⟩ := step_inv h
    have hstate : (m'.state q).asleep = true ∨ m'.state q = .nRunnable := by
      obtain hsame | ⟨-, hn, -⟩ | ⟨-, hp1 | ⟨th₁, e, hrun₁, hcas₁⟩⟩ :=
        hs.hand_state hok h (c := a.1) (p := q) (by rw [hrun]; rfl)
      · exact .inl (by rw [← hst]; exact congrArg ProcState.asleep hsame)
      · exact .inr hn
      · simp [hrun] at hp1
      · obtain rfl : Thread.mk b none = th₁ := by simpa [hrun] using hrun₁
        simp [Thread.ownCas, hcas] at hcas₁
    obtain hstate | hn := hstate
    · rw [hrun] at hk
      cases hk with
      | save _ _ th' hsv =>
        refine .inl ⟨hstate, th', .inr ⟨fun d th₁ hd => ?_, by simp [Mem.setContext]⟩, ?_⟩
        · obtain rfl | hda := eq_or_ne d a.1
          · simp at hd
          · replace hd : s.cpu d = .run q th₁ := by simpa [Function.update_of_ne hda] using hd
            exact hda (hs.unique (p := q) (by rw [hd]; rfl) (by rw [hrun]; rfl))
        · rw [Thread.saved_sleepsOn hsv]; exact hso
      | run _ _ th' _ hstep =>
        cases hstep with
        | arrive _ _ _ hb => simp [Pc.sleepsOn_interruptible hso] at hb
        | call | kalloc | copyuvm => simp [Pc.sleepsOn] at hso
        | next =>
          obtain hkeep | hg := hkeep
          · exact .inl ⟨hstate, ⟨(b.next q s.mem).2, none⟩, .inl ⟨a.1, by simp⟩, hkeep⟩
          · exact .inr (.inr (hrun ▸ hg))
    · exact .inr (.inl (.inl hn))
  · have hnot : ∀ th', s.cpu a.1 ≠ .run q th' := fun th' e => hrun ⟨th', e⟩
    have hl' := hl.forward hs h hnot hne
    obtain ⟨m', k', hk, rfl⟩ := step_inv h
    obtain hsame | hss := hk.store.state_cases q
    · exact .inl ⟨by rw [← hst]; exact congrArg ProcState.asleep hsame, th, hl', hso⟩
    · generalize hv : m'.state q = v at hss
      generalize hkc : s.cpu a.1 = k at hss hnot
      cases hss with
      | post2 => exact .inl ⟨by simp [hv, ProcState.asleep], th, hl', hso⟩
      | wakeN => exact .inr (.inl (.inl rfl))
      | wakeS => exact .inr (.inl (.inr rfl))
      | own _ th₁ => exact absurd rfl (hnot th₁)
      | noKstack x | noPgdir x => exact absurd (hs.owned (.inl ⟨a.1, hkc⟩) rfl) hne
      | _ => simp_all [ProcState.asleep]

end Sleeper

/-- **Sleep channels**: the channel of a process asleep on `c` is `c`, and a `wakeup1(c)` that has not yet looked at the
process does not get past it before the process is nRUNNABLE or RUNNABLE, or has left `wait` by itself. -/
theorem sleeper_is_woken [DecidableEq Cpu] {tr : List (State Cpu × Cpu × Choice)} {s : State Cpu}
    (h : Path step (fun s a => Prompt s a ∧ Tidy s a) boot tr s) {q : Slot} {c : Chan} (hq : Asleep s q c) :
    s.mem.chan q = c ∧
      ∀ d w, (s.cpu d).wake = some w → w.chan = c → w.p < q ∨ w.p = q ∧ w.pc = .chan →
        ∀ tr' t, Path step (fun s a => Prompt s a ∧ Tidy s a) s tr' t →
          Woken q tr' t ∨ ∃ w', (t.cpu d).wake = some w' ∧ w'.chan = c ∧ w'.p ≤ q := by
  have hinv := Tuned.of_path h
  refine ⟨hinv.2.2.asleep hq, fun d w hw hc hb tr' t h' => ?_⟩
  -- as long as nothing has woken the process, it sleeps and the wakeup has not come past it
  have hrun : (Safe t ∧ Settled false t ∧ Tuned t) ∧ (Woken q tr' t ∨ Asleep t q c ∧
      ∃ w', (t.cpu d).wake = some w' ∧ w'.chan = c ∧ w'.before t.mem q) := by
    refine h'.inv_trace (I := fun tr' t => (Safe t ∧ Settled false t ∧ Tuned t) ∧ (Woken q tr' t ∨ Asleep t q c ∧
      ∃ w', (t.cpu d).wake = some w' ∧ w'.chan = c ∧ w'.before t.mem q)) ⟨hinv, .inr ⟨hq, w, hw, hc, ?_⟩⟩ ?_
    · exact hb.imp id fun hb => ⟨hb.1, .inl hb.2⟩
    · rintro tr₁ u a u' ⟨⟨hs, ht, hu⟩, hu'⟩ ⟨hok, htidy⟩ hst
      refine ⟨⟨hs.step hok hst, ht.step hs ⟨hok, by simp⟩ hst, hu.step hs ht hok htidy hst⟩, ?_⟩
      obtain hwok | ⟨hsl, w₁, hw₁, hc₁, hb₁⟩ := hu'
      · exact .inl (hwok.snoc a u')
      · obtain hsl' | hwoken | hg := hsl.step hs ht hok hst
        · exact .inr ⟨hsl', hu.wake_before hsl hsl' hst hw₁ hc₁ hb₁⟩
        · exact .inl (.inl ⟨u', .inl rfl, hwoken⟩)
        · exact .inl (.inr ⟨(u, a), by simp, hg⟩)
  obtain ⟨-, hwok | ⟨-, w', hw', hc', hb'⟩⟩ := hrun
  · exact .inl hwok
  · refine .inr ⟨w', hw', hc', ?_⟩
    obtain hlt | ⟨hp, -⟩ := hb'
    · exact hlt.le
    · exact hp.le

/-- `initproc` sleeps on a buffer and a disk interrupt on CPU 1 starts to wake it. -/
theorem sleeper_is_woken_by_disk : ∃ (tr : List (State (Fin 2) × Fin 2 × Choice)) (s : State (Fin 2)),
    Path step (fun s a => Prompt s a ∧ Tidy s a) boot tr s ∧ Asleep s 0 (.addr 7) ∧ s.mem.chan 0 = .addr 7 ∧
      ∀ tr' t, Path step (fun s a => Prompt s a ∧ Tidy s a) s tr' t →
        Woken 0 tr' t ∨ ∃ w', (t.cpu 1).wake = some w' ∧ w'.chan = .addr 7 ∧ w'.p ≤ 0 := by
  obtain ⟨s, hs, h0, h1, hst, hctx⟩ := exists_path step
    (fun s a => Prompt s a ∧ (s.cpu a.1).clears = none) boot
    (go (0 : Fin 2) 3 ++ [(0, .call (.sleep (.addr 7)))] ++ go 0 6 ++ [(1, .intr (some (.addr 7)) false)])
    (fun s => s.cpu 0 = .sched (.post3 0) ∧ s.cpu 1 = .intr (Wake.start (.addr 7)) ∧ s.mem.state 0 = .sleeping ∧
      s.mem.context 0 = ⟨.sleepRet (.addr 7), none⟩) (by decide)
  have hpath : Path step (fun s a => Prompt s a ∧ Tidy s a) boot _ s :=
    hs.mono fun s a hok => ⟨hok.1, fun p hp => by simp [hok.2] at hp⟩
  have hoff : ∀ c th, s.cpu c ≠ .run 0 th := by
    intro c th
    match c with
    | 0 => simp [h0]
    | 1 => simp [h1]
  have hq : Asleep s 0 (.addr 7) := ⟨by rw [hst]; rfl, _, .inr ⟨hoff, hctx⟩, rfl⟩
  obtain ⟨hchan, hwake⟩ := sleeper_is_woken hpath hq
  exact ⟨_, s, hpath, hq, hchan, hwake 1 _ (by rw [h1]; rfl) rfl (.inr ⟨rfl, rfl⟩)⟩

/-- CPU 1 wakes `initproc` from its sleep on one buffer and is delayed before `p->chan = 0`; `initproc` runs on CPU 2 and
goes to sleep on another buffer; then the store of CPU 1 clears the new channel. -/
theorem late_store_clears_channel : ∃ (tr : List (State (Fin 3) × Fin 3 × Choice)) (s : State (Fin 3)),
    Path step free boot tr s ∧ Asleep s 0 (.addr 8) ∧ s.mem.chan 0 ≠ .addr 8 := by
  obtain ⟨s, hs, h2, hst, hchan⟩ := exists_path step free boot
    (go (0 : Fin 3) 3 ++ [(0, .call (.sleep (.addr 7)))] ++ go 0 6 ++ [(1, .intr (some (.addr 7)) false)] ++ go 1 3 ++
      go 2 4 ++ [(2, .call (.sleep (.addr 8)))] ++ go 2 2 ++ go 1 1)
    (fun s => s.cpu 2 = .run 0 ⟨.sched (.sleep (.addr 8)), none⟩ ∧ s.mem.state 0 = .nSleeping ∧
      s.mem.chan 0 ≠ .addr 8) (by decide)
  exact ⟨_, s, hs, ⟨by rw [hst]; rfl, _, .inl ⟨2, h2⟩, rfl⟩, hchan⟩

end Xv6
