import Xv6.Proc.Effect

/-!
# Mutual exclusion of execution

A CPU has a process in hand from the cas that picks it to the first cas after the switch back (`CpuCtl.hand`). A process
is to be in the hand of one CPU at a time.

- no process is in two hands, and a process in hand is in one of the four states of a running process;
- a slot that `allocproc` has claimed is EMBRYO and belongs to one thread until it is published or given back;
- handlers run on top of control points with interrupts enabled only, and contexts are where `swtch` saved them.
-/

namespace Xv6

open Lib
open Function (update_of_ne update_self)

/-! ## Hands, threads and owners -/

/-- The process that a CPU has in hand. -/
def CpuCtl.hand : CpuCtl → Option Slot
  | .sched (.load p) | .sched (.post1 p) | .run p _ => some p
  | _ => none

/-- The CPU has switched into the process and has not come back. -/
def CpuCtl.executing : CpuCtl → Option Slot
  | .sched (.load p) | .run p _ => some p
  | _ => none

/-- The states of a process that a CPU has in hand. -/
def ProcState.busy : ProcState → Bool
  | .running | .nSleeping | .nRunnable | .nZombie => true
  | _ => false

/-- The slot that `fork` has claimed and not yet published. -/
def Fork.owns : Fork → Option Slot
  | .loadPid p | .casPid p _ | .setPid p _ | .kalloc p | .setKstack p _ | .noKstack p | .clrUsed p _ | .clrHead p
  | .clrHandling p | .context p | .copyuvm p | .setPgdir p _ | .freeKstack p | .clrKstack p | .noPgdir p | .parent p
  | .loadHandler p | .setHandler p _ | .pid p | .cas p _ => some p
  | .scan _ | .ret _ => none

def Pc.owns : Pc → Option Slot
  | .fork pc => pc.owns
  | _ => none

variable {Cpu : Type*}

/-- `th` is the thread of the process `q`: it runs on a CPU, or it is what `swtch` will resume. -/
def Live (s : State Cpu) (q : Slot) (th : Thread) : Prop :=
  (∃ c, s.cpu c = .run q th) ∨ ((∀ c th', s.cpu c ≠ .run q th') ∧ s.mem.context q = th)

/-- What a saved context can be: `swtch` leaves a process in `sched`, and `fork` makes one. -/
def Thread.Resumable (th : Thread) : Prop :=
  th.intr = some .yieldRet ∨ th.intr = none ∧ (th.base = .idle ∨ ∃ k : SchedK, th.base = k.resume)

/-- No process is in two hands, every claimed slot is EMBRYO and has one owner, and interrupts respect `cli`. -/
structure Safe (s : State Cpu) : Prop where
  unique : ∀ {c c' p}, (s.cpu c).hand = some p → (s.cpu c').hand = some p → c = c'
  busy : ∀ {c p}, (s.cpu c).hand = some p → (s.mem.state p).busy = true
  owned : ∀ {q th p}, Live s q th → th.base.owns = some p → s.mem.state p = .embryo
  owner : ∀ {q q' th th' p}, Live s q th → Live s q' th' → th.base.owns = some p → th'.base.owns = some p → q = q'
  gate : ∀ {q th}, Live s q th → th.intr ≠ none → th.base.interruptible = true
  context : ∀ q, (s.mem.context q).Resumable

/-- The scheduler's second and third cas on a process do not succeed while a CPU has the process in hand. -/
def Prompt (s : State Cpu) (a : Cpu × Choice) : Prop :=
  ∀ p, (s.cpu a.1 = .sched (.post2 p) ∧ s.mem.state p = .nSleeping ∨
    s.cpu a.1 = .sched (.post3 p) ∧ s.mem.state p = .nZombie) → ∀ c, (s.cpu c).hand ≠ some p

/-! ## How hands and threads change -/

theorem CpuStep.hand {m m' : Mem} {k k' : CpuCtl} (h : CpuStep m k m' k') {p : Slot} (hp : k'.hand = some p) :
    k.hand = some p ∧ k ≠ .sched (.post1 p) ∨
      k = .sched (.pick p) ∧ m.state p = .runnable ∧ m' = m.setState p .running := by
  cases h with
  | sched pc m' k' h =>
    cases pc with
    | pick r =>
      simp only [Sched.step] at h
      split at h <;> obtain ⟨rfl, rfl⟩ := by simpa using h
      · obtain rfl : r = p := by simpa [CpuCtl.hand] using hp
        exact .inr ⟨rfl, ‹_›, rfl⟩
      · simp only [Sched.next] at hp
        split at hp <;> simp [CpuCtl.hand] at hp
    | load r =>
      obtain ⟨rfl, rfl⟩ := by simpa [Sched.step] using h
      exact .inl ⟨hp, by simp⟩
    | clrChan r =>
      obtain ⟨rfl, rfl⟩ := by simpa [Sched.step] using h
      simp only [Sched.next] at hp
      split at hp <;> simp [CpuCtl.hand] at hp
    | check r z =>
      simp only [Sched.step] at h
      split at h <;> obtain ⟨rfl, rfl⟩ := by simpa using h
      · simp [CpuCtl.hand] at hp
      · simp only [Sched.next] at hp
        split at hp <;> simp [CpuCtl.hand] at hp
    | freeCheck r | freeKstack r | freePgdir r =>
      simp only [Sched.step] at h
      split at h <;> obtain ⟨rfl, rfl⟩ := by simpa using h
      all_goals simp [CpuCtl.hand] at hp
    | start | post1 r | post2 r | post3 r | clrKstack r | clrKilled r | panic =>
      simp only [Sched.step, Option.some.injEq, Prod.mk.injEq, reduceCtorEq] at h
      try obtain ⟨rfl, rfl⟩ := h
      try simp [CpuCtl.hand] at hp
  | schedIntr c => simp [CpuCtl.hand] at hp
  | wake w | wakeEnd w => simp [CpuCtl.hand] at hp
  | save q th th' hs => exact .inl ⟨hp, by simp⟩
  | run q th th' m' h => exact .inl ⟨hp, by simp⟩

theorem Live.unique {s : State Cpu} (hs : Safe s) {q : Slot} {th th' : Thread} (h : Live s q th)
    (h' : Live s q th') : th = th' := by
  obtain ⟨c, hc⟩ | ⟨hoff, hctx⟩ := h <;> obtain ⟨c', hc'⟩ | ⟨hoff', hctx'⟩ := h'
  · obtain rfl : c = c' := hs.unique (p := q) (by simp [hc, CpuCtl.hand]) (by simp [hc', CpuCtl.hand])
    simpa using hc.symm.trans hc'
  · exact absurd hc (hoff' c th)
  · exact absurd hc' (hoff c' th')
  · exact hctx.symm.trans hctx'

theorem Sched.step_run {pc : Sched} {m m' : Mem} {q : Slot} {th : Thread} (h : pc.step m = some (m', .run q th)) :
    pc = .load q ∧ th = m.context q ∧ m' = m := by
  cases pc with
  | load r =>
    simp only [Sched.step, Option.some.injEq, Prod.mk.injEq, CpuCtl.run.injEq] at h
    obtain ⟨rfl, rfl, rfl⟩ := h
    exact ⟨rfl, rfl, rfl⟩
  | _ =>
    simp only [Sched.step] at h
    repeat' split at h
    all_goals simp at h

section Step

variable [DecidableEq Cpu] {s s' : State Cpu} {a : Cpu × Choice}

/-- **How the thread of a process changes**: it stays and the step is not one of its own, or it takes the step, or
`fork` makes it. -/
theorem live_step (hs : Safe s) (h : step s a = some s') {q : Slot} {th' : Thread} (hl : Live s' q th') :
    (Live s q th' ∧ ∀ th, s.cpu a.1 ≠ .run q th) ∨
    (∃ th, s.cpu a.1 = .run q th ∧ (ThreadStep q s.mem th s'.mem th' ∨
      th.saved = some th' ∧ s'.mem = s.mem.setContext q th')) ∨
    (∃ x, s.cpu a.1 = .run x ⟨.fork (.context q), none⟩ ∧ th' = forkret) := by
  obtain ⟨m', k', hk, rfl⟩ := step_inv h
  generalize hkc : s.cpu a.1 = k at hk ⊢
  obtain ⟨c, hc⟩ | ⟨hoff, hctx⟩ := hl
  · obtain rfl | hne := eq_or_ne c a.1
    · obtain rfl : k' = .run q th' := by simpa using hc
      cases hk with
      | sched pc _ _ hp =>
        obtain ⟨rfl, rfl, rfl⟩ := Sched.step_run hp
        refine .inl ⟨.inr ⟨fun c th hc => ?_, rfl⟩, by simp⟩
        obtain rfl : c = a.1 := hs.unique (p := q) (by simp [hc, CpuCtl.hand]) (by simp [hkc, CpuCtl.hand])
        simp [hkc] at hc
      | run _ th _ _ ht => exact .inr (.inl ⟨th, rfl, .inl ht⟩)
    · replace hc : s.cpu c = .run q th' := by simpa [update_of_ne hne] using hc
      refine .inl ⟨.inl ⟨c, hc⟩, fun th ha => hne ?_⟩
      exact hs.unique (p := q) (by simp [hc, CpuCtl.hand]) (by simp [hkc, ha, CpuCtl.hand])
  · by_cases hrun : ∃ th, k = .run q th
    · obtain ⟨th, rfl⟩ := hrun
      have hself := hoff a.1
      simp only [update_self] at hself
      cases hk with
      | save _ _ th'' hsv =>
        obtain rfl : th'' = th' := by simpa [Mem.setContext] using hctx
        exact .inr (.inl ⟨th, rfl, .inr ⟨hsv, rfl⟩⟩)
      | run _ _ th'' => exact absurd rfl (hself th'')
    · have hnot : ∀ th, k ≠ .run q th := fun th e => hrun ⟨th, e⟩
      obtain hsame | hctx' := hk.store.context_cases q
      · refine .inl ⟨.inr ⟨fun c th hc => ?_, hsame ▸ hctx⟩, hnot⟩
        obtain rfl | hne := eq_or_ne c a.1
        · exact hnot th (hkc ▸ hc)
        · exact hoff c th (by simpa [update_of_ne hne] using hc)
      · simp only at hctx
        rw [hctx] at hctx'
        cases hctx' with
        | save _ th _ _ => exact absurd rfl (hnot th)
        | fork x _ => exact .inr (.inr ⟨x, rfl, rfl⟩)

end Step

/-! ## What the state of a process in hand can become -/

theorem Pc.ownCas_cases {b : Pc} {e n : ProcState} (h : b.ownCas = some (e, n)) :
    e = .running ∧ (n = .nSleeping ∨ n = .nZombie) ∨
      (e = .nRunnable ∨ e = .nSleeping ∨ e = .sleeping) ∧ n = .running := by
  cases b with
  | wait pc | sigpause pc | exit pc | kill _ pc =>
    cases pc <;> simp only [Pc.ownCas, Wait.ownCas, Pause.ownCas, Exit.ownCas, Kill.ownCas, Option.some.injEq,
      Prod.mk.injEq, reduceCtorEq] at h
    all_goals obtain ⟨rfl, rfl⟩ := h; simp
  | sleepCas c =>
    simp only [Pc.ownCas, Option.some.injEq, Prod.mk.injEq] at h
    obtain ⟨rfl, rfl⟩ := h
    simp
  | _ => simp [Pc.ownCas] at h

theorem Thread.ownCas_cases {th : Thread} {e n : ProcState} (h : th.ownCas = some (e, n)) :
    e = .running ∧ (n = .nSleeping ∨ n = .nZombie ∨ n = .nRunnable) ∨
      (e = .nRunnable ∨ e = .nSleeping ∨ e = .sleeping) ∧ n = .running := by
  unfold Thread.ownCas at h
  split at h
  · obtain ⟨he, hn | hn⟩ | h' := Pc.ownCas_cases h
    · exact .inl ⟨he, .inl hn⟩
    · exact .inl ⟨he, .inr (.inl hn)⟩
    · exact .inr h'
  · simp only [Option.some.injEq, Prod.mk.injEq] at h
    exact .inl ⟨h.1.symm, .inr (.inr h.2.symm)⟩
  · simp at h

theorem Thread.ownCas_busy {th : Thread} {e n : ProcState} (h : th.ownCas = some (e, n)) :
    n.busy = true ∧ e ≠ .embryo := by
  obtain ⟨rfl, rfl | rfl | rfl⟩ | ⟨rfl | rfl | rfl, rfl⟩ := Thread.ownCas_cases h <;> simp [ProcState.busy]

/-- The last control points of `fork` on a slot that it has claimed. -/
def Fork.releases (p : Slot) (pc : Fork) : Prop := (∃ k, pc = .cas p k) ∨ pc = .noKstack p ∨ pc = .noPgdir p

theorem Fork.releases.owns {p : Slot} {pc : Fork} (h : pc.releases p) : pc.owns = some p := by
  obtain ⟨k, rfl⟩ | rfl | rfl := h <;> rfl

theorem StateStep.of_embryo {m : Mem} {k : CpuCtl} {p : Slot} {v : ProcState} (h : StateStep m k p v)
    (hp : m.state p = .embryo) : ∃ q pc, k = .run q ⟨.fork pc, none⟩ ∧ pc.releases p ∧ v ≠ .embryo := by
  cases h with
  | publish q _ pid => exact ⟨q, _, rfl, .inl ⟨pid, rfl⟩, by simp⟩
  | noKstack q => exact ⟨q, _, rfl, .inr (.inl rfl), by simp⟩
  | noPgdir q => exact ⟨q, _, rfl, .inr (.inr rfl), by simp⟩
  | own _ _ _ _ hc he => exact absurd (he.symm.trans hp) (Thread.ownCas_busy hc).2
  | _ => simp_all

theorem StateStep.of_busy {m : Mem} {k : CpuCtl} {p : Slot} {v : ProcState} (h : StateStep m k p v)
    (hp : (m.state p).busy = true) :
    (∃ th e, k = .run p th ∧ th.ownCas = some (e, v)) ∨
      (m.state p = .nSleeping ∧ v = .nRunnable ∧ ∃ w, k.wake = some w ∧ w.pc = .casN ∧ w.p = p) ∨
      k = .sched (.post1 p) ∨
      (k = .sched (.post2 p) ∧ m.state p = .nSleeping ∨ k = .sched (.post3 p) ∧ m.state p = .nZombie) ∨
      ∃ q pc, k = .run q ⟨.fork pc, none⟩ ∧ pc.releases p := by
  cases h with
  | own _ th e _ hc _ => exact .inl ⟨th, e, rfl, hc⟩
  | wakeN k w hw hpc hst => exact .inr (.inl ⟨hst, rfl, w, hw, hpc, rfl⟩)
  | post1 => exact .inr (.inr (.inl rfl))
  | post2 _ h => exact .inr (.inr (.inr (.inl (.inl ⟨rfl, h⟩))))
  | post3 _ h => exact .inr (.inr (.inr (.inl (.inr ⟨rfl, h⟩))))
  | noKstack q => exact .inr (.inr (.inr (.inr ⟨q, _, rfl, .inr (.inl rfl)⟩)))
  | noPgdir q => exact .inr (.inr (.inr (.inr ⟨q, _, rfl, .inr (.inr rfl)⟩)))
  | _ => simp_all [ProcState.busy]

/-! ## How claimed slots change hands -/

theorem Fork.step_owns {q : Slot} {m : Mem} {pc : Fork} {p : Slot} (h : (pc.step q m).2.owns = some p) :
    pc.owns = some p ∨ pc = .scan p ∧ m.state p = .unused ∧ (pc.step q m).1 = m.setState p .embryo := by
  cases pc with
  | scan r =>
    simp only [Fork.step] at h ⊢
    split at h
    · rename_i hu
      obtain rfl : r = p := by simpa [Pc.owns, Fork.owns] using h
      simp [hu]
    · split at h <;> simp [Pc.owns, Fork.owns] at h
  | casPid r k => simp only [Fork.step] at h; split at h <;> exact .inl h
  | setKstack r k => simp only [Fork.step] at h; split at h <;> exact .inl h
  | setPgdir r k => simp only [Fork.step] at h; split at h <;> exact .inl h
  | clrUsed r i => simp only [Fork.step] at h; split at h <;> exact .inl h
  | freeKstack r => simp only [Fork.step] at h; split at h <;> first | exact .inl h | simp [Pc.owns] at h
  | cas r k => simp only [Fork.step] at h; split at h <;> simp [Pc.owns, Fork.owns] at h
  | noKstack r | noPgdir r | ret r => simp [Fork.step, Pc.owns, Fork.owns] at h
  | _ => exact .inl h

theorem Pc.fn_of_owns {b : Pc} {p : Slot} (h : b.owns = some p) : b.fn = .fork := by
  cases b <;> simp [Pc.owns] at h
  rfl

theorem Pc.next_owns {q : Slot} {m : Mem} {b : Pc} {p : Slot} (h : (b.next q m).2.owns = some p) :
    b.owns = some p ∨ b = .fork (.scan p) ∧ m.state p = .unused ∧ (b.next q m).1 = m.setState p .embryo := by
  have hf := Pc.next_fn q m b
  rw [Pc.fn_of_owns h] at hf
  cases b <;> simp [Pc.fn, Fn.outside] at hf
  obtain h | ⟨rfl, h⟩ := Fork.step_owns h
  · exact .inl h
  · exact .inr ⟨rfl, h⟩

theorem ThreadStep.owns {q p : Slot} {m m' : Mem} {th th' : Thread} (h : ThreadStep q m th m' th')
    (hp : th'.base.owns = some p) :
    th.base.owns = some p ∨ m.state p = .unused ∧ m' = m.setState p .embryo := by
  cases h with
  | arrive | handler => exact .inl hp
  | exits => simp [Pc.owns] at hp
  | call f => cases f <;> simp [Call.start, Pc.owns, Fork.owns] at hp
  | kalloc | copyuvm => exact .inl hp
  | next b =>
    obtain h | ⟨-, h⟩ := Pc.next_owns hp
    · exact .inl h
    · exact .inr h

theorem Thread.saved_owns {th th' : Thread} (h : th.saved = some th') {p : Slot} (hp : th'.base.owns = some p) :
    th.base.owns = some p := by
  obtain ⟨k, rfl, rfl⟩ | ⟨b, rfl, rfl⟩ := Thread.saved_cases h
  · cases k <;> simp [SchedK.resume, Pc.owns] at hp
  · exact hp

theorem ThreadStep.embryo {q p : Slot} {m m' : Mem} {th th' : Thread} (h : ThreadStep q m th m' th')
    (hp : th'.base.owns = some p) (he : m.state p = .embryo) : m'.state p = .embryo := by
  obtain hsame | hst := (Store.thread h).state_cases p
  · rw [hsame, he]
  · obtain ⟨x, pc, hx, hr, hv⟩ := hst.of_embryo he
    simp only [CpuCtl.run.injEq] at hx
    obtain ⟨rfl, rfl⟩ := hx
    cases h with
    | arrive => exact absurd he hv
    | kalloc | copyuvm => obtain ⟨k, e⟩ | e | e := hr <;> simp at e
    | next =>
      obtain ⟨k, rfl⟩ | rfl | rfl := hr
      · simp only [Pc.next, Fork.step, he, if_true] at hp
        simp [Pc.owns, Fork.owns] at hp
      all_goals simp [Pc.next, Fork.step, Pc.owns, Fork.owns] at hp

/-! ## The invariant -/

section Safe

variable [DecidableEq Cpu] {s s' : State Cpu} {a : Cpu × Choice}

theorem Safe.step_unique (hs : Safe s) (h : step s a = some s') {c c' : Cpu} {p : Slot}
    (hc : (s'.cpu c).hand = some p) (hc' : (s'.cpu c').hand = some p) : c = c' := by
  obtain ⟨m', k', hk, rfl⟩ := step_inv h
  -- a CPU whose hand is new has just picked a RUNNABLE process, which was in no hand
  have key : ∀ d, d ≠ a.1 → (s.cpu d).hand = some p → k'.hand = some p → d = a.1 := by
    intro d hd hdp hkp
    obtain ⟨hold, -⟩ | ⟨-, hrun, -⟩ := hk.hand hkp
    · exact hs.unique hdp hold
    · simpa [hrun, ProcState.busy] using hs.busy hdp
  obtain rfl | hne := eq_or_ne c a.1 <;> obtain rfl | hne' := eq_or_ne c' a.1
  · rfl
  · simp only [update_self, update_of_ne hne'] at hc hc'
    exact (key c' hne' hc' hc).symm
  · simp only [update_self, update_of_ne hne] at hc hc'
    exact key c hne hc hc'
  · simp only [update_of_ne hne, update_of_ne hne'] at hc hc'
    exact hs.unique hc hc'

/-- **What the state of a process in hand can become**: a wakeup may hit it while it goes to sleep; anything else is
done by the CPU that has it in hand. -/
theorem Safe.hand_state (hs : Safe s) (hok : Prompt s a) (h : step s a = some s') {c : Cpu} {p : Slot}
    (hc : (s.cpu c).hand = some p) :
    s'.mem.state p = s.mem.state p ∨
      (s.mem.state p = .nSleeping ∧ s'.mem.state p = .nRunnable ∧
        ∃ w, (s.cpu a.1).wake = some w ∧ w.pc = .casN ∧ w.p = p) ∨
      c = a.1 ∧ (s.cpu c = .sched (.post1 p) ∨
        ∃ th e, s.cpu c = .run p th ∧ th.ownCas = some (e, s'.mem.state p)) := by
  obtain ⟨m', k', hk, rfl⟩ := step_inv h
  have hb := hs.busy hc
  obtain hsame | hst := hk.store.state_cases p
  · exact .inl hsame
  obtain ⟨th, e, hrun, hcas⟩ | hwake | hp1 | hlate | ⟨q, pc, hq, hr⟩ := hst.of_busy hb
  · obtain rfl : c = a.1 := hs.unique hc (by rw [hrun]; rfl)
    exact .inr (.inr ⟨rfl, .inr ⟨th, e, hrun, hcas⟩⟩)
  · exact .inr (.inl hwake)
  · obtain rfl : c = a.1 := hs.unique hc (by rw [hp1]; rfl)
    exact .inr (.inr ⟨rfl, .inl hp1⟩)
  · exact absurd hc (hok p hlate c)
  · have := hs.owned (.inl ⟨a.1, hq⟩) hr.owns
    simp [this, ProcState.busy] at hb

theorem Safe.step_busy (hs : Safe s) (hok : Prompt s a) (h : step s a = some s') {c : Cpu} {p : Slot}
    (hc : (s'.cpu c).hand = some p) : (s'.mem.state p).busy = true := by
  obtain ⟨m', k', hk, rfl⟩ := step_inv h
  have hnew : (s.cpu c).hand = some p ∧ (c = a.1 → s.cpu a.1 ≠ .sched (.post1 p)) ∨
      m' = s.mem.setState p .running := by
    obtain rfl | hne := eq_or_ne c a.1
    · simp only [update_self] at hc
      obtain ⟨h1, h2⟩ | ⟨-, -, h3⟩ := hk.hand hc
      · exact .inl ⟨h1, fun _ => h2⟩
      · exact .inr h3
    · exact .inl ⟨by simpa [update_of_ne hne] using hc, fun e => absurd e hne⟩
  obtain ⟨hold, hpost⟩ | rfl := hnew
  · obtain hsame | ⟨-, hv, -⟩ | ⟨rfl, hp1 | ⟨th, e, -, hcas⟩⟩ := hs.hand_state hok h hold
    · exact hsame ▸ hs.busy hold
    · rw [hv]; rfl
    · exact absurd hp1 (hpost rfl)
    · exact (Thread.ownCas_busy hcas).1
  · simp [Mem.setState, ProcState.busy]

theorem Safe.step_owned (hs : Safe s) (h : step s a = some s') {q p : Slot} {th : Thread} (hl : Live s' q th)
    (hp : th.base.owns = some p) : s'.mem.state p = .embryo := by
  obtain ⟨hl', hnot⟩ | ⟨th₀, hrun, ht | ⟨hsv, hm⟩⟩ | ⟨x, -, rfl⟩ := live_step hs h hl
  · have he := hs.owned hl' hp
    obtain ⟨m', k', hk, rfl⟩ := step_inv h
    obtain hsame | hst := hk.store.state_cases p
    · exact hsame.trans he
    · obtain ⟨x, pc, hx, hr, -⟩ := hst.of_embryo he
      obtain rfl := hs.owner hl' (.inl ⟨a.1, hx⟩) hp hr.owns
      exact absurd hx (hnot _)
  · obtain ho | ⟨-, hm⟩ := ht.owns hp
    · exact ht.embryo hp (hs.owned (.inl ⟨a.1, hrun⟩) ho)
    · simp [hm, Mem.setState]
  · rw [hm]
    exact hs.owned (.inl ⟨a.1, hrun⟩) (Thread.saved_owns hsv hp)
  · simp [forkret, Pc.owns] at hp

theorem Safe.owner_cases (hs : Safe s) (h : step s a = some s') {q p : Slot} {th : Thread} (hl : Live s' q th)
    (hp : th.base.owns = some p) :
    (∃ th₀, Live s q th₀ ∧ th₀.base.owns = some p) ∨ (∃ th₀, s.cpu a.1 = .run q th₀) ∧ s.mem.state p = .unused := by
  obtain ⟨hl', -⟩ | ⟨th₀, hrun, ht | ⟨hsv, -⟩⟩ | ⟨x, -, rfl⟩ := live_step hs h hl
  · exact .inl ⟨th, hl', hp⟩
  · obtain ho | ⟨hu, -⟩ := ht.owns hp
    · exact .inl ⟨th₀, .inl ⟨a.1, hrun⟩, ho⟩
    · exact .inr ⟨⟨th₀, hrun⟩, hu⟩
  · exact .inl ⟨th₀, .inl ⟨a.1, hrun⟩, Thread.saved_owns hsv hp⟩
  · simp [forkret, Pc.owns] at hp

theorem Safe.step_owner (hs : Safe s) (h : step s a = some s') {q q' p : Slot} {th th' : Thread}
    (hl : Live s' q th) (hl' : Live s' q' th') (hp : th.base.owns = some p) (hp' : th'.base.owns = some p) :
    q = q' := by
  obtain ⟨t₁, h₁, o₁⟩ | ⟨⟨t₁, h₁⟩, u₁⟩ := hs.owner_cases h hl hp <;>
    obtain ⟨t₂, h₂, o₂⟩ | ⟨⟨t₂, h₂⟩, u₂⟩ := hs.owner_cases h hl' hp'
  · exact hs.owner h₁ h₂ o₁ o₂
  · simp [hs.owned h₁ o₁] at u₂
  · simp [hs.owned h₂ o₂] at u₁
  · simp only [h₁, CpuCtl.run.injEq] at h₂
    exact h₂.1

theorem ThreadStep.gate {q : Slot} {m m' : Mem} {th th' : Thread} (h : ThreadStep q m th m' th')
    (hg : th.intr ≠ none → th.base.interruptible = true) (hi : th'.intr ≠ none) : th'.base.interruptible = true := by
  cases h with
  | arrive _ _ _ hb => exact hb
  | handler => exact hg (by simp)
  | _ => exact absurd rfl hi

theorem Thread.saved_gate {th th' : Thread} (h : th.saved = some th')
    (hg : th.intr ≠ none → th.base.interruptible = true) (hi : th'.intr ≠ none) : th'.base.interruptible = true := by
  obtain ⟨k, rfl, rfl⟩ | ⟨b, rfl, rfl⟩ := Thread.saved_cases h
  · exact absurd rfl hi
  · exact hg (by simp)

theorem Safe.step_gate (hs : Safe s) (h : step s a = some s') {q : Slot} {th : Thread} (hl : Live s' q th)
    (hi : th.intr ≠ none) : th.base.interruptible = true := by
  obtain ⟨hl', -⟩ | ⟨th₀, hrun, ht | ⟨hsv, -⟩⟩ | ⟨x, -, rfl⟩ := live_step hs h hl
  · exact hs.gate hl' hi
  · exact ht.gate (hs.gate (.inl ⟨a.1, hrun⟩)) hi
  · exact Thread.saved_gate hsv (hs.gate (.inl ⟨a.1, hrun⟩)) hi
  · rfl

theorem Thread.saved_resumable {th th' : Thread} (h : th.saved = some th') : th'.Resumable := by
  obtain ⟨k, -, rfl⟩ | ⟨b, -, rfl⟩ := Thread.saved_cases h
  · exact .inr ⟨rfl, .inr ⟨k, rfl⟩⟩
  · exact .inl rfl

theorem Safe.step_context (hs : Safe s) (h : step s a = some s') (q : Slot) : (s'.mem.context q).Resumable := by
  obtain ⟨m', k', hk, rfl⟩ := step_inv h
  obtain hsame | hctx := hk.store.context_cases q
  · simpa [hsame] using hs.context q
  · simp only
    generalize s.cpu a.1 = k at hctx
    generalize m'.context q = th' at hctx
    cases hctx with
    | save _ th _ hsv => exact Thread.saved_resumable hsv
    | fork => exact .inr ⟨rfl, .inl rfl⟩

theorem Safe.step (hs : Safe s) (hok : Prompt s a) (h : step s a = some s') : Safe s' where
  unique := hs.step_unique h
  busy := hs.step_busy hok h
  owned := hs.step_owned h
  owner := hs.step_owner h
  gate := hs.step_gate h
  context := hs.step_context h

omit [DecidableEq Cpu] in
theorem Live.boot {q : Slot} {th : Thread} (h : Live (boot : State Cpu) q th) : th = forkret := by
  obtain ⟨c, hc⟩ | ⟨-, rfl⟩ := h
  · simp [Xv6.boot] at hc
  · rfl

omit [DecidableEq Cpu] in
theorem Safe.boot : Safe (boot : State Cpu) where
  unique hc := by simp [Xv6.boot, CpuCtl.hand] at hc
  busy hc := by simp [Xv6.boot, CpuCtl.hand] at hc
  owned hl hp := by simp [hl.boot, forkret, Pc.owns] at hp
  owner hl _ hp := by simp [hl.boot, forkret, Pc.owns] at hp
  gate hl _ := by rw [hl.boot]; rfl
  context _ := .inr ⟨rfl, .inl rfl⟩

theorem Safe.of_path {tr : List (State Cpu × Cpu × Choice)} (h : Path Xv6.step Prompt Xv6.boot tr s) : Safe s :=
  h.inv .boot fun _ _ _ hi hok hst => hi.step hok hst

end Safe

/-! ## Mutual exclusion -/

theorem CpuCtl.hand_of_executing {k : CpuCtl} {p : Slot} (h : k.executing = some p) : k.hand = some p := by
  cases k with
  | sched pc => cases pc <;> simp_all [CpuCtl.executing, CpuCtl.hand]
  | intr w => simp [CpuCtl.executing] at h
  | run q th => simpa [CpuCtl.executing, CpuCtl.hand] using h

/-- **A process is executed by one CPU at a time**, and while it is, no other CPU's cas can pick it. -/
theorem executed_by_one_cpu [DecidableEq Cpu] {tr : List (State Cpu × Cpu × Choice)} {s : State Cpu}
    (h : Path step Prompt boot tr s) {c : Cpu} {p : Slot} (hc : (s.cpu c).executing = some p) :
    (∀ c', (s.cpu c').executing = some p → c' = c) ∧ s.mem.state p ≠ .runnable := by
  have hs := Safe.of_path h
  have hb := hs.busy (CpuCtl.hand_of_executing hc)
  refine ⟨fun c' hc' => hs.unique (CpuCtl.hand_of_executing hc') (CpuCtl.hand_of_executing hc), fun hr => ?_⟩
  simp [hr, ProcState.busy] at hb

/-- The run of the defect. CPU 0 runs `initproc` until the clock interrupt, and its first cas after the switch makes it
RUNNABLE again; CPU 1 picks it and it goes to sleep; CPU 0's second cas makes it SLEEPING while CPU 1 still runs it; a
disk interrupt on CPU 2 wakes it, and CPU 3 picks it. -/
def staleCas : List (Fin 4 × Choice) :=
  go 0 3 ++ [(0, .intr none true)] ++ go 0 5 ++ go 1 6 ++ [(1, .call (.sleep (.addr 7)))] ++ go 1 2 ++ go 0 1 ++
    [(2, .intr (some (.addr 7)) false)] ++ go 2 3 ++ go 3 2

/-- The process on which the scheduler's second or third cas is about to succeed. -/
def CpuCtl.late (m : Mem) : CpuCtl → Option Slot
  | .sched (.post2 p) => if m.state p = .nSleeping then some p else none
  | .sched (.post3 p) => if m.state p = .nZombie then some p else none
  | _ => none

theorem CpuCtl.late_eq {m : Mem} {k : CpuCtl} {p : Slot} : k.late m = some p ↔
    k = .sched (.post2 p) ∧ m.state p = .nSleeping ∨ k = .sched (.post3 p) ∧ m.state p = .nZombie := by
  cases k with
  | sched pc => cases pc <;> simp [CpuCtl.late] <;> grind
  | _ => simp [CpuCtl.late]

instance [Fintype Cpu] (s : State Cpu) (a : Cpu × Choice) : Decidable (Prompt s a) :=
  have := Option.decidableForallMem (p := fun p => ∀ c, (s.cpu c).hand ≠ some p) ((s.cpu a.1).late s.mem)
  decidable_of_iff _ (forall_congr' fun _ => imp_congr_left CpuCtl.late_eq)

theorem two_cpus_run_one_process : ∃ (tr : List (State (Fin 4) × Fin 4 × Choice)) (s : State (Fin 4)),
    Path step free boot tr s ∧ (s.cpu 1).executing = some 0 ∧ (s.cpu 3).executing = some 0 := by
  obtain ⟨s, hs, h1, h3⟩ := exists_path step free boot staleCas
    (fun s => (s.cpu 1).executing = some 0 ∧ (s.cpu 3).executing = some 0) (by decide)
  exact ⟨_, s, hs, h1, h3⟩

/-- The clock takes `initproc` from CPU 0 and CPU 1 picks it, all within the guard. -/
theorem executed_by_one_cpu_after_yield : ∃ (tr : List (State (Fin 2) × Fin 2 × Choice)) (s : State (Fin 2)),
    Path step Prompt boot tr s ∧ (s.cpu 1).executing = some 0 ∧
      (∀ c', (s.cpu c').executing = some 0 → c' = 1) ∧ s.mem.state 0 ≠ .runnable := by
  obtain ⟨s, hs, h1⟩ := exists_path step Prompt boot
    (go (0 : Fin 2) 3 ++ [(0, .intr none true)] ++ go 0 8 ++ go 1 3)
    (fun s => (s.cpu 1).executing = some 0) (by decide)
  exact ⟨_, s, hs, h1, executed_by_one_cpu hs h1⟩

end Xv6
