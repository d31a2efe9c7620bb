import Xv6.Proc.Mutex

/-!
# No process is stranded in a transitional state

A process in nSLEEPING, nRUNNABLE or nZOMBIE needs a CPU that will take it out of that state: one that has it in hand,
or one whose scheduler still has the right cas call to make (`Attended`). `wakeup1` can miss: when it changes nSLEEPING
to nRUNNABLE after the scheduler's first cas, nobody makes the process RUNNABLE any more.
-/

namespace Xv6

open Lib

variable {Cpu : Type*}

/-- The process on which the scheduler has still to make one of its three cas calls after the switch. -/
def CpuCtl.settling : CpuCtl → Option Slot
  | .sched (.post1 p) | .sched (.post2 p) | .sched (.post3 p) => some p
  | _ => none

/-- Every process in a transitional state has a CPU that takes it further. -/
structure Attended (s : State Cpu) : Prop where
  nSleeping : ∀ {p}, s.mem.state p = .nSleeping → ∃ c, (s.cpu c).hand = some p ∨ s.cpu c = .sched (.post2 p)
  nRunnable : ∀ {p}, s.mem.state p = .nRunnable → ∃ c, (s.cpu c).hand = some p
  nZombie : ∀ {p}, s.mem.state p = .nZombie →
    ∃ c, (s.cpu c).hand = some p ∨ s.cpu c = .sched (.post2 p) ∨ s.cpu c = .sched (.post3 p)

/-- `wakeup1` does not change nSLEEPING to nRUNNABLE between the scheduler's first and second cas on a process that no
CPU has in hand. -/
def InTime (s : State Cpu) (a : Cpu × Choice) : Prop :=
  ∀ w, (s.cpu a.1).wake = some w → w.pc = .casN → s.mem.state w.p = .nSleeping →
    ∀ c, s.cpu c = .sched (.post2 w.p) → ∃ c', (s.cpu c').hand = some w.p

/-! ## Where a CPU goes with the process in its hand -/

theorem CpuStep.hand_next {m m' : Mem} {k k' : CpuCtl} (h : CpuStep m k m' k') {p : Slot} (hp : k.hand = some p) :
    k'.hand = some p ∨
      k = .sched (.post1 p) ∧ k' = .sched (.post2 p) ∧ m' = m.cas p .nRunnable .runnable := by
  cases h with
  | sched pc m' k' h =>
    cases pc with
    | load r =>
      obtain ⟨rfl, rfl⟩ := by simpa [Sched.step] using h
      exact .inl hp
    | post1 r =>
      obtain ⟨rfl, rfl⟩ := by simpa [Sched.step] using h
      obtain rfl : r = p := by simpa [CpuCtl.hand] using hp
      exact .inr ⟨rfl, rfl, rfl⟩
    | _ => simp [CpuCtl.hand] at hp
  | schedIntr c => simp [CpuCtl.hand] at hp
  | wake w | wakeEnd w => simp [CpuCtl.hand] at hp
  | save | run => exact .inl hp

theorem CpuStep.post2_next {m m' : Mem} {k' : CpuCtl} {p : Slot} (h : CpuStep m (.sched (.post2 p)) m' k') :
    k' = .sched (.post3 p) ∧ m' = m.cas p .nSleeping .sleeping := by
  cases h with
  | sched pc m' k' h =>
    obtain ⟨rfl, rfl⟩ := by simpa [Sched.step] using h
    exact ⟨rfl, rfl⟩

theorem CpuStep.post3_next {m m' : Mem} {k' : CpuCtl} {p : Slot} (h : CpuStep m (.sched (.post3 p)) m' k') :
    m' = m.cas p .nZombie .zombie := by
  cases h with
  | sched pc m' k' h =>
    obtain ⟨rfl, -⟩ := by simpa [Sched.step] using h
    rfl

theorem Mem.cas_ne {m : Mem} {p : Slot} {e n : ProcState} (h : n ≠ e) : (m.cas p e n).state p ≠ e := by
  unfold Mem.cas
  split
  · simpa [Mem.setState] using h
  · assumption

/-! ## The invariant -/

section Step

variable [DecidableEq Cpu] {s s' : State Cpu} {a : Cpu × Choice}

theorem hand_kept (h : step s a = some s') {c : Cpu} {p : Slot} (hc : (s.cpu c).hand = some p) :
    (s'.cpu c).hand = some p ∨ s'.cpu c = .sched (.post2 p) ∧ s'.mem.state p ≠ .nRunnable := by
  obtain ⟨m', k', hk, rfl⟩ := step_inv h
  obtain rfl | hne := eq_or_ne c a.1
  · simp only [Function.update_self]
    obtain hold | ⟨-, rfl, rfl⟩ := hk.hand_next hc
    · exact .inl hold
    · exact .inr ⟨rfl, Mem.cas_ne (by simp)⟩
  · exact .inl (by simpa [Function.update_of_ne hne] using hc)

theorem post2_kept (h : step s a = some s') {c : Cpu} {p : Slot} (hc : s.cpu c = .sched (.post2 p)) :
    s'.cpu c = .sched (.post2 p) ∨ s'.cpu c = .sched (.post3 p) ∧ s'.mem.state p ≠ .nSleeping := by
  obtain ⟨m', k', hk, rfl⟩ := step_inv h
  obtain rfl | hne := eq_or_ne c a.1
  · rw [hc] at hk
    obtain ⟨rfl, rfl⟩ := hk.post2_next
    exact .inr ⟨by simp, Mem.cas_ne (by simp)⟩
  · exact .inl (by simpa [Function.update_of_ne hne] using hc)

theorem post3_kept (h : step s a = some s') {c : Cpu} {p : Slot} (hc : s.cpu c = .sched (.post3 p)) :
    s'.cpu c = .sched (.post3 p) ∨ s'.mem.state p ≠ .nZombie := by
  obtain ⟨m', k', hk, rfl⟩ := step_inv h
  obtain rfl | hne := eq_or_ne c a.1
  · rw [hc] at hk
    obtain rfl := hk.post3_next
    exact .inr (Mem.cas_ne (by simp))
  · exact .inl (by simpa [Function.update_of_ne hne] using hc)

theorem StateStep.transitional {m : Mem} {k : CpuCtl} {p : Slot} {v : ProcState} (h : StateStep m k p v)
    (hv : v = .nSleeping ∨ v = .nRunnable ∨ v = .nZombie) :
    (∃ th, k = .run p th) ∨
      v = .nRunnable ∧ m.state p = .nSleeping ∧ ∃ w, k.wake = some w ∧ w.pc = .casN ∧ w.p = p := by
  cases h with
  | own q th => exact .inl ⟨th, rfl⟩
  | wakeN k w hw hpc hst => exact .inr ⟨rfl, hst, w, hw, hpc, rfl⟩
  | _ => simp at hv

theorem nZombie_attended (h : step s a = some s') {p : Slot}
    (hs : s.mem.state p = .nZombie → ∃ c, (s.cpu c).hand = some p ∨ s.cpu c = .sched (.post2 p) ∨ s.cpu c = .sched (.post3 p))
    (hp : s'.mem.state p = .nZombie) :
    ∃ c, (s'.cpu c).hand = some p ∨ s'.cpu c = .sched (.post2 p) ∨ s'.cpu c = .sched (.post3 p) := by
  by_cases hold : s.mem.state p = .nZombie
  · obtain ⟨c, hc | hc | hc⟩ := hs hold
    · obtain hkeep | ⟨hkeep, -⟩ := hand_kept h hc
      · exact ⟨c, .inl hkeep⟩
      · exact ⟨c, .inr (.inl hkeep)⟩
    · obtain hkeep | ⟨hkeep, -⟩ := post2_kept h hc
      · exact ⟨c, .inr (.inl hkeep)⟩
      · exact ⟨c, .inr (.inr hkeep)⟩
    · obtain hkeep | hne := post3_kept h hc
      · exact ⟨c, .inr (.inr hkeep)⟩
      · exact absurd hp hne
  · obtain ⟨m', k', hk, rfl⟩ := step_inv h
    obtain hsame | hst := hk.store.state_cases p
    · exact absurd (hsame.symm.trans hp) hold
    · obtain ⟨th, hrun⟩ | ⟨hv, -⟩ := hst.transitional (.inr (.inr hp))
      · rw [hrun] at hk
        obtain hkeep | ⟨e, -, -⟩ := hk.hand_next rfl
        · exact ⟨a.1, .inl (by simpa using hkeep)⟩
        · simp at e
      · simp only at hp
        simp [hp] at hv

theorem Attended.step (hs : Attended s) (hok : InTime s a) (h : step s a = some s') : Attended s' := by
  -- a process that is in the state already, or that a CPU with the process in hand has put there
  have hold : ∀ p, s'.mem.state p = s.mem.state p ∨ (∃ c, (s'.cpu c).hand = some p) ∨
      s'.mem.state p ≠ .nSleeping ∧ s'.mem.state p ≠ .nRunnable := by
    intro p
    obtain ⟨m', k', hk, rfl⟩ := step_inv h
    obtain hsame | hst := hk.store.state_cases p
    · exact .inl hsame
    by_cases hv : m'.state p = .nSleeping ∨ m'.state p = .nRunnable
    · refine .inr (.inl ?_)
      obtain ⟨th, hrun⟩ | ⟨hv, hsl, w, hw, hpc, rfl⟩ := hst.transitional (hv.imp_right .inl)
      · rw [hrun] at hk
        obtain hkeep | ⟨e, -, -⟩ := hk.hand_next rfl
        · exact ⟨a.1, by simpa using hkeep⟩
        · simp at e
      · have hin : ∃ c, (s.cpu c).hand = some w.p := by
          obtain ⟨c, hc | hc⟩ := hs.nSleeping hsl
          · exact ⟨c, hc⟩
          · exact hok w hw hpc hsl c hc
        obtain ⟨c, hc⟩ := hin
        obtain hkeep | ⟨-, hne⟩ := hand_kept h hc
        · exact ⟨c, hkeep⟩
        · exact absurd hv hne
    · exact .inr (.inr ⟨fun e => hv (.inl e), fun e => hv (.inr e)⟩)
  refine ⟨fun {p} hp => ?_, fun {p} hp => ?_, fun {p} hp => ?_⟩
  · obtain hsame | ⟨c, hc⟩ | hno := hold p
    · obtain ⟨c, hc | hc⟩ := hs.nSleeping (hsame ▸ hp)
      · obtain hkeep | ⟨hkeep, -⟩ := hand_kept h hc
        · exact ⟨c, .inl hkeep⟩
        · exact ⟨c, .inr hkeep⟩
      · obtain hkeep | ⟨-, hne⟩ := post2_kept h hc
        · exact ⟨c, .inr hkeep⟩
        · exact absurd hp hne
    · exact ⟨c, .inl hc⟩
    · exact absurd hp hno.1
  · obtain hsame | hc | hno := hold p
    · obtain ⟨c, hc⟩ := hs.nRunnable (hsame ▸ hp)
      obtain hkeep | ⟨-, hne⟩ := hand_kept h hc
      · exact ⟨c, hkeep⟩
      · exact absurd hp hne
    · exact hc
    · exact absurd hp hno.2
  · exact nZombie_attended h hs.nZombie hp

omit [DecidableEq Cpu] in
theorem Attended.boot : Attended (boot : State Cpu) := by
  have hstate : ∀ p, (Mem.boot.state p = .runnable) ∨ Mem.boot.state p = .unused := by
    intro p
    obtain rfl | hp := eq_or_ne p initproc
    · exact .inl (by simp [Mem.boot])
    · exact .inr (by simp [Mem.boot, hp])
  constructor <;> intro p hp <;> obtain e | e := hstate p <;> simp [Xv6.boot, e] at hp

end Step

theorem CpuCtl.hand_cases {k : CpuCtl} {p : Slot} (h : k.hand = some p) :
    k.executing = some p ∨ k.settling = some p := by
  cases k with
  | sched pc => cases pc <;> simp_all [CpuCtl.hand, CpuCtl.executing, CpuCtl.settling]
  | intr w => simp [CpuCtl.hand] at h
  | run q th => exact .inl h

/-- **No process is stranded**: a process in a transitional state is executed by a CPU, or a scheduler has still to make
one of its three cas calls on it. -/
theorem transitional_attended [DecidableEq Cpu] {tr : List (State Cpu × Cpu × Choice)} {s : State Cpu}
    (h : Path step InTime boot tr s) {p : Slot}
    (hp : s.mem.state p = .nSleeping ∨ s.mem.state p = .nRunnable ∨ s.mem.state p = .nZombie) :
    ∃ c, (s.cpu c).executing = some p ∨ (s.cpu c).settling = some p := by
  have hs : Attended s := h.inv .boot fun _ _ _ hi hok hst => hi.step hok hst
  obtain hp | hp | hp := hp
  · obtain ⟨c, hc | hc⟩ := hs.nSleeping hp
    · exact ⟨c, CpuCtl.hand_cases hc⟩
    · exact ⟨c, .inr (by rw [hc]; rfl)⟩
  · obtain ⟨c, hc⟩ := hs.nRunnable hp
    exact ⟨c, CpuCtl.hand_cases hc⟩
  · obtain ⟨c, hc | hc | hc⟩ := hs.nZombie hp
    · exact ⟨c, CpuCtl.hand_cases hc⟩
    all_goals exact ⟨c, .inr (by rw [hc]; rfl)⟩

instance [Fintype Cpu] (s : State Cpu) (a : Cpu × Choice) : Decidable (InTime s a) :=
  match hw : (s.cpu a.1).wake with
  | none => .isTrue (by simp [InTime, hw])
  | some w =>
    decidable_of_iff (w.pc = .casN → s.mem.state w.p = .nSleeping →
      ∀ c, s.cpu c = .sched (.post2 w.p) → ∃ c', (s.cpu c').hand = some w.p) (by simp [InTime, hw])

/-- A disk interrupt on CPU 1 wakes the process while CPU 0 is still in `sleep`: nRUNNABLE, and CPU 0 executes it. -/
theorem transitional_attended_in_sleep : ∃ (tr : List (State (Fin 2) × Fin 2 × Choice)) (s : State (Fin 2)),
    Path step InTime boot tr s ∧ s.mem.state 0 = .nRunnable ∧
      ∃ c, (s.cpu c).executing = some 0 ∨ (s.cpu c).settling = some 0 := by
  obtain ⟨s, hs, h0⟩ := exists_path step InTime boot
    (go (0 : Fin 2) 3 ++ [(0, .call (.sleep (.addr 7)))] ++ go 0 3 ++ [(1, .intr (some (.addr 7)) false)] ++ go 1 2)
    (fun s => s.mem.state 0 = .nRunnable) (by decide)
  exact ⟨_, s, hs, h0, transitional_attended hs (.inr (.inl h0))⟩

/-- The same interrupt after the scheduler's first cas: the process stays nRUNNABLE and every scheduler has moved on. -/
theorem wakeup_strands_process : ∃ (tr : List (State (Fin 2) × Fin 2 × Choice)) (s : State (Fin 2)),
    Path step free boot tr s ∧ s.mem.state 0 = .nRunnable ∧
      ∀ c, (s.cpu c).executing ≠ some 0 ∧ (s.cpu c).settling ≠ some 0 := by
  obtain ⟨s, hs, h0, hc⟩ := exists_path step free boot
    (go (0 : Fin 2) 3 ++ [(0, .call (.sleep (.addr 7)))] ++ go 0 5 ++ [(1, .intr (some (.addr 7)) false)] ++ go 1 2 ++
      go 0 3)
    (fun s => s.mem.state 0 = .nRunnable ∧ ∀ c, (s.cpu c).executing ≠ some 0 ∧ (s.cpu c).settling ≠ some 0)
    (by decide)
  exact ⟨_, s, hs, h0, hc⟩

end Xv6
