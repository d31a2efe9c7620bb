import Xv6.Cli.Machine
import Xv6.Proc.Step

/-!
# `kill` and `sigsend` look for a pid

Both functions go through the process table and take the first entry with the pid, whatever its state. Here they are
executed alone, in a system call (`Kill.exec`, `Send.exec`), and `kill` with the interrupt state of its CPU, since it
ends with a `popcli` that has no `pushcli`.

- `kill` of a pid that is in the table does not return: the `popcli` panics because interrupts are enabled, and the cas
  before it looks at the caller and not at the process, so that a sleeping process sleeps on. It does what it should
  exactly for a pid that is not in the table.
- The pids of entries that have no living process are found too: 0, which is in all entries that were never used or have
  been reaped, the pid of a zombie, and the pid that a failed `fork` leaves behind.
-/

namespace Xv6

open Lib

variable {m m' : Mem} {q : Slot} {pid value : Word} {cpu : Cli.Cpu}

/-! ## Living processes -/

/-- Neither UNUSED nor EMBRYO nor ZOMBIE nor nZOMBIE. -/
def ProcState.living : ProcState → Bool
  | .unused | .embryo | .zombie | .nZombie => false
  | _ => true

/-! ## `kill` -/

/-- How `kill` ends. -/
inductive KillEnd
  | ret (r : Word)
  | panic (e : Cli.Panic)
  deriving DecidableEq

/-- The steps of `kill`, with `popcli` before the return of 0. -/
def Kill.exec (q : Slot) (pid : Word) (s : Mem × Cli.Cpu) : Kill → (Mem × Cli.Cpu) × (Kill ⊕ KillEnd)
  | .cas =>
    match Cli.popcli s.2 with
    | .ok cpu => (((Kill.cas.step q pid s.1).1, cpu), .inr (.ret 0))
    | .error e => (((Kill.cas.step q pid s.1).1, s.2), .inr (.panic e))
  | .ret => (s, .inr (.ret (-1)))
  | pc =>
    (((pc.step q pid s.1).1, s.2),
      match (pc.step q pid s.1).2 with
      | .kill _ pc' => .inl pc'
      | _ => .inr (.ret (-1)))

theorem Kill.exec_scan_ne {p : Slot} (h : m.pid p ≠ pid) :
    Kill.exec q pid (m, cpu) (.scan p) =
      ((m, cpu), .inl (match nextIx p with | some p' => .scan p' | none => .ret)) := by
  simp only [Kill.exec, Kill.step, if_neg h]
  cases nextIx p <;> rfl

/-- **A pid that is not in the table**: `kill` returns -1 and changes nothing. -/
theorem Kill.finishes_not_found (h : ∀ p, m.pid p ≠ pid) (p : Slot) :
    Finishes (Kill.exec q pid) (m, cpu) (.scan p) (m, cpu) (.ret (-1)) := by
  induction hn : NPROC - p.val generalizing p with
  | zero => exact absurd hn (Nat.sub_ne_zero_of_lt p.isLt)
  | succ n ih =>
    refine .next (Kill.exec_scan_ne (h p)) ?_
    cases hp : nextIx p with
    | none => exact .ret rfl
    | some p' =>
      have hp' := nextIx_eq_some.mp hp
      exact ih p' (by omega)

theorem Kill.finishes_found {r : Slot} (hr : m.pid r = pid) (hs : m.state r ≠ .nSleeping) (hi : cpu.ifl = true) :
    Finishes (Kill.exec q pid) (m, cpu) (.scan r) ((m.setKilled r true).cas q .sleeping .running, cpu)
      (.panic .popcliInterruptible) := by
  have hscan : Kill.exec q pid (m, cpu) (.scan r) = ((m, cpu), .inl (.set r)) := by
    simp only [Kill.exec, Kill.step, if_pos hr]
  have hspin : Kill.exec q pid (m.setKilled r true, cpu) (.spin r) = ((m.setKilled r true, cpu), .inl .cas) := by
    have hs' : (m.setKilled r true).state r ≠ .nSleeping := hs
    simp only [Kill.exec, Kill.step, if_neg hs']
  refine .next hscan (.next rfl (.next hspin (.ret ?_)))
  simp [Kill.exec, Kill.step, Cli.popcli, hi]

/-- On the way to `popcli`: the entry with the pid is ahead, or has been found. -/
def Kill.meets (m : Mem) (pid : Word) : Kill → Prop
  | .scan p => ∃ r, p ≤ r ∧ m.pid r = pid
  | .set _ | .spin _ | .cas => True
  | .ret => False

theorem Kill.exec_meets {s : Mem × Cli.Cpu} {pc pc' : Kill} (hm : pc.meets m pid)
    (h : Kill.exec q pid (m, cpu) pc = (s, .inl pc')) : pc'.meets s.1 pid ∧ s.2 = cpu := by
  cases pc with
  | scan p =>
    by_cases hp : m.pid p = pid
    · simp only [Kill.exec, Kill.step, if_pos hp, Prod.mk.injEq, Sum.inl.injEq] at h
      obtain ⟨rfl, rfl⟩ := h
      exact ⟨trivial, rfl⟩
    · obtain ⟨r, hle, hr⟩ := hm
      have hlt : p < r := lt_of_le_of_ne hle fun e => hp (e ▸ hr)
      have hn : nextIx p = some ⟨p.val + 1, (Nat.succ_le_of_lt hlt).trans_lt r.isLt⟩ := nextIx_eq_some.mpr rfl
      rw [Kill.exec_scan_ne hp, hn, Prod.mk.injEq] at h
      obtain ⟨rfl, h⟩ := h
      obtain rfl := Sum.inl.inj h
      exact ⟨⟨r, hlt, hr⟩, rfl⟩
  | set p =>
    simp only [Kill.exec, Kill.step, Prod.mk.injEq, Sum.inl.injEq] at h
    obtain ⟨rfl, rfl⟩ := h
    exact ⟨trivial, rfl⟩
  | spin p =>
    simp only [Kill.exec, Kill.step] at h
    split at h <;>
      · simp only [Prod.mk.injEq, Sum.inl.injEq] at h
        obtain ⟨rfl, rfl⟩ := h
        exact ⟨trivial, rfl⟩
  | cas =>
    simp only [Kill.exec] at h
    split at h <;> simp at h
  | ret => exact hm.elim

/-- **A pid that is in the table**: if `kill` ends at all, it ends in the panic of `popcli`. -/
theorem Kill.panics {s s' : Mem × Cli.Cpu} {pc : Kill} {e : KillEnd} (h : Finishes (Kill.exec q pid) s pc s' e)
    (hm : pc.meets s.1 pid) (hi : s.2.ifl = true) : e = .panic .popcliInterruptible := by
  induction h with
  | @ret s s' pc e h =>
    cases pc with
    | scan p =>
      by_cases hp : s.1.pid p = pid
      · simp [Kill.exec, Kill.step, hp] at h
      · rw [show s = (s.1, s.2) from rfl, Kill.exec_scan_ne hp] at h
        cases h
    | set p => simp [Kill.exec, Kill.step] at h
    | spin p =>
      simp only [Kill.exec, Kill.step] at h
      split at h <;> simp at h
    | cas =>
      simp only [Kill.exec, Cli.popcli, hi, ↓reduceIte, Prod.mk.injEq, Sum.inr.injEq] at h
      exact h.2.symm
    | ret => exact hm.elim
  | next h _ ih =>
    obtain ⟨hm', hcpu⟩ := Kill.exec_meets hm h
    exact ih hm' (hcpu ▸ hi)

/-- **What `kill` should do**: return -1 and change nothing if no entry has the pid, and else return 0 with a living
process killed and, if it slept, runnable; the other states, `ncli` and the interrupt flag are as before. -/
def KillWorks (m : Mem) (q : Slot) (pid : Word) (cpu : Cli.Cpu) : Prop :=
  ((∀ p, m.pid p ≠ pid) ∧ Finishes (Kill.exec q pid) (m, cpu) (.scan 0) (m, cpu) (.ret (-1))) ∨
    ∃ p m', m.pid p = pid ∧ (m.state p).living = true ∧
      Finishes (Kill.exec q pid) (m, cpu) (.scan 0) (m', cpu) (.ret 0) ∧ m'.killed p = true ∧
      (m.state p = .sleeping → m'.state p = .runnable) ∧ ∀ r, r ≠ p → m'.state r = m.state r

/-- **`kill` works exactly for the pids that are not in the table**, for every table, caller and CPU in a system call. -/
theorem kill_works_iff (m : Mem) (q : Slot) (pid : Word) (intena : Bool) :
    KillWorks m q pid ⟨0, intena, true⟩ ↔ ∀ p, m.pid p ≠ pid := by
  constructor
  · rintro (⟨h, -⟩ | ⟨p, m', hp, -, hfin, -⟩)
    · exact h
    · have hpanic := Kill.panics hfin ⟨p, Fin.zero_le p, hp⟩ rfl
      cases hpanic
  · exact fun h => .inl ⟨h, Kill.finishes_not_found h 0⟩

/-- The CPU of a process in a system call. -/
def inSyscall : Cli.Cpu := ⟨0, true, true⟩

/-- `initproc` runs, and a process with pid 3 sleeps. -/
def sleeper : Mem := (((Mem.boot.setState 0 .running).setState 1 .sleeping).setPid 1 3).setChan 1 (.addr 5)

/-- **`kill` of a sleeping process** panics, and the process sleeps on. -/
theorem kill_leaves_sleeping : ∃ m', Finishes (Kill.exec initproc 3) (sleeper, inSyscall) (.scan 0) (m', inSyscall)
    (.panic .popcliInterruptible) ∧ m'.killed 1 = true ∧ m'.state 1 = .sleeping := by
  have hfound : Finishes (Kill.exec initproc 3) (sleeper, inSyscall) (.scan 1) _ _ :=
    Kill.finishes_found rfl (by decide) rfl
  exact ⟨_, .next rfl hfound, by decide⟩

/-! ## `sigsend` -/

/-- The steps of `sigsend`; `true` is the return of 0. -/
def Send.exec (q : Slot) (dest value : Word) (m : Mem) : Send → Mem × (Send ⊕ Bool)
  | .ret b => (m, .inr b)
  | pc =>
    ((pc.step q dest value m).1,
      match (pc.step q dest value m).2 with
      | .sigsend _ _ pc' => .inl pc'
      | _ => .inr false)

/-- The steps of `wakeup1`. -/
def Wake.exec (m : Mem) (w : Wake) : Mem × (Wake ⊕ Unit) :=
  ((w.step m).1,
    match (w.step m).2 with
    | some w' => .inl w'
    | none => .inr ())

/-- The rank of a control point in the body of the loop of `wakeup1`. -/
def WakeAt.left : WakeAt → ℕ
  | .chan => 5
  | .casN => 4
  | .clrN => 3
  | .casS => 2
  | .clrS => 1

theorem Wake.step_left {w w' : Wake} (h : (w.step m).2 = some w') :
    6 * (NPROC - w'.p.val) + w'.pc.left < 6 * (NPROC - w.p.val) + w.pc.left := by
  have hnext {w' : Wake} (h : w.next = some w') :
      6 * (NPROC - w'.p.val) + w'.pc.left < 6 * (NPROC - w.p.val) + w.pc.left := by
    obtain ⟨p, hp, rfl⟩ := Option.map_eq_some_iff.mp h
    have hp' := nextIx_eq_some.mp hp
    have hlt := p.isLt
    simp only [WakeAt.left]
    omega
  obtain ⟨c, p, pc⟩ := w
  cases pc with
  | chan | casN | casS =>
    simp only [Wake.step] at h
    split at h
    · obtain rfl := by simpa using h
      simp [WakeAt.left]
    · first
        | exact hnext h
        | (obtain rfl := by simpa using h
           simp [WakeAt.left])
  | clrN =>
    obtain rfl := by simpa [Wake.step] using h
    simp [WakeAt.left]
  | clrS => exact hnext h

theorem Wake.finishes (m : Mem) (w : Wake) : ∃ m', Finishes Wake.exec m w m' () := by
  induction hn : 6 * (NPROC - w.p.val) + w.pc.left using Nat.strongRecOn generalizing m w with
  | _ n ih =>
    subst hn
    cases hw : (w.step m).2 with
    | none => exact ⟨(w.step m).1, .ret (by simp only [Wake.exec, hw])⟩
    | some w' =>
      obtain ⟨m', hfin⟩ := ih _ (Wake.step_left hw) (w.step m).1 w' rfl
      exact ⟨m', .next (by simp only [Wake.exec, hw]) hfin⟩

theorem Send.finishes_wake {w : Wake} (h : Finishes Wake.exec m w m' ()) :
    Finishes (Send.exec q pid value) m (.wake w) m' true := by
  generalize hu : () = u at h
  induction h with
  | @ret m m' w u h =>
    simp only [Wake.exec, Prod.mk.injEq] at h
    have hw : (w.step m).2 = none := by
      cases hw : (w.step m).2 with
      | none => rfl
      | some w' => simp [hw] at h
    obtain rfl := h.1
    have hstep : Send.exec q pid value m (.wake w) = ((w.step m).1, .inl (.ret true)) := by
      simp only [Send.exec, Send.step, hw]
    exact .next hstep (.ret rfl)
  | @next m m₁ m' w w' u h _ ih =>
    simp only [Wake.exec, Prod.mk.injEq] at h
    have hw : (w.step m).2 = some w' := by
      cases hw : (w.step m).2 with
      | none => simp [hw] at h
      | some w' => simpa [hw] using h.2
    obtain rfl := h.1
    refine .next ?_ (ih hu)
    simp only [Send.exec, Send.step, hw]

theorem Send.finishes_push {p : Slot} {r : Record} {pc : Push} {cs : Cstack} {b : Bool}
    (h : Finishes (fun cs pc => Push.step cs r pc) (m.pending p) pc cs b) :
    ∃ m', Finishes (Send.exec q pid value) m (.push p r pc) m' b := by
  generalize hcs : m.pending p = cs₀ at h
  induction h generalizing m with
  | @ret cs₀ cs pc b h =>
    subst hcs
    cases b with
    | false =>
      have hstep : Send.exec q pid value m (.push p r pc) = (m.setPending p cs, .inl (.ret false)) := by
        simp only [Send.exec, Send.step, h]
      exact ⟨m.setPending p cs, .next hstep (.ret rfl)⟩
    | true =>
      obtain ⟨m', hw⟩ := Wake.finishes (m.setPending p cs) (Wake.start ((m.setPending p cs).chan p))
      have hstep : Send.exec q pid value m (.push p r pc) = (m.setPending p cs, .inl (.chan p)) := by
        simp only [Send.exec, Send.step, h]
      exact ⟨m', .next hstep (.next rfl (Send.finishes_wake hw))⟩
  | @next cs₀ cs₁ cs pc pc' b h _ ih =>
    subst hcs
    have hself : (m.setPending p cs₁).pending p = cs₁ := Function.update_self ..
    obtain ⟨m', hfin⟩ := ih hself
    refine ⟨m', .next ?_ hfin⟩
    simp only [Send.exec, Send.step, h]

theorem Send.exec_scan_ne {p : Slot} (h : m.pid p ≠ pid) :
    Send.exec q pid value m (.scan p) = (m, .inl (match nextIx p with | some p' => .scan p' | none => .ret false)) := by
  simp only [Send.exec, Send.step, if_neg h]
  cases nextIx p <;> rfl

theorem Send.finishes_found {p : Slot} (hp : m.pid p = pid) : ∃ m', Finishes (Send.exec q pid value) m (.scan p) m'
    ((m.pending p).push ⟨m.pid q, pid, value⟩).2 := by
  have hscan : Send.exec q pid value m (.scan p) = (m, .inl (.self p)) := by
    simp only [Send.exec, Send.step, if_pos hp]
  obtain ⟨m', hfin⟩ := Send.finishes_push (Push.finishes (m.pending p) ⟨m.pid q, pid, value⟩)
  exact ⟨m', .next hscan (.next rfl hfin)⟩

theorem Send.finishes (p : Slot) : ∃ m' b, Finishes (Send.exec q pid value) m (.scan p) m' b ∧
    ((∀ p, m.pid p ≠ pid) → b = false ∧ m' = m) := by
  induction hn : NPROC - p.val generalizing p with
  | zero => exact absurd hn (Nat.sub_ne_zero_of_lt p.isLt)
  | succ n ih =>
    by_cases hp : m.pid p = pid
    · obtain ⟨m', hfin⟩ := Send.finishes_found (q := q) hp
      exact ⟨m', _, hfin, fun h => absurd hp (h p)⟩
    · cases hnext : nextIx p with
      | none =>
        refine ⟨m, false, .next (Send.exec_scan_ne hp) ?_, fun _ => ⟨rfl, rfl⟩⟩
        rw [hnext]
        exact .ret rfl
      | some p' =>
        have hp' := nextIx_eq_some.mp hnext
        obtain ⟨m', b, hfin, hnone⟩ := ih p' (by omega)
        refine ⟨m', b, .next (Send.exec_scan_ne hp) ?_, hnone⟩
        rw [hnext]
        exact hfin

/-! ## Both -/

/-- **Signals and kills reach only living processes** exactly if the pid is that of a living process whenever it is in the
table at all. That is: `sigsend` returns, and with 0 only if a living process has the pid; for any other pid `sigsend` and
`kill` return -1 and change nothing. -/
theorem signals_reach_living (m : Mem) (q : Slot) (pid value : Word) :
    ((∃ m' b, Finishes (Send.exec q pid value) m (.scan 0) m' b ∧
      (b = true → ∃ p, m.pid p = pid ∧ (m.state p).living = true) ∧
      ((∀ p, m.pid p = pid → (m.state p).living = false) → b = false ∧ m' = m)) ∧
    ∀ cpu, (∀ p, m.pid p = pid → (m.state p).living = false) →
      Finishes (Kill.exec q pid) (m, cpu) (.scan 0) (m, cpu) (.ret (-1))) ↔
    ((∃ p, m.pid p = pid) → ∃ p, m.pid p = pid ∧ (m.state p).living = true) := by
  refine ⟨fun ⟨_, hkill⟩ ⟨p, hp⟩ => ?_, fun h => ?_⟩
  · by_contra hne
    have hdead : ∀ r, m.pid r = pid → (m.state r).living = false :=
      fun r hr => Bool.eq_false_of_not_eq_true fun hliving => hne ⟨r, hr, hliving⟩
    have hpanic := Kill.panics (hkill inSyscall hdead) ⟨p, Fin.zero_le p, hp⟩ rfl
    cases hpanic
  have hnone (hdead : ∀ p, m.pid p = pid → (m.state p).living = false) (p : Slot) : m.pid p ≠ pid := by
    intro hp
    obtain ⟨r, hr, hliving⟩ := h ⟨p, hp⟩
    rw [hdead r hr] at hliving
    cases hliving
  refine ⟨?_, fun cpu hdead => Kill.finishes_not_found (hnone hdead) 0⟩
  obtain ⟨m', b, hfin, hret⟩ : ∃ m' b, Finishes (Send.exec q pid value) m (.scan 0) m' b ∧
      ((∀ p, m.pid p ≠ pid) → b = false ∧ m' = m) := Send.finishes 0
  refine ⟨m', b, hfin, fun hb => ?_, fun hdead => hret (hnone hdead)⟩
  apply h
  by_contra hne
  have hfalse := (hret fun p hp => hne ⟨p, hp⟩).1
  rw [hb] at hfalse
  cases hfalse

/-- `initproc` calls `fork`, and there is no page for the kernel stack of the child. -/
def failedFork : List (Unit × Choice) :=
  go () 3 ++ [((), .call .fork)] ++ go () 5 ++ [((), .page none)] ++ go () 3

/-- **Signals to nobody**: at the start no living process has the pid 0, and after a `fork` that has failed none has the
pid 3, but `sigsend` to them returns 0. -/
theorem signal_to_nobody :
    ((∀ p, Mem.boot.pid p = 0 → (Mem.boot.state p).living = false) ∧
      ∃ m', Finishes (Send.exec initproc 0 9) Mem.boot (.scan 0) m' true) ∧
    ∃ tr s, Path step free (boot : State Unit) tr s ∧ (∀ p, s.mem.pid p = 3 → (s.mem.state p).living = false) ∧
      ∃ m', Finishes (Send.exec initproc 3 9) s.mem (.scan 0) m' true := by
  constructor
  · refine ⟨by decide, ?_⟩
    obtain ⟨m', hfin⟩ : ∃ m', Finishes (Send.exec initproc 0 9) Mem.boot (.scan 1) m' true := Send.finishes_found rfl
    exact ⟨m', .next rfl hfin⟩
  · obtain ⟨s, hrun, hdead, h0, h1, hpush⟩ := exists_path step free (boot : State Unit) failedFork
      (fun s => (∀ p, s.mem.pid p = 3 → (s.mem.state p).living = false) ∧ s.mem.pid 0 ≠ 3 ∧ s.mem.pid 1 = 3 ∧
        ((s.mem.pending 1).push ⟨s.mem.pid initproc, 3, 9⟩).2 = true) (by decide +kernel)
    obtain ⟨m', hfin⟩ : ∃ m', Finishes (Send.exec initproc 3 9) s.mem (.scan 1) m' true := by
      rw [← hpush]
      exact Send.finishes_found h1
    exact ⟨_, s, hrun, hdead, m', .next (Send.exec_scan_ne h0) hfin⟩

end Xv6
