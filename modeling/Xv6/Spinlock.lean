import Xv6.Lib.Transition

/-!
# Spin locks

`acquire` and `release` of `spinlock.c`, one control point per access to the lock. Between `pushcli` and `popcli` a CPU
takes no interrupt, so it is in one call at a time; but it may make any call, also one that it should not make.
-/

namespace Xv6.Spinlock

open Lib Function

variable {C : Type*}

/-- The next access of a CPU to the lock. `has` says whether the CPU had the lock when it made the call. -/
inductive Pc
  | out | critical
  | acqLocked (has : Bool) | acqCpu (has : Bool)     -- `holding` in `acquire`
  | spin                                             -- `xchg(&lk->locked, 1)`
  | setCpu                                           -- `lk->cpu = cpu`
  | relLocked (has : Bool) | relCpu (has : Bool)     -- `holding` in `release`
  | clrCpu                                           -- `lk->cpu = 0`
  | unlock                                           -- `xchg(&lk->locked, 0)`
  | panicAcquire (has : Bool) | panicRelease (has : Bool)
  deriving DecidableEq, Repr

/-- The fields of `struct spinlock`, and the CPUs. -/
structure State (C : Type*) where
  locked : Bool
  cpu : Option C
  pc : C → Pc

def initlock : State C := ⟨false, none, fun _ => .out⟩

inductive Act
  | acquire | release | step
  deriving DecidableEq, Repr

/-- One access of `c`, or the call of a function. -/
def Pc.step [DecidableEq C] (c : C) (locked : Bool) (cpu : Option C) : Pc → Act → Option (Bool × Option C × Pc)
  | .out, .acquire => some (locked, cpu, .acqLocked false)
  | .out, .release => some (locked, cpu, .relLocked false)
  | .critical, .acquire => some (locked, cpu, .acqLocked true)
  | .critical, .release => some (locked, cpu, .relLocked true)
  | .acqLocked has, .step => some (locked, cpu, if locked then .acqCpu has else .spin)
  | .acqCpu has, .step => some (locked, cpu, if cpu = some c then .panicAcquire has else .spin)
  | .spin, .step => some (true, cpu, if locked then .spin else .setCpu)
  | .setCpu, .step => some (locked, some c, .critical)
  | .relLocked has, .step => some (locked, cpu, if locked then .relCpu has else .panicRelease has)
  | .relCpu has, .step => some (locked, cpu, if cpu = some c then .clrCpu else .panicRelease has)
  | .clrCpu, .step => some (locked, none, .unlock)
  | .unlock, .step => some (false, cpu, .out)
  | _, _ => none

def step [DecidableEq C] (s : State C) (a : C × Act) : Option (State C) :=
  ((s.pc a.1).step a.1 s.locked s.cpu a.2).map fun (locked, cpu, pc) => ⟨locked, cpu, update s.pc a.1 pc⟩

/-- The CPU has the lock: the `xchg` of `acquire` has got it, and the one of `release` is still to come. -/
def Pc.has : Pc → Bool
  | .acqLocked h | .acqCpu h | .relLocked h | .relCpu h | .panicAcquire h | .panicRelease h => h
  | .critical | .setCpu | .clrCpu | .unlock => true
  | .out | .spin => false

/-- The CPU `o` has the lock, or none. The field `cpu` names it, but for one statement on either end. -/
structure Sound (o : Option C) (s : State C) : Prop where
  locked : s.locked = o.isSome
  has : ∀ c, (s.pc c).has = true ↔ o = some c
  cpu : ∀ c, s.cpu = some c ↔ o = some c ∧ s.pc c ≠ .setCpu ∧ s.pc c ≠ .unlock
  panic : ∀ c, s.pc c ≠ .panicAcquire false ∧ s.pc c ≠ .panicRelease true

variable [DecidableEq C] {s s' : State C} {o : Option C}

theorem Sound.step {a : C × Act} (h : Sound o s) (hs : step s a = some s') : ∃ o, Sound o s' := by
  obtain ⟨c, a⟩ := a
  obtain ⟨hl, hhas, hcpu, hpanic⟩ := h
  obtain ⟨⟨l, k, pc⟩, hstep, rfl⟩ := Option.map_eq_some_iff.mp hs
  simp only at hstep
  -- only the two `xchg` change who has the lock
  refine ⟨if pc = .setCpu then some c else if s.pc c = .unlock then none else o, ?_⟩
  have hc := hcpu c
  have hp := hpanic c
  have hh := hhas c
  generalize hq : s.pc c = q at *
  unfold Pc.step at hstep
  split at hstep
  all_goals simp only [Option.some.injEq, Prod.mk.injEq, reduceCtorEq] at hstep
  all_goals obtain ⟨rfl, rfl, rfl⟩ := hstep
  all_goals constructor
  all_goals grind [Pc.has, update_apply]

/-- **Mutual exclusion**, whatever calls the CPUs make: in every interleaving at most one CPU has the lock, which is
taken exactly as long as one has it; `holding`, which reads the two fields one after the other, gives the right answer;
so `acquire` panics only on the CPU that has the lock, and `release` only on one that has not. -/
theorem one_cpu_has_lock {tr : List (State C × C × Act)} (h : Path Spinlock.step free initlock tr s) :
    (∀ c d, (s.pc c).has = true → (s.pc d).has = true → c = d) ∧ (s.locked = true ↔ ∃ c, (s.pc c).has = true) ∧
      (∀ c b, s.pc c = .acqCpu b ∨ s.pc c = .relCpu b → (s.cpu = some c ↔ b = true)) ∧
      ∀ c, s.pc c ≠ .panicAcquire false ∧ s.pc c ≠ .panicRelease true := by
  have hboot : Sound none (initlock : State C) := by
    constructor
    all_goals simp [initlock, Pc.has]
  obtain ⟨o, hs⟩ : ∃ o, Sound o s :=
    h.inv (I := fun s => ∃ o, Sound o s) ⟨none, hboot⟩ fun _ _ _ hs _ hstep => hs.elim fun _ hs => hs.step hstep
  refine ⟨fun c d hc hd => ?_, ?_, fun c b hb => ?_, hs.panic⟩
  · exact Option.some.inj (((hs.has c).mp hc).symm.trans ((hs.has d).mp hd))
  · simp [hs.locked, hs.has, Option.isSome_iff_exists]
  · have hh := hs.has c
    rw [hs.cpu]
    rcases hb with hb | hb
    · simp [hb, ← hh, Pc.has]
    · simp [hb, ← hh, Pc.has]

/-- One CPU takes the lock and tries to take it again; the other one waits for it. -/
theorem one_cpu_has_lock_twice : ∃ tr s, Path Spinlock.step free (initlock : State Bool) tr s ∧
    s.pc true = .acqCpu true ∧ s.cpu = some true ∧ s.pc false = .spin ∧ s.locked = true := by
  obtain ⟨s, hp, ht, hf⟩ := exists_path Spinlock.step free (initlock : State Bool)
    [(true, .acquire), (false, .acquire), (true, .step), (true, .step), (false, .step), (false, .step), (true, .step),
      (true, .acquire), (true, .step)]
    (fun s => s.pc true = .acqCpu true ∧ s.pc false = .spin) (by decide +kernel)
  obtain ⟨-, hlocked, hholding, -⟩ := one_cpu_has_lock hp
  exact ⟨_, s, hp, ht, (hholding true true (.inl ht)).mpr rfl, hf, hlocked.mpr ⟨true, by rw [ht]; rfl⟩⟩

end Xv6.Spinlock
