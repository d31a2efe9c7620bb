import Xv6.Cli.Machine
import Xv6.Lib.Transition

/-!
# `popcli` gives back what `pushcli` found

Every path through `yield`, `sleep`, `wait`, `sigpause`, `exit` and `forkret` enters `sched` at nesting depth one
(`Frame.next_runs`). So `ncli` is always the depth of the running activation, whichever CPU it is on, and the local
`intena` of `sched` carries the flag of the outermost `pushcli` from one CPU to the next (`Core.Sound`,
`Context.Sound`).
-/

namespace Xv6.Cli

/-! ## Every line has its depth -/

/-- The depth at which a line is executed. -/
def Line.Fits : Line → Nat → Prop
  | .kernel, _ => True
  | .user, d | .sigpause, d | .schedulerSti, d | .schedulerPush, d => d = 0
  | .sleepRelease, d | .sleepPop, d => d = 2
  | .scheduler, d => 1 ≤ d
  | .yieldSched, d | .yieldPop, d | .sleepSched, d | .sleepAcquire, d | .wait, d | .sigpauseSched, d
  | .sigpausePop, d | .exit, d | .exited, d | .forkret, d => d = 1

/-- `op.Runs d d'`: executed at depth `d`, the operation does not panic and leaves the depth `d'`. -/
inductive Op.Runs : Op → Nat → Nat → Prop
  | skip (d : Nat) : Op.Runs .skip d d
  | pushcli (d : Nat) : Op.Runs .pushcli d (d + 1)
  | popcli (d : Nat) : Op.Runs .popcli (d + 1) d
  | sched : Op.Runs .sched 1 1
  | sti : Op.Runs .sti 0 0

theorem Frame.call_runs {f : Frame} {proc : Bool} {ch : Choice} {op : Op} {l : Line}
    (h : f.call proc ch = some (op, l)) : ∃ d, op.Runs f.depth d ∧ l.Fits d := by
  cases ch <;> simp only [Frame.call, Option.ite_none_right_eq_some, Option.some.injEq, Prod.mk.injEq,
    reduceCtorEq] at h
  case acquire => obtain ⟨rfl, rfl⟩ := h; exact ⟨_, .pushcli _, trivial⟩
  case release =>
    obtain ⟨hd, rfl, rfl⟩ := h
    obtain ⟨d, hd⟩ := Nat.exists_eq_add_of_lt hd
    exact ⟨d, by rw [hd, Nat.zero_add]; exact .popcli d, trivial⟩
  case sigpause => obtain ⟨⟨-, hd⟩, rfl, rfl⟩ := h; exact ⟨0, by rw [hd]; exact .skip 0, rfl⟩
  case sleep => obtain ⟨⟨-, hd⟩, rfl, rfl⟩ := h; exact ⟨2, by rw [hd]; exact .pushcli 1, rfl⟩
  all_goals obtain ⟨⟨-, hd⟩, rfl, rfl⟩ := h; exact ⟨1, by rw [hd]; exact .pushcli 0, rfl⟩

/-- **Matched code.** At its line's depth, an activation's next operation is one that runs there, and leaves the depth
of the line after it. -/
theorem Frame.next_runs {f : Frame} {proc : Bool} {ch : Choice} {op : Op} {l : Line}
    (h : f.next proc ch = some (op, l)) (hf : f.line.Fits f.depth) : ∃ d, op.Runs f.depth d ∧ l.Fits d := by
  unfold Frame.next at h
  split at h
  case h_1 => exact Frame.call_runs h
  all_goals rename_i hl; try rw [hl] at hf
  case h_22 => simp at h
  case h_19 =>
    obtain ⟨rfl, rfl⟩ := by simpa using h
    exact ⟨_, .pushcli _, by simp [Line.Fits]⟩
  case h_20 =>
    obtain ⟨hd, rfl, rfl⟩ := by simpa using h
    obtain ⟨d, hd⟩ := Nat.exists_eq_add_of_lt hd
    exact ⟨d + 1, by rw [hd, Nat.add_comm 1 d]; exact .popcli _, by simp [Line.Fits]⟩
  case h_21 =>
    obtain ⟨hd, rfl, rfl⟩ := by simpa using h
    exact ⟨0, by rw [hd]; exact .popcli 0, rfl⟩
  all_goals
    obtain ⟨rfl, rfl⟩ := by simpa using h
    have hd : f.depth = _ := hf
    rw [hd]
    first
      | exact ⟨_, .skip _, by simp [Line.Fits]⟩
      | exact ⟨_, .pushcli _, by simp [Line.Fits]⟩
      | exact ⟨_, .popcli _, by simp [Line.Fits]⟩
      | exact ⟨_, .sched, rfl⟩
      | exact ⟨_, .sti, rfl⟩

/-! ## Sound threads -/

/-- What holds of an activation when interrupts are enabled exactly if `ifl`. -/
structure Frame.Sound (f : Frame) (ifl : Bool) : Prop where
  fits : f.line.Fits (f.depth + f.eflags.toList.length)
  off : 0 < f.depth → ifl = false
  read : ∀ e, f.eflags = some e → e = ifl
  first : ∀ e, f.eflags = some e → f.depth = 0 → f.was = some e

/-- The activations below one that returns to `ifl = saved`. -/
def Suspended (saved : Bool) : List Frame → Prop
  | [] => True
  | f :: fs => f.depth = 0 ∧ f.Sound saved ∧ Suspended f.saved fs

theorem Suspended.depth {saved : Bool} : ∀ {fs : List Frame}, Suspended saved fs → ∀ f ∈ fs, f.depth = 0
  | _ :: _, ⟨hd, _, hs⟩, f, hf => by
    rcases List.mem_cons.mp hf with rfl | hf
    · exact hd
    · exact hs.depth f hf

/-- The depth-one activation that `sched` saves, or that runs the scheduler. -/
structure Frame.Parked (f : Frame) : Prop where
  fits : f.line.Fits 1
  depth : f.depth = 1
  eflags : f.eflags = none

def Context.Sound : Context → Prop
  | .resume intena th => th.top.Parked ∧ (∀ b, th.top.was = some b → intena = b) ∧ Suspended th.top.saved th.below
  | .forkret => True

variable {C P : Type*}

structure Core.Sound (k : Core P) : Prop where
  panic : k.panic = none
  ncli : k.cpu.ncli = k.run.top.depth
  top : k.run.top.Sound k.cpu.ifl
  below : Suspended k.run.top.saved k.run.below
  scheduler : k.proc.isSome → k.scheduler.top.Parked ∧ k.scheduler.below = []
  intena : k.proc.isSome → 0 < k.run.top.depth → ∀ b, k.run.top.was = some b → k.cpu.intena = b

structure Machine.Sound (m : Machine C P) : Prop where
  core : ∀ c, (m.core c).Sound
  context : ∀ p ctx, m.context p = some ctx → ctx.Sound

theorem Frame.Parked.sound {f : Frame} (h : f.Parked) : f.Sound false where
  fits := by simpa [h.depth, h.eflags] using h.fits
  off _ := rfl
  read e he := by simp [h.eflags] at he
  first e he := by simp [h.eflags] at he

theorem Frame.Sound.user {f : Frame} {b b' : Bool} (h : f.Sound b) (hl : f.line = .user) : f.Sound b' := by
  have hd : f.depth + f.eflags.toList.length = 0 := by simpa [hl, Line.Fits] using h.fits
  have he : f.eflags = none := by
    cases hf : f.eflags with
    | none => rfl
    | some e => simp [hf] at hd
  exact ⟨h.fits, fun h0 => by omega, fun e h' => by simp [he] at h', fun e h' => by simp [he] at h'⟩

theorem Frame.Sound.enter_kernel (saved b : Bool) : (Frame.enter .kernel saved).Sound b :=
  ⟨trivial, fun h => by simp [Frame.enter] at h, fun e h => by simp [Frame.enter] at h,
    fun e h => by simp [Frame.enter] at h⟩

theorem newborn_parked : newborn.top.Parked := ⟨rfl, rfl, rfl⟩

theorem newborn_below : Suspended newborn.top.saved newborn.below :=
  ⟨rfl, ⟨rfl, fun h => by simp [Frame.enter] at h, fun e h => by simp [Frame.enter] at h,
    fun e h => by simp [Frame.enter] at h⟩, trivial⟩

/-! ## One step -/

theorem Core.Sound.next {k : Core P} (hk : k.Sound) {ch : Choice} {op : Op} {l : Line}
    (he : k.run.top.eflags = none) (h : k.run.top.next k.proc.isSome ch = some (op, l)) :
    ∃ d, op.Runs k.run.top.depth d ∧ l.Fits d :=
  Frame.next_runs h (by simpa [he] using hk.top.fits)

theorem Frame.Sound.of_fits {f : Frame} {ifl : Bool} (he : f.eflags = none) (hf : f.line.Fits f.depth)
    (hoff : 0 < f.depth → ifl = false) : f.Sound ifl :=
  ⟨by simpa [he] using hf, hoff, fun e h => by simp [he] at h, fun e h => by simp [he] at h⟩

/-- **A call of the running activation** neither panics nor breaks the discipline. -/
theorem Core.Sound.exec {k k' : Core P} {ctx : Option (P × Context)} {op : Op} {l : Line} {d : Nat} (hk : k.Sound)
    (he : k.run.top.eflags = none) (hr : op.Runs k.run.top.depth d) (hl : l.Fits d)
    (h : k.exec l op = some (k', ctx)) : k'.Sound ∧ ∀ p c, ctx = some (p, c) → c.Sound := by
  have hn := hk.ncli
  generalize hd : k.run.top.depth = d₀ at hr hn
  cases hr with
  | skip =>
    obtain ⟨rfl, rfl⟩ := by simpa [Core.exec] using h
    refine ⟨⟨hk.panic, hk.ncli, ?_, hk.below, hk.scheduler, hk.intena⟩, by simp⟩
    exact .of_fits he (by simpa [Core.goto, hd] using hl) hk.top.off
  | pushcli =>
    obtain ⟨rfl, rfl⟩ := by simpa [Core.exec] using h
    refine ⟨⟨hk.panic, hk.ncli, ⟨?_, hk.top.off, ?_, ?_⟩, hk.below, hk.scheduler, ?_⟩, by simp⟩
    · simpa [hd] using hl
    · intro e h
      simpa using h.symm
    · intro e h h0
      simpa [show k.run.top.depth = 0 from h0] using h
    · intro hp h0 b hb
      exact hk.intena hp h0 b (by simpa [Nat.pos_iff_ne_zero.mp h0] using hb)
  | popcli =>
    have hi : k.cpu.ifl = false := hk.top.off (by omega)
    have hpop := popcli_ok hi (by omega)
    obtain ⟨rfl, rfl⟩ := by simpa [Core.exec, hpop] using h
    refine ⟨⟨hk.panic, ?_, ?_, hk.below, hk.scheduler, ?_⟩, by simp⟩
    · simp only [hd]
      omega
    · refine .of_fits he (by simpa [Core.goto, hd] using hl) fun h0 => ?_
      have h1 : k.cpu.ncli ≠ 1 := by simp only [hd] at h0; omega
      simp [h1]
    · intro hp _ b hb
      exact hk.intena hp (by omega) b hb
  | sched =>
    have hi : k.cpu.ifl = false := hk.top.off (by omega)
    have hs := sched_ok hi (by simpa using hn)
    cases hp : k.proc with
    | none => simp [Core.exec, hp] at h
    | some p =>
      obtain ⟨rfl, rfl⟩ := by simpa [Core.exec, hp, hs] using h
      obtain ⟨hsch, hbelow⟩ := hk.scheduler (by simp [hp])
      refine ⟨⟨hk.panic, ?_, ?_, ?_, by simp, by simp⟩, ?_⟩
      · simpa [hsch.depth] using hn
      · simpa [hi] using hsch.sound
      · simp [hbelow, Suspended]
      · rintro q c hc
        obtain ⟨-, rfl⟩ := by simpa using hc
        exact ⟨⟨hl, hd, he⟩, hk.intena (by simp [hp]) (by omega), hk.below⟩
  | sti =>
    obtain ⟨rfl, rfl⟩ := by simpa [Core.exec] using h
    refine ⟨⟨hk.panic, hk.ncli, ?_, hk.below, hk.scheduler, hk.intena⟩, by simp⟩
    exact .of_fits he (by simpa [Core.goto, hd] using hl) fun h0 => by simp [Core.goto, hd] at h0

theorem Core.Sound.cli {k : Core P} {e : Bool} (hk : k.Sound) (he : k.run.top.eflags = some e) :
    Core.Sound { k with
      cpu := pushcli k.cpu e
      run.top.eflags := none
      run.top.depth := k.run.top.depth + 1 } where
  panic := hk.panic
  ncli := by simp [pushcli, hk.ncli]
  top := .of_fits rfl (by simpa [he] using hk.top.fits) fun _ => rfl
  below := hk.below
  scheduler := hk.scheduler
  intena hp _ b hb := by
    by_cases h0 : k.run.top.depth = 0
    · have hw : k.run.top.was = some e := hk.top.first e he h0
      obtain rfl : e = b := by simpa [hw] using hb
      simp [pushcli, hk.ncli, h0]
    · simpa [pushcli, hk.ncli, h0] using hk.intena hp (by omega) b hb

theorem Core.Sound.trap {k : Core P} (hk : k.Sound) (ifl : Bool) (h0 : k.run.top.depth = 0) :
    Core.Sound { k with cpu.ifl := ifl, run := ⟨.enter .kernel k.cpu.ifl, k.run.top :: k.run.below⟩ } where
  panic := hk.panic
  ncli := by simpa [h0, Frame.enter] using hk.ncli
  top := .enter_kernel _ _
  below := ⟨h0, hk.top, hk.below⟩
  scheduler := hk.scheduler
  intena _ h := by simp [Frame.enter] at h

theorem Core.Sound.resume {k : Core P} {p : P} {ctx : Context} (hk : k.Sound) (hp : k.run.top.Parked)
    (hbelow : k.run.below = []) (hc : ctx.Sound) : (k.resume p ctx).Sound := by
  have hn : k.cpu.ncli = 1 := by simpa [hp.depth] using hk.ncli
  have hi : k.cpu.ifl = false := hk.top.off (by simp [hp.depth])
  cases ctx with
  | resume intena th =>
    obtain ⟨hth, hw, hs⟩ := hc
    refine ⟨hk.panic, ?_, ?_, hs, fun _ => ⟨hp, hbelow⟩, fun _ _ => hw⟩
    · simp [Core.resume, hn, hth.depth]
    · simpa [Core.resume, hi] using hth.sound
  | forkret =>
    refine ⟨hk.panic, ?_, ?_, newborn_below, fun _ => ⟨hp, hbelow⟩, fun _ _ b hb => ?_⟩
    · simp [Core.resume, hn, newborn_parked.depth]
    · simpa [Core.resume, hi] using newborn_parked.sound
    · simp [Core.resume, newborn] at hb

theorem Core.Sound.act {context : P → Option Context} {k k' : Core P} {a : Act P} {ctx : Option (P × Context)}
    (hk : k.Sound) (hc : ∀ p c, context p = some c → c.Sound) (h : k.act context a = some (k', ctx)) :
    k'.Sound ∧ ∀ p c, ctx = some (p, c) → c.Sound := by
  cases a with
  | go ch =>
    simp only [Core.act, Option.ite_none_right_eq_some, Option.bind_eq_some_iff] at h
    obtain ⟨he, ⟨op, l⟩, hnext, h⟩ := h
    obtain ⟨d, hr, hl⟩ := hk.next he hnext
    exact hk.exec he hr hl h
  | cli =>
    simp only [Core.act, Option.map_eq_some_iff, Prod.mk.injEq] at h
    obtain ⟨e, he, rfl, rfl⟩ := h
    exact ⟨hk.cli he, by simp⟩
  | intr =>
    obtain ⟨hi, rfl, rfl⟩ := by simpa [Core.act] using h
    have h0 : k.run.top.depth = 0 := by
      by_contra h0
      simp [hk.top.off (Nat.pos_of_ne_zero h0)] at hi
    exact ⟨by simpa [hi] using hk.trap false h0, by simp⟩
  | syscall =>
    obtain ⟨hl, rfl, rfl⟩ := by simpa [Core.act] using h
    have hf := hk.top.fits
    simp only [hl, Line.Fits] at hf
    exact ⟨hk.trap k.cpu.ifl (by omega), by simp⟩
  | iret b =>
    cases hb : k.run.below with
    | nil => simp [Core.act, hb] at h
    | cons f fs =>
      obtain ⟨⟨-, -, h0, hor⟩, rfl, rfl⟩ := by simpa [Core.act, hb] using h
      obtain ⟨hf0, hf, hfs⟩ : Suspended _ (f :: fs) := hb ▸ hk.below
      refine ⟨⟨hk.panic, ?_, ?_, hfs, hk.scheduler, fun _ h => ?_⟩, by simp⟩
      · simpa [h0, hf0] using hk.ncli
      · obtain hu | rfl := hor
        · exact hf.user hu
        · exact hf
      · simp [hf0] at h
  | swtch p =>
    cases hp : context p with
    | none => simp [Core.act, hp] at h
    | some c =>
      obtain ⟨⟨-, hl, he, hd, hbelow⟩, rfl, rfl⟩ := by simpa [Core.act, hp] using h
      exact ⟨hk.resume ⟨by simp [hl, Line.Fits], hd, he⟩ hbelow (hc p c hp), by simp⟩

theorem Machine.Sound.boot : (boot : Machine C P).Sound :=
  ⟨fun _ => ⟨rfl, rfl, .of_fits rfl rfl (fun h => by simp [Cli.boot, Frame.enter] at h), trivial,
    by simp [Cli.boot], by simp [Cli.boot]⟩, by simp [Cli.boot]⟩

/-- The choice `ch` makes the process running here execute the `popcli` that undoes its outermost `pushcli`, at which
interrupts were enabled exactly if `b`. -/
def Core.Unwinds (k : Core P) (ch : Choice) (b : Bool) : Prop :=
  k.proc.isSome ∧ k.run.top.depth = 1 ∧ k.run.top.was = some b ∧
    (k.run.top.next k.proc.isSome ch).map Prod.fst = some .popcli

instance (k : Core P) (ch : Choice) (b : Bool) : Decidable (k.Unwinds ch b) :=
  inferInstanceAs (Decidable (_ ∧ _ ∧ _ ∧ _))

theorem Core.Sound.unwind {context : P → Option Context} {k k' : Core P} {ctx : Option (P × Context)} {ch : Choice}
    {b : Bool} (hk : k.Sound) (hu : k.Unwinds ch b) (h : k.act context (.go ch) = some (k', ctx)) :
    k'.cpu.ifl = b := by
  obtain ⟨hp, hd, hw, hpop⟩ := hu
  simp only [Core.act, Option.ite_none_right_eq_some, Option.bind_eq_some_iff] at h
  obtain ⟨-, ⟨op, l⟩, hnext, h⟩ := h
  obtain rfl : op = .popcli := by simpa [hnext] using hpop
  have hn : k.cpu.ncli = 1 := by simpa [hd] using hk.ncli
  have hok := popcli_ok (hk.top.off (by omega)) (by omega)
  obtain ⟨rfl, -⟩ := by simpa [Core.exec, hok] using h
  simpa [hn] using hk.intena hp (by omega) b hw

section Runs

variable [DecidableEq C] [DecidableEq P]

theorem Machine.Sound.save {context : P → Option Context} {ctx : Option (P × Context)}
    (hc : ∀ p c, context p = some c → c.Sound) (h : ∀ p c, ctx = some (p, c) → c.Sound) :
    ∀ p c, save context ctx p = some c → c.Sound := by
  intro p c hs
  obtain _ | ⟨q, c'⟩ := ctx
  · exact hc p c hs
  · by_cases hq : p = q
    · subst hq
      obtain rfl := by simpa [Cli.save] using hs
      exact h p c' rfl
    · exact hc p c (by simpa [Cli.save, Function.update_of_ne hq] using hs)

theorem Machine.Sound.step {m m' : Machine C P} {l : Label C P} (hm : m.Sound) (h : step m l = some m') :
    m'.Sound := by
  cases l with
  | cpu c a =>
    obtain ⟨-, k, ctx, hk, rfl⟩ := by simpa [Cli.step] using h
    obtain ⟨hs, hctx⟩ := (hm.core c).act hm.context hk
    refine ⟨fun d => ?_, Machine.Sound.save hm.context hctx⟩
    by_cases hd : d = c
    · subst hd
      simpa using hs
    · simpa [Function.update_of_ne hd] using hm.core d
  | allocproc p =>
    obtain rfl := by simpa [Cli.step] using h
    have hnew : ∀ q c, some (p, Context.forkret) = some (q, c) → c.Sound := by
      rintro q c ⟨⟩
      trivial
    exact ⟨hm.core, Machine.Sound.save hm.context hnew⟩

/-- **Interrupt-enable state is per process.** On any number of CPUs, in every interleaving of processes that go
through `sched` by `yield`, `sleep`, `wait`, `sigpause` or `exit` and of new processes entering through `forkret`, no
CPU panics in `sched` or `popcli` over interrupts, and the `popcli` that undoes a process's outermost `pushcli` leaves
interrupts enabled exactly if they were enabled at that `pushcli`. -/
theorem interrupts_kept_per_process {tr : List (Machine C P × Label C P)} {t : Machine C P}
    (h : Lib.Path step Lib.free boot tr t) :
    (∀ c, (t.core c).panic = none) ∧
      ∀ s c ch b s', (s, .cpu c (.go ch)) ∈ tr → (s.core c).Unwinds ch b → step s (.cpu c (.go ch)) = some s' →
        (s'.core c).cpu.ifl = b := by
  have sound {tr t} (h : Lib.Path step Lib.free (boot : Machine C P) tr t) : t.Sound :=
    h.inv (I := Machine.Sound) .boot fun _ _ _ hs _ hstep => hs.step hstep
  refine ⟨fun c => ((sound h).core c).panic, fun s c ch b s' hm hu hs => ?_⟩
  obtain ⟨tr', hp⟩ := h.mem hm
  obtain ⟨-, k, ctx, hk, rfl⟩ := by simpa [Cli.step] using hs
  simpa using ((sound hp).core c).unwind hu hk

/-- A process calls `wait` on one of two CPUs, with interrupts enabled, and is resumed on the other. -/
def migration : List (Label Bool Unit) :=
  [.cpu false (.go .go), .cpu false (.go .go), .cpu false .cli, .allocproc (), .cpu false (.swtch ()),
    .cpu false (.go .go), .cpu false (.iret true), .cpu false .syscall, .cpu false (.go .wait), .cpu false .cli,
    .cpu false (.go .go), .cpu true (.go .go), .cpu true (.go .go), .cpu true .cli, .cpu true (.swtch ())]

theorem interrupts_kept_per_process_migrating :
    ∃ tr s t, Lib.Path step Lib.free (boot : Machine Bool Unit) tr t ∧
      (s, .cpu true (.go .done)) ∈ tr ∧ (s.core true).Unwinds .done true ∧
      (∀ c, (t.core c).panic = none) ∧ (t.core true).cpu.ifl = true := by
  obtain ⟨s, hp, hu, hs⟩ := Lib.exists_path step Lib.free boot migration
    (fun s => (s.core true).Unwinds .done true ∧ (step s (.cpu true (.go .done))).isSome) (by decide +kernel)
  obtain ⟨t, ht⟩ := Option.isSome_iff_exists.mp hs
  have hpath := hp.snoc trivial ht
  obtain ⟨hpanic, hflag⟩ := interrupts_kept_per_process hpath
  exact ⟨_, s, t, hpath, by simp, hu, hpanic, hflag s true .done true t (by simp) hu ht⟩

/-- **Handlers interrupt nothing that is locked.** On any number of CPUs and in every interleaving, `ncli` counts the
`pushcli` that the running activation has still to undo, interrupts are off as long as there are any, and an activation
below it, that an interrupt or a system call has suspended, has none: a handler never spins on a lock of the code that
it has interrupted. -/
theorem suspended_hold_no_lock {tr : List (Machine C P × Label C P)} {t : Machine C P}
    (h : Lib.Path step Lib.free boot tr t) (c : C) :
    (t.core c).cpu.ncli = (t.core c).run.top.depth ∧ (0 < (t.core c).cpu.ncli → (t.core c).cpu.ifl = false) ∧
      ∀ f ∈ (t.core c).run.below, f.depth = 0 := by
  have hm : t.Sound := h.inv (I := Machine.Sound) .boot fun _ _ _ hs _ hstep => hs.step hstep
  have hk := hm.core c
  refine ⟨hk.ncli, fun hpos => hk.top.off ?_, hk.below.depth⟩
  rw [hk.ncli] at hpos
  exact_mod_cast hpos

/-- The scheduler is interrupted before its `pushcli`, and the handler takes a lock. -/
theorem suspended_hold_no_lock_handler : ∃ tr t, Lib.Path step Lib.free (boot : Machine Unit Unit) tr t ∧
    (t.core ()).cpu.ncli = 1 ∧ (t.core ()).cpu.ifl = false ∧ (t.core ()).run.below.length = 1 ∧
      ∀ f ∈ (t.core ()).run.below, f.depth = 0 := by
  obtain ⟨t, hp, hn, hl⟩ := Lib.exists_path step Lib.free (boot : Machine Unit Unit)
    [.cpu () (.go .go), .cpu () .intr, .cpu () (.go .acquire), .cpu () .cli]
    (fun t => (t.core ()).cpu.ncli = 1 ∧ (t.core ()).run.below.length = 1) (by decide +kernel)
  obtain ⟨-, hoff, hbelow⟩ := suspended_hold_no_lock hp ()
  exact ⟨_, t, hp, hn, hoff (by omega), hl, hbelow⟩

end Runs

end Xv6.Cli
