import Xv6.Trap.Ghost

/-!
# User mode stays user mode

The frame with which `trapret` returns selects user segments, I/O privilege level 0 and enabled interrupts
(`Trapframe.User`). Every frame that the kernel makes comes from the frame of `userinit` or from a trap in user mode,
except the one that `sigret` copies from `old_tf`: a slot of the process table in which no signal has been delivered yet
has zeros there.
-/

namespace Xv6.Trap

open Lib

/-- The frame of a process in user mode. -/
structure Trapframe.User (tf : Trapframe) : Prop where
  cs : rpl tf.cs = DPL_USER
  ss : rpl tf.ss = DPL_USER
  iopl : tf.eflags &&& FL_IOPL_MASK = 0
  interrupts : tf.eflags &&& FL_IF = FL_IF

instance (tf : Trapframe) : Decidable tf.User :=
  decidable_of_iff
    (rpl tf.cs = DPL_USER ∧ rpl tf.ss = DPL_USER ∧ tf.eflags &&& FL_IOPL_MASK = 0 ∧ tf.eflags &&& FL_IF = FL_IF)
    ⟨fun ⟨h1, h2, h3, h4⟩ => ⟨h1, h2, h3, h4⟩, fun ⟨h1, h2, h3, h4⟩ => ⟨h1, h2, h3, h4⟩⟩

theorem Trapframe.User.congr {tf tf' : Trapframe} (h : tf.User) (hcs : tf'.cs = tf.cs) (hss : tf'.ss = tf.ss)
    (hfl : tf'.eflags = tf.eflags) : tf'.User :=
  ⟨hcs ▸ h.cs, hss ▸ h.ss, hfl ▸ h.iopl, hfl ▸ h.interrupts⟩

theorem Trapframe.User.move {tf tf' : Trapframe} (h : tf.User) (hm : UserMove tf tf') : tf'.User :=
  ⟨hm.1.trans h.cs, hm.2.1.trans h.ss, hm.2.2.2.trans h.iopl, hm.2.2.1.trans h.interrupts⟩

theorem userinitTf_user : userinitTf.User := by decide

/-! ## The invariant -/

/-- A frame that is saved in `old_tf`, or the zeros of a slot in which none has been. -/
def Trapframe.Saved (tf : Trapframe) : Prop := tf = .zero ∨ tf.User

/-- A process that can run is in user mode, and `old_tf` holds a user frame or zeros. -/
structure Task.Private (t : Task) : Prop where
  user : t.ctl.live = true → t.tf.User
  saved : t.oldTf.Saved

/-- `sigret` is called only where `fix_tf` has saved a frame. -/
def AfterDelivery (s : State) : Label → Prop
  | .own q .sigret => (s q).oldTf ≠ .zero
  | _ => True

instance (s : State) : (l : Label) → Decidable (AfterDelivery s l)
  | .own q .sigret => inferInstanceAs (Decidable ((s q).oldTf ≠ .zero))
  | .own _ (.run _ _) | .own _ .trap | .own _ .intr | .own _ (.poke _) | .own _ (.grow _ _) | .own _ .sigset
  | .own _ (.exec _) | .own _ (.ret _) | .own _ .go | .own _ (.pend _) | .own _ .exit | .alloc _ _ | .copy _ _
  | .nomem _ => .isTrue trivial

theorem Task.Private.fixes {t t' : Task} {pc : FixTf} (h : t.Private) (hl : t.ctl.live = true) (hf : t.Fixes pc t') :
    t'.Private := by
  have hu := h.user hl
  cases hf with
  | next hs =>
    cases hs with
    | test | set | used => exact ⟨fun _ => hu, h.saved⟩
    | save => exact ⟨fun _ => hu, .inr hu⟩
    | push => exact ⟨fun _ => hu.congr rfl rfl rfl, h.saved⟩
  | last hs =>
    cases hs with
    | leave => exact ⟨fun _ => hu, h.saved⟩
    | eip => exact ⟨fun _ => hu.congr rfl rfl rfl, h.saved⟩

theorem Task.Private.moves {t t' : Task} {a : Act} (h : t.Private) (hm : Moves t a t')
    (hs : a = .sigret → t.oldTf ≠ .zero) : t'.Private := by
  obtain ⟨hu, ho⟩ := h
  cases hm with
  | run hc _ hm => exact ⟨fun _ => (hu (by simp [hc, Ctl.live])).move hm, ho⟩
  | trap hc => exact ⟨fun _ => hu (by simp [hc, Ctl.live]), ho⟩
  | intr hl =>
    by_cases hd : t.Delivers
    · rw [fixTf_delivers hd]
      exact ⟨fun _ => (hu hl).congr rfl rfl rfl, .inr (hu hl)⟩
    · rw [fixTf_idle hd]
      exact ⟨fun _ => hu hl, ho⟩
  | pend => exact ⟨hu, ho⟩
  | poke hc => exact ⟨hu, ho⟩
  | grow hc => exact ⟨hu, ho⟩
  | sigsetFail hc | sigset hc | exec hc | restored hc | ret hc => exact ⟨fun _ => hu (by simp [hc, Ctl.live]), ho⟩
  | sigret hc => exact ⟨fun _ => ho.resolve_left (hs rfl), ho⟩
  | @commit img pc hc =>
    have hu := hu (by simp [hc, Ctl.live])
    cases pc with
    | pgdir | handler => exact ⟨fun _ => hu, ho⟩
    | eip | esp => exact ⟨fun _ => hu.congr rfl rfl rfl, ho⟩
  | done hc => exact ⟨fun _ => (hu (by simp [hc, Ctl.live])).congr rfl rfl rfl, ho⟩
  | @fix pc hc => exact .fixes ⟨hu, ho⟩ (by simp [hc, Ctl.live]) (t.fixes pc)
  | exit => exact ⟨fun hl => by simp [Ctl.live] at hl, ho⟩

theorem Task.Private.copy {t np : Task} {f : ForkAt} (hn : np.oldTf.Saved) (hc : np.ctl = .embryo)
    (hcopied : f.copied = true → np.tf.User) : (f.step t np).Private := by
  cases f with
  | vm | tf | eax | handler => exact ⟨fun hl => by simp [ForkAt.step, hc, Ctl.live] at hl, hn⟩
  | run => exact ⟨fun _ => hcopied rfl, hn⟩

theorem ForkAt.step_user {t np : Task} {f f' : ForkAt} (hu : t.tf.User) (hn : f.copied = true → np.tf.User)
    (hf : f.next = some f') (hc : f'.copied = true) : (f.step t np).tf.User := by
  cases f with
  | vm =>
    obtain rfl : ForkAt.tf = f' := by simpa [ForkAt.next] using hf
    simp [ForkAt.copied] at hc
  | tf => exact hu
  | eax => exact (hn rfl).congr rfl rfl rfl
  | handler => exact hn rfl
  | run => simp [ForkAt.next] at hf

theorem Task.Private.ctl {t : Task} (h : t.Private) (hl : t.ctl.live = true) (k : Ctl) : { t with ctl := k }.Private :=
  ⟨fun _ => h.user hl, h.saved⟩

/-- No record is needed. -/
def noGhost : Ghost Unit := ⟨fun _ _ _ => (), fun _ _ _ => ()⟩

theorem private_kept :
    noGhost.Kept AfterDelivery (fun _ t => t.Private) (fun f _ t => f.copied = true → t.tf.User) where
  own s q a t _ hok hm h := h.moves hm fun e => by subst e; exact hok
  pend _ _ _ _ h := h
  alloc _ t _ h := ⟨⟨fun hl => by simp [Task.alloc, Ctl.live] at hl, h.saved⟩, fun hf => by simp [ForkAt.copied] at hf⟩
  enter _ t c hc h := h.ctl (by simp [hc, Ctl.live]) _
  parent _ t c f pid hc h := h.ctl (by simp [hc, Ctl.live]) _
  child s q pid _ np _ c f _ hq hnp h h' hk :=
    ⟨.copy h'.saved hnp hk, fun f' hn hf => ForkAt.step_user (h.user (by simp [hq, Ctl.live])) hk hn hf⟩
  fail _ t c hc h := h.ctl (by simp [hc, Ctl.live]) _
  free _ t _ h := ⟨fun hl => by simp [Ctl.live] at hl, h.saved⟩

theorem private_boot (q : Slot) : (boot q).Private := by
  refine ⟨fun hl => ?_, .inl rfl⟩
  by_cases h : q = 0
  · simp only [boot, h, ↓reduceIte]
    exact userinitTf_user
  · simp [boot, h, Ctl.live] at hl

/-- **User mode stays user mode**: in every run whose `sigret` calls find a frame saved by `fix_tf`, the frame of every
process that can run is a user frame, hence every frame with which `trapret` returns. -/
theorem user_mode_kept {tr : List (State × Label)} {s : State} {q : Slot} (h : Path step AfterDelivery boot tr s)
    (hl : (s q).ctl.live = true) : (s q).tf.User := by
  exact (Ghost.invariant () private_kept private_boot h q).user hl

/-- `initproc` returns from `sigret` after a signal was delivered to it. -/
theorem user_mode_kept_after_sigret :
    ∃ tr s, Path step AfterDelivery boot tr s ∧ (s 0).ctl.isUser = true ∧ (s 0).tf.User := by
  obtain ⟨s, hp, hu, hl⟩ := exists_path step AfterDelivery boot
    (goes 0 3 ++ [.own 0 (.pend oneSignal), .own 0 .intr] ++ sigretCall 3)
    (fun s => (s 0).ctl.isUser = true ∧ (s 0).ctl.live = true) (by decide +kernel)
  exact ⟨_, s, hp, hu, user_mode_kept hp hl⟩

/-- `initproc` calls `sigret` before any signal: `trapret` returns with the code segment 0. -/
theorem sigret_returns_to_kernel :
    ∃ tr s, Path step free boot tr s ∧ (s 0).ctl.isUser = true ∧ (s 0).tf = .zero ∧ rpl (s 0).tf.cs = 0 := by
  obtain ⟨s, hp, h⟩ := exists_path step free boot (goes 0 3 ++ sigretCall 1)
    (fun s => (s 0).ctl.isUser = true ∧ (s 0).tf = .zero ∧ rpl (s 0).tf.cs = 0) (by decide +kernel)
  exact ⟨_, s, hp, h⟩

end Xv6.Trap
