import Xv6.Trap.Ghost

/-!
# One handler at a time, and the context it interrupted

`activations tr q` are the handler activations of the program that `q` runs after the trace `tr`, the youngest first,
each with the user context that it interrupted: `fix_tf` adds one when it raises `handling_signal`, `sigret` ends the
youngest, `fork` gives the new process those of its parent, and a new program starts with none.
-/

namespace Xv6.Trap

open Lib

/-! ## Activations of handlers -/

/-- The activations of a process after one of its steps. -/
def Task.activated (t : Task) (A : List Trapframe) : Act → List Trapframe
  | .intr => if t.Delivers then t.tf :: A else A
  | .go =>
    match t.ctl with
    | .fix (.set _) => t.tf :: A
    | .restored => A.tail
    | .exec _ .handler => []
    | _ => A
  | _ => A

/-- The record of activations: `fork`'s copy of the trap frame gives the new process those of its parent. -/
def activationGhost : Ghost (List Trapframe) where
  own := Task.activated
  copy f A A' := if f = .tf then A else A'

/-- The activations after a run that starts with `boot`. -/
def activations (tr : List (State × Label)) : Slot → List Trapframe := activationGhost.after [] tr

/-! ## The condition -/

/-- The statements that rely on `handling_signal` being 0: `fix_tf` saves the frame and raises the flag, `fork` copies
the frame, `exec` resets the handler. -/
def Ctl.exclusive : Ctl → Bool
  | .fix (.save _) | .fix (.set _) | .fork _ .tf | .exec _ .handler => true
  | _ => false

/-- They are executed while the flag is down. -/
def Alone (s : State) : Label → Prop
  | .own q .go | .copy q _ => (s q).ctl.exclusive = true → (s q).handlingSignal = false
  | _ => True

instance (s : State) : (l : Label) → Decidable (Alone s l)
  | .own q .go | .copy q _ =>
    inferInstanceAs (Decidable ((s q).ctl.exclusive = true → (s q).handlingSignal = false))
  | .own _ (.run _ _) | .own _ .trap | .own _ .intr | .own _ (.poke _) | .own _ (.grow _ _) | .own _ .sigset
  | .own _ .sigret | .own _ (.exec _) | .own _ (.ret _) | .own _ (.pend _) | .own _ .exit | .alloc _ _ | .nomem _ =>
    .isTrue trivial

/-! ## The invariant -/

/-- The flag and the saved frame of a process with the activations `A`. -/
structure Task.Tracked (A : List Trapframe) (t : Task) : Prop where
  up : t.handlingSignal = true → A = [t.oldTf]
  down : t.handlingSignal = false → A = []
  /-- Between the save of the frame and the raise of the flag. -/
  saving : ∀ i, t.ctl = .fix (.set i) → t.handlingSignal = false → t.oldTf = t.tf

theorem Task.Tracked.same {A : List Trapframe} {t t' : Task} (h : t.Tracked A)
    (hh : t'.handlingSignal = t.handlingSignal) (ho : t'.oldTf = t.oldTf) (hc : ∀ i, t'.ctl ≠ .fix (.set i)) :
    t'.Tracked A where
  up e := by rw [ho]; exact h.up (hh ▸ e)
  down e := h.down (hh ▸ e)
  saving i e := absurd e (hc i)

theorem dispatch_ne_fix (n : Word) (pc : FixTf) : dispatch n ≠ .fix pc := by
  unfold dispatch
  split <;> simp

theorem Task.activated_fix {A : List Trapframe} {t : Task} {pc : FixTf} (hc : t.ctl = .fix pc)
    (hset : ∀ i, pc ≠ .set i) : t.activated A .go = A := by
  cases pc with
  | set i => exact absurd rfl (hset i)
  | _ => simp [Task.activated, hc]

theorem Task.Tracked.fixes {A : List Trapframe} {t t' : Task} {pc : FixTf} (h : t.Tracked A) (hc : t.ctl = .fix pc)
    (hx : t.ctl.exclusive = true → t.handlingSignal = false) (hf : t.Fixes pc t') : t'.Tracked (t.activated A .go) := by
  by_cases hset : ∃ i, pc = .set i
  · obtain ⟨i, rfl⟩ := hset
    have hdown := hx (by simp [hc, Ctl.exclusive])
    have hA : t.activated A .go = [t.oldTf] := by simp [Task.activated, hc, h.down hdown, h.saving i hc hdown]
    rw [hA]
    cases hf with
    | next hs =>
      cases hs with
      | set e => exact ⟨fun _ => rfl, fun e => by simp at e, fun j e => by simp at e⟩
      | test e | used e => simp [FixTf.testing] at e
      | save e => simp at e
      | push e => simp [FixTf.pushing] at e
    | last hs =>
      cases hs with
      | leave e => simp [FixTf.testing] at e
      | eip e => simp at e
  · have hset' : ∀ i, pc ≠ .set i := fun i e => hset ⟨i, e⟩
    rw [Task.activated_fix hc hset']
    cases hf with
    | next hs =>
      cases hs with
      | set e => exact absurd e (hset' _)
      | save e =>
        have hdown := hx (by simp [hc, e, Ctl.exclusive])
        exact ⟨fun e => absurd (hdown.symm.trans e) (by simp), h.down, fun _ _ _ => rfl⟩
      | test _ e =>
        refine h.same rfl rfl fun i e' => ?_
        obtain rfl := Ctl.fix.inj e'
        simp [FixTf.testing] at e
      | used e => exact h.same rfl rfl (by simp)
      | push _ e =>
        refine h.same rfl rfl fun i e' => ?_
        obtain rfl := Ctl.fix.inj e'
        simp [FixTf.pushing] at e
    | last hs =>
      cases hs with
      | leave | eip => exact h.same rfl rfl (by simp)

theorem Task.Tracked.moves {A : List Trapframe} {t t' : Task} {a : Act} (h : t.Tracked A) (hm : Moves t a t')
    (hx : a = .go → t.ctl.exclusive = true → t.handlingSignal = false) : t'.Tracked (t.activated A a) := by
  cases hm with
  | run hc => exact h.same rfl rfl (by simp [hc])
  | trap hc => exact h.same rfl rfl fun i => dispatch_ne_fix _ _
  | intr hl =>
    by_cases hd : t.Delivers
    · have hA : t.activated A .intr = [t.tf] := by simp [Task.activated, hd, h.down hd.2.1]
      rw [hA, fixTf_delivers hd]
      exact ⟨fun _ => rfl, fun e => by simp at e, fun i _ e => by simp at e⟩
    · have hA : t.activated A .intr = A := by simp [Task.activated, hd]
      rw [hA, fixTf_idle hd]
      exact ⟨h.up, h.down, h.saving⟩
  | pend => exact ⟨h.up, h.down, h.saving⟩
  | poke hc => exact h.same rfl rfl (by simp [hc])
  | grow hc => exact h.same rfl rfl (by simp [hc])
  | sigsetFail hc | sigset hc | exec hc | ret hc => exact h.same rfl rfl (by simp)
  | sigret hc => exact h.same rfl rfl (by simp)
  | restored hc =>
    -- `sigret` ends the activation, if there is one
    have hA : t.activated A .go = [] := by
      simp only [Task.activated, hc]
      cases hh : t.handlingSignal with
      | true => simp [h.up hh]
      | false => simp [h.down hh]
    rw [hA]
    exact ⟨fun e => by simp at e, fun _ => rfl, fun i e => by simp at e⟩
  | @commit img pc hc =>
    cases pc with
    | pgdir | eip | esp =>
      have hA : t.activated A .go = A := by simp [Task.activated, hc]
      rw [hA]
      exact h.same rfl rfl (by simp [ExecAt.step])
    | handler =>
      have hdown := hx rfl (by simp [hc, Ctl.exclusive])
      have hA : t.activated A .go = A := by simp [Task.activated, hc, h.down hdown]
      rw [hA]
      exact h.same rfl rfl (by simp [ExecAt.step])
  | done hc =>
    have hA : t.activated A .go = A := by simp [Task.activated, hc]
    rw [hA]
    exact h.same rfl rfl (by simp)
  | @fix pc hc => exact h.fixes hc (hx rfl) (t.fixes pc)
  | exit hl => exact h.same rfl rfl (by simp)

theorem Task.Tracked.ctl {A : List Trapframe} {t : Task} (h : t.Tracked A) {k : Ctl} (hk : ∀ i, k ≠ .fix (.set i)) :
    { t with ctl := k }.Tracked A :=
  h.same rfl rfl hk

theorem ForkAt.after_ne_fix (f : ForkAt) (c : Slot) (pid : Word) (pc : FixTf) : f.after c pid ≠ .fix pc := by
  unfold ForkAt.after
  split <;> simp

theorem tracked_kept :
    activationGhost.Kept Alone (fun A t => t.ctl.live = true → t.Tracked A)
      (fun f A t => t.handlingSignal = false ∧ (f.copied = true → A = [])) where
  own s q a t A hok hm h hl := (h (hm.live_before hl)).moves hm fun e => by subst e; exact hok
  pend _ _ _ _ h := h
  alloc A t _ _ :=
    ⟨fun hl => by simp [Task.alloc, Ctl.live] at hl, rfl, fun hf => by simp [ForkAt.copied] at hf⟩
  enter A t c hc h _ := (h (by simp [hc, Ctl.live])).ctl (by simp)
  parent A t c f pid hc h _ := (h (by simp [hc, Ctl.live])).ctl fun i => ForkAt.after_ne_fix f c pid _
  child s q pid A np A' c f hok hq hnp h _ hk := by
    obtain ⟨hdown, hnone⟩ := hk
    cases f with
    | vm =>
      refine ⟨fun hl => by simp [ForkAt.step, hnp, Ctl.live] at hl, fun f' hn => ⟨hdown, fun hf => ?_⟩⟩
      obtain rfl : ForkAt.tf = f' := by simpa [ForkAt.next] using hn
      simp [ForkAt.copied] at hf
    | tf =>
      have hq' : (s q).handlingSignal = false := hok (by simp [hq, Ctl.exclusive])
      refine ⟨fun hl => by simp [ForkAt.step, hnp, Ctl.live] at hl, fun f' _ => ⟨hdown, fun _ => ?_⟩⟩
      exact (h (by simp [hq, Ctl.live])).down hq'
    | eax | handler =>
      exact ⟨fun hl => by simp [ForkAt.step, hnp, Ctl.live] at hl, fun f' _ => ⟨hdown, fun _ => hnone rfl⟩⟩
    | run =>
      have hA : activationGhost.copy .run A A' = [] := hnone rfl
      refine ⟨fun _ => ?_, fun f' hn => by simp [ForkAt.next] at hn⟩
      rw [hA]
      exact ⟨fun e => absurd (hdown.symm.trans e) (by simp), fun _ => rfl, fun i e => by simp [ForkAt.step] at e⟩
  fail A t c hc h _ := (h (by simp [hc, Ctl.live])).ctl (by simp)
  free A t hc h hl := by simp [Ctl.live] at hl

theorem tracked_boot (q : Slot) (_ : (boot q).ctl.live = true) : (boot q).Tracked [] := by
  refine ⟨fun e => by simp [boot] at e, fun _ => rfl, fun i e => ?_⟩
  simp only [boot] at e
  split at e <;> simp at e

/-- **One handler at a time, with the right saved context**: in every run in which the frame is saved, the flag raised,
the frame copied by `fork` and the handler reset by `exec` only while `handling_signal` is 0, the flag of a process is 1
exactly when its program has one handler activation, it never has more, and `old_tf` is the context it interrupted. -/
theorem one_activation {tr : List (State × Label)} {s : State} {q : Slot} (h : Path step Alone boot tr s)
    (hl : (s q).ctl.live = true) :
    ((s q).handlingSignal = true ↔ (activations tr q).length = 1) ∧ (activations tr q).length ≤ 1 ∧
      ((s q).handlingSignal = true → activations tr q = [(s q).oldTf]) := by
  obtain ⟨hup, hdown, -⟩ : (s q).Tracked (activations tr q) := Ghost.invariant [] tracked_kept tracked_boot h q hl
  cases hh : (s q).handlingSignal with
  | true => simp [hup hh]
  | false => simp [hdown hh]

/-- A signal is delivered to `initproc`, and its handler makes a system call. -/
theorem one_activation_in_handler :
    ∃ tr s, Path step Alone boot tr s ∧ (s 0).handlingSignal = true ∧ activations tr 0 = [userinitTf] ∧
      ((s 0).handlingSignal = true ↔ (activations tr 0).length = 1) := by
  obtain ⟨s, hp, hl, hh⟩ := exists_path step Alone boot
    (goes 0 3 ++ [.own 0 (.pend oneSignal), .own 0 .intr] ++ calls 11)
    (fun s => (s 0).ctl.live = true ∧ (s 0).handlingSignal = true) (by decide +kernel)
  exact ⟨_, s, hp, hh, by decide +kernel, (one_activation hp hl).1⟩

/-- Three runs after which flag, saved frame and activations disagree: a nested interrupt delivers a signal inside the
`fix_tf` of a system call that has popped another; a child is forked in a handler; a program is started in one. -/
theorem activations_go_wrong :
    (∃ tr s, Path step free boot tr s ∧ (s 0).ctl.live = true ∧ (activations tr 0).length = 2) ∧
      (∃ tr s, Path step free boot tr s ∧ (s 1).ctl.live = true ∧ activations tr 1 = [userinitTf] ∧
        (s 1).handlingSignal = false ∧ (s 1).oldTf = .zero) ∧
      ∃ tr s, Path step free boot tr s ∧ (s 0).ctl.live = true ∧ activations tr 0 = [] ∧
        (s 0).handlingSignal = true := by
  refine ⟨?_, ?_, ?_⟩
  · obtain ⟨s, hp, h⟩ := exists_path step free boot
      (goes 0 3 ++ calls 11 ++ [.own 0 (.ret 2)] ++ goes 0 3 ++ [.own 0 (.pend oneSignal)] ++ goes 0 4 ++
        [.own 0 (.pend oneSignal), .own 0 .intr] ++ goes 0 2)
      (fun s => (s 0).ctl.live = true) (by decide +kernel)
    exact ⟨_, s, hp, h, by decide +kernel⟩
  · obtain ⟨s, hp, hl, hh, ho⟩ := exists_path step free boot
      (goes 0 3 ++ [.own 0 (.pend oneSignal), .own 0 .intr] ++ calls SYS_fork ++ [.alloc 0 1] ++
        List.replicate 5 (.copy 0 3))
      (fun s => (s 1).ctl.live = true ∧ (s 1).handlingSignal = false ∧ (s 1).oldTf = .zero) (by decide +kernel)
    exact ⟨_, s, hp, hl, by decide +kernel, hh, ho⟩
  · obtain ⟨s, hp, hl, hh⟩ := exists_path step free boot
      (goes 0 3 ++ [.own 0 (.pend oneSignal), .own 0 .intr] ++ calls SYS_exec ++
        [.own 0 (.exec ⟨fun _ => 0, 8192, 0, 8000⟩)] ++ goes 0 4)
      (fun s => (s 0).ctl.live = true ∧ (s 0).handlingSignal = true) (by decide +kernel)
    exact ⟨_, s, hp, hl, by decide +kernel, hh⟩

end Xv6.Trap
