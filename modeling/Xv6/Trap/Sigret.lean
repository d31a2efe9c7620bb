import Xv6.Trap.Ghost

/-!
# The round trip of a signal

`fix_tf` saves the user context `U` in which it delivers a signal, the handler runs, the trampoline calls `sigret`, and
the kernel returns to user mode. While the handler runs nothing touches the saved frame (`Handling.moves`), and `sigret`
restores it; but then `syscall` stores the return value 0 in its `eax`, and the `fix_tf` on the way back may deliver the
next signal at once.
-/

namespace Xv6.Trap

open Lib

/-! ## Steps seen by one process -/

theorem Steps.at_live {s s' : State} {l : Label} {q : Slot} (h : Steps s l s') (hb : Born s)
    (hl : (s q).ctl.live = true) :
    s' q = s q ∨ (∃ a, l = .own q a ∧ Moves (s q) a (s' q)) ∨
      ∃ k, s' q = { s q with ctl := k } ∧ ((s q).ctl = .call SYS_fork ∨ ∃ c f, (s q).ctl = .fork c f) ∧
        ((∃ c f, k = .fork c f) ∨ ∃ v, k = .done v) := by
  cases h with
  | @own r a t hm =>
    by_cases e : q = r
    · subst e
      exact .inr (.inl ⟨a, rfl, by rwa [Function.update_self]⟩)
    · exact .inl (Function.update_of_ne e _ _)
  | @alloc r c hr hc =>
    by_cases e : q = r
    · subst e
      exact .inr (.inr ⟨_, Function.update_self .., .inl hr, .inl ⟨_, _, rfl⟩⟩)
    · have hne : q ≠ c := fun e' => by simp [e', hc, Ctl.live] at hl
      exact .inl (update₂_other e hne)
  | @copy r c f pid hr =>
    by_cases e : q = r
    · subst e
      refine .inr (.inr ⟨_, Function.update_self .., .inr ⟨c, f, hr⟩, ?_⟩)
      exact f.after_cases c pid
    · have hne : q ≠ c := fun e' => by simp [e', hb.embryo r c f hr, Ctl.live] at hl
      exact .inl (update₂_other e hne)
  | @nomem r c hr =>
    by_cases e : q = r
    · subst e
      exact .inr (.inr ⟨_, Function.update_self .., .inr ⟨c, .vm, hr⟩, .inr ⟨_, rfl⟩⟩)
    · have hne : q ≠ c := fun e' => by simp [e', hb.embryo r c .vm hr, Ctl.live] at hl
      exact .inl (update₂_other e hne)

/-! ## While the handler runs -/

/-- The process does not call `sigret` and does not exit. -/
def InHandler (q : Slot) (_ : State) : Label → Prop
  | .own r .sigret | .own r .exit => r ≠ q
  | _ => True

instance (q : Slot) (s : State) : (l : Label) → Decidable (InHandler q s l)
  | .own r .sigret | .own r .exit => inferInstanceAs (Decidable (r ≠ q))
  | .own _ (.run _ _) | .own _ .trap | .own _ .go | .own _ .intr | .own _ (.poke _) | .own _ (.grow _ _)
  | .own _ .sigset | .own _ (.exec _) | .own _ (.ret _) | .own _ (.pend _) | .alloc _ _ | .copy _ _ | .nomem _ =>
    .isTrue trivial

/-- The saved frame is `U` and the flag is up; a `fix_tf` in this process is at one of its first two tests. -/
structure Task.Handling (U : Trapframe) (t : Task) : Prop where
  live : t.ctl.live = true
  saved : t.oldTf = U
  up : t.handlingSignal = true
  restored : t.ctl ≠ .restored
  fix : ∀ pc, t.ctl = .fix pc → pc = .cs ∨ pc = .handling

theorem Task.Handling.not_delivers {U : Trapframe} {t : Task} (h : t.Handling U) : ¬ t.Delivers := fun hd => by
  have := hd.2.1
  simp [h.up] at this

theorem Task.Handling.same {U : Trapframe} {t t' : Task} (h : t.Handling U) (ho : t'.oldTf = t.oldTf)
    (hh : t'.handlingSignal = t.handlingSignal) (hl : t'.ctl.live = true) (hr : t'.ctl ≠ .restored)
    (hf : ∀ pc, t'.ctl = .fix pc → pc = .cs) : t'.Handling U :=
  ⟨hl, ho.trans h.saved, hh.trans h.up, hr, fun pc e => .inl (hf pc e)⟩

theorem dispatch_live (n : Word) : (dispatch n).live = true := by
  unfold dispatch
  split <;> rfl

theorem Task.Handling.moves {U : Trapframe} {t t' : Task} {a : Act} (h : t.Handling U) (hm : Moves t a t')
    (hs : a ≠ .sigret) (hx : a ≠ .exit) : t'.Handling U := by
  cases hm with
  | run hc => exact h.same rfl rfl h.live h.restored (by simp [hc])
  | trap hc =>
    refine h.same rfl rfl (dispatch_live _) ?_ ?_
    all_goals
      simp only [dispatch]
      split <;> simp
  | intr hl =>
    rw [fixTf_idle h.not_delivers]
    exact ⟨h.live, h.saved, h.up, h.restored, h.fix⟩
  | pend => exact ⟨h.live, h.saved, h.up, h.restored, h.fix⟩
  | poke hc | grow hc => exact h.same rfl rfl h.live h.restored (by simp [hc])
  | sigsetFail hc | sigset hc | exec hc | ret hc => exact h.same rfl rfl rfl (by simp) (by simp)
  | sigret hc => exact absurd rfl hs
  | restored hc => exact absurd hc h.restored
  | @commit img pc hc => cases pc <;> exact h.same rfl rfl rfl (by simp [ExecAt.step]) (by simp [ExecAt.step])
  | done hc => exact h.same rfl rfl rfl (by simp) (by simp)
  | @fix pc hc =>
    -- the flag is up, so `fix_tf` leaves at its second test
    obtain rfl | rfl := h.fix pc hc
    · by_cases e : rpl t.tf.cs = DPL_USER
      · have ht : t.fix .cs = { t with ctl := .fix .handling } := by simp [Task.fix, FixTf.step, e]
        rw [ht]
        exact ⟨rfl, h.saved, h.up, by simp, fun pc e => .inr (by simpa using e.symm)⟩
      · have ht : t.fix .cs = { t with ctl := .user } := by simp [Task.fix, FixTf.step, e]
        rw [ht]
        exact h.same rfl rfl rfl (by simp) (by simp)
    · have ht : t.fix .handling = { t with ctl := .user } := by simp [Task.fix, FixTf.step, h.up]
      rw [ht]
      exact h.same rfl rfl rfl (by simp) (by simp)
  | exit hl => exact absurd rfl hx

theorem Handling.step {U : Trapframe} {q : Slot} {s s' : State} {l : Label} (hb : Born s) (h : (s q).Handling U)
    (hok : InHandler q s l) (hs : Steps s l s') : (s' q).Handling U := by
  obtain e | ⟨a, rfl, hm⟩ | ⟨k, e, -, hk⟩ := hs.at_live hb h.live
  · rwa [e]
  · refine h.moves hm ?_ ?_
    all_goals
      rintro rfl
      exact hok rfl
  · rw [e]
    rcases hk with ⟨c, f, rfl⟩ | ⟨v, rfl⟩
    all_goals exact h.same rfl rfl rfl (by simp) (by simp)

/-! ## `sigret` and the way back -/

/-- The process is on its way back to user mode: it takes no step in user mode, and does not exit. -/
def Returning (q : Slot) (s : State) : Label → Prop
  | .own r .intr => r = q → (s q).ctl.isUser = false
  | .own r (.run _ _) | .own r .trap | .own r .exit => r ≠ q
  | _ => True

/-- No signal is deliverable. -/
def NoSignal (q : Slot) (s : State) : Label → Prop
  | .own r .intr | .own r .go => r = q → ¬ (s q).Delivers
  | _ => True

instance (q : Slot) (s : State) : (l : Label) → Decidable (Returning q s l)
  | .own r .intr => inferInstanceAs (Decidable (r = q → (s q).ctl.isUser = false))
  | .own r (.run _ _) | .own r .trap | .own r .exit => inferInstanceAs (Decidable (r ≠ q))
  | .own _ .go | .own _ (.poke _) | .own _ (.grow _ _) | .own _ .sigset | .own _ .sigret | .own _ (.exec _)
  | .own _ (.ret _) | .own _ (.pend _) | .alloc _ _ | .copy _ _ | .nomem _ => .isTrue trivial

instance (q : Slot) (s : State) : (l : Label) → Decidable (NoSignal q s l)
  | .own r .intr | .own r .go => inferInstanceAs (Decidable (r = q → ¬ (s q).Delivers))
  | .own _ (.run _ _) | .own _ .trap | .own _ .exit | .own _ (.poke _) | .own _ (.grow _ _) | .own _ .sigset
  | .own _ .sigret | .own _ (.exec _) | .own _ (.ret _) | .own _ (.pend _) | .alloc _ _ | .copy _ _ | .nomem _ =>
    .isTrue trivial

/-- Where a process is between the trap of `sigret` and user mode, with the context `U` saved. -/
inductive Task.Back (U : Trapframe) (t : Task) : Prop
  | call : t.ctl = .call SYS_sigret → t.oldTf = U → Back U t
  | restored : t.ctl = .restored → t.tf = U → Back U t
  | done : t.ctl = .done 0 → t.tf = U → Back U t
  | cs : t.ctl = .fix .cs → t.tf = { U with eax := 0 } → Back U t
  | handling : t.ctl = .fix .handling → t.tf = { U with eax := 0 } → rpl t.tf.cs = DPL_USER → Back U t
  | pop : t.ctl = .fix (.pop .loadHead) → t.tf = { U with eax := 0 } → rpl t.tf.cs = DPL_USER →
      t.handlingSignal = false → Back U t
  /-- A signal is dropped because the handler is the default one. -/
  | drop {pc : FixTf} : t.ctl = .fix pc → t.tf = { U with eax := 0 } → (∃ pc', pc = .pop pc') ∨ (∃ i, pc = .handler i) →
      t.sighandler = DEFSIG_HENDLER → Back U t
  | user : t.ctl = .user → t.tf = { U with eax := 0 } → Back U t

theorem Task.Back.pending {U : Trapframe} {t : Task} (h : t.Back U) (cs : Cstack) : { t with pending := cs }.Back U := by
  cases h with
  | call hc ho => exact .call hc ho
  | restored hc ho => exact .restored hc ho
  | done hc ho => exact .done hc ho
  | cs hc ho => exact .cs hc ho
  | handling hc ho hu => exact .handling hc ho hu
  | pop hc ho hu hh => exact .pop hc ho hu hh
  | drop hc ho hp hd => exact .drop hc ho hp hd
  | user hc ho => exact .user hc ho

theorem Task.Back.live {U : Trapframe} {t : Task} (h : t.Back U) : t.ctl.live = true := by
  cases h <;> simp_all [Ctl.live]

theorem Task.Back.next {U : Trapframe} {t t' : Task} (h : t.Back U) (hn : t.next = some t') (hd : ¬ t.Delivers) :
    t'.Back U := by
  cases h with
  | call hc _ => simp [Task.next, hc] at hn
  | user hc _ => simp [Task.next, hc] at hn
  | restored hc hf =>
    obtain rfl : _ = t' := by simpa [Task.next, hc] using hn
    exact .done rfl hf
  | done hc hf =>
    obtain rfl : _ = t' := by simpa [Task.next, hc] using hn
    exact .cs rfl (by simp [hf])
  | cs hc hf =>
    obtain rfl : t.fix .cs = t' := by simpa [Task.next, hc] using hn
    by_cases hu : rpl t.tf.cs = DPL_USER
    · have ht : t.fix .cs = { t with ctl := .fix .handling } := by simp [Task.fix, FixTf.step, hu]
      rw [ht]
      exact .handling rfl hf hu
    · have ht : t.fix .cs = { t with ctl := .user } := by simp [Task.fix, FixTf.step, hu]
      rw [ht]
      exact .user rfl hf
  | handling hc hf hu =>
    obtain rfl : t.fix .handling = t' := by simpa [Task.next, hc] using hn
    cases hh : t.handlingSignal with
    | true =>
      have ht : t.fix .handling = { t with ctl := .user } := by simp [Task.fix, FixTf.step, hh]
      rw [ht]
      exact .user rfl hf
    | false =>
      have ht : t.fix .handling = { t with ctl := .fix (.pop .loadHead) } := by simp [Task.fix, FixTf.step, hh]
      rw [ht]
      exact .pop rfl hf hu hh
  | pop hc hf hu hh =>
    obtain rfl : t.fix (.pop .loadHead) = t' := by simpa [Task.next, hc] using hn
    cases hp : t.pending.head with
    | none =>
      have ht : t.fix (.pop .loadHead) = { t with ctl := .user } := by simp [Task.fix, FixTf.step, Pop.step, hp]
      rw [ht]
      exact .user rfl hf
    | some i =>
      -- there is a signal, so the handler is the default one
      have hdef : t.sighandler = DEFSIG_HENDLER := by
        by_contra hne
        exact hd ⟨hu, hh, by simp [hp], hne⟩
      have ht : t.fix (.pop .loadHead) = { t with ctl := .fix (.pop (.loadNext i)) } := by
        simp [Task.fix, FixTf.step, Pop.step, hp]
      rw [ht]
      exact .drop rfl hf (.inl ⟨_, rfl⟩) hdef
  | @drop pc hc hf hp hdef =>
    obtain rfl : t.fix pc = t' := by simpa [Task.next, hc] using hn
    rcases hp with ⟨pc', rfl⟩ | ⟨i, rfl⟩
    · cases e : (pc'.step t.pending).2 with
      | inl pc'' =>
        have ht : t.fix (.pop pc') = { t with pending := (pc'.step t.pending).1, ctl := .fix (.pop pc'') } := by
          simp [Task.fix, FixTf.step, e]
        rw [ht]
        exact .drop rfl hf (.inl ⟨_, rfl⟩) hdef
      | inr r =>
        cases r with
        | none =>
          have ht : t.fix (.pop pc') = { t with pending := (pc'.step t.pending).1, ctl := .user } := by
            simp [Task.fix, FixTf.step, e]
          rw [ht]
          exact .user rfl hf
        | some i =>
          have ht : t.fix (.pop pc') = { t with pending := (pc'.step t.pending).1, ctl := .fix (.handler i) } := by
            simp [Task.fix, FixTf.step, e]
          rw [ht]
          exact .drop rfl hf (.inr ⟨_, rfl⟩) hdef
    · have ht : t.fix (.handler i) = { t with ctl := .user } := by simp [Task.fix, FixTf.step, hdef]
      rw [ht]
      exact .user rfl hf

theorem Task.Back.inCall {U : Trapframe} {t t' : Task} {a : Act} (h : t.Back U) {n : Word} (hc : t.ctl = .call n)
    (hm : Moves t a t') (hx : a ≠ .exit) (hd : a = .intr → ¬ t.Delivers) : t'.Back U := by
  obtain ⟨rfl, ho⟩ : n = SYS_sigret ∧ t.oldTf = U := by cases h <;> simp_all
  cases hm with
  | intr =>
    rw [fixTf_idle (hd rfl)]
    exact h.pending _
  | pend => exact h.pending _
  | poke => exact .call hc ho
  | sigret => exact .restored rfl ho
  | ret h' _ hne => exact absurd (Ctl.call.inj (h'.symm.trans hc)) hne
  | grow h' | sigsetFail h' | sigset h' | exec h' =>
    have e := Ctl.call.inj (h'.symm.trans hc)
    simp [SYS_sigret, SYS_sbrk, SYS_sigset, SYS_exec] at e
  | run h' | trap h' | restored h' | commit h' | done h' | fix h' => simp [hc] at h'
  | exit => exact absurd rfl hx

theorem Back.step {U : Trapframe} {q : Slot} {s s' : State} {l : Label} (hb : Born s) (h : (s q).Back U)
    (hret : Returning q s l) (hno : NoSignal q s l) (hs : step s l = some s') : (s' q).Back U := by
  obtain e | ⟨a, rfl, hm⟩ | ⟨k, e, hf, -⟩ := (step_steps hs).at_live hb h.live
  · rwa [e]
  · by_cases hc : ∃ n, (s q).ctl = .call n
    · obtain ⟨n, hc⟩ := hc
      refine h.inCall hc hm ?_ ?_
      · rintro rfl
        exact hret rfl
      · rintro rfl
        exact hno rfl
    · have hact := step_own hs
      generalize s' q = t' at hm hact ⊢
      cases hm with
      | intr =>
        rw [fixTf_idle (hno rfl)]
        exact h.pending _
      | pend => exact h.pending _
      | restored | commit | done | fix => exact h.next hact (hno rfl)
      | run | trap | exit => exact absurd rfl hret
      | poke h' | grow h' | sigsetFail h' | sigset h' | sigret h' | exec h' | ret h' => exact absurd ⟨_, h'⟩ hc
  · rcases hf with hf | ⟨c, f, hf⟩
    · cases h <;> simp_all [SYS_fork, SYS_sigret]
    · cases h <;> simp_all

/-! ## The round trip -/

theorem fixTf_stack {t : Task} (ht : t.Delivers) :
    ∃ a, loadWord (fixTf t).mem (fixTf t).tf.esp = a ∧ HasBytes (fixTf t).mem a trampoline := by
  obtain ⟨hcs, hh, hp, hd⟩ := ht
  obtain ⟨i, hi⟩ := Option.ne_none_iff_exists'.mp hp
  have e : fixTf t = Task.deliver { t with pending := { t.pending with head := t.pending.next i } } i := by
    simp only [fixTf, hcs, hh, Task.pop_some hi, hd, ne_eq, not_true_eq_false, Bool.false_eq_true, ↓reduceIte]
  rw [e]
  obtain ⟨h1, -, -, h4⟩ := Task.deliver_stack { t with pending := { t.pending with head := t.pending.next i } } i
  exact ⟨_, h1, h4⟩

/-- **A round trip** of the process `q`: in the reachable state `s₁` a `fix_tf` has delivered a signal in the context
`t.tf`; the handler leads to `s₂`, where the trampoline has 24 in `eax` and traps; in `s₄` the kernel has returned to
user mode. `ok` is a condition on the steps of the way back. -/
structure RoundTrip (ok : State → Label → Prop) (q : Slot) (t : Task) (s₁ s₂ s₃ s₄ : State) : Prop where
  reached : ∃ tr, Path step free boot tr s₁
  delivers : t.Delivers
  delivered : s₁ q = { fixTf t with ctl := .user }
  handler : ∃ tr, Path step (InHandler q) s₁ tr s₂
  user : (s₂ q).ctl = .user
  eax : (s₂ q).tf.eax = SYS_sigret
  trap : step s₂ (.own q .trap) = some s₃
  back : ∃ tr, Path step (fun s l => Returning q s l ∧ ok s l) s₃ tr s₄
  returned : (s₄ q).ctl = .user

theorem RoundTrip.restores {q : Slot} {t : Task} {s₁ s₂ s₃ s₄ : State} (h : RoundTrip (NoSignal q) q t s₁ s₂ s₃ s₄) :
    (s₄ q).tf = { t.tf with eax := 0 } := by
  obtain ⟨tr, hp⟩ := h.reached
  obtain ⟨tr₁, h₁⟩ := h.handler
  obtain ⟨tr₂, h₂⟩ := h.back
  have hborn : Born s₁ := hp.inv born_boot fun s l s' hb _ hs => hb.step (step_steps hs)
  -- the handler
  have hh : Born s₂ ∧ (s₂ q).Handling t.tf := by
    refine h₁.inv (I := fun s => Born s ∧ (s q).Handling t.tf) ⟨hborn, ?_⟩ fun s l s' hi hok hs =>
      ⟨hi.1.step (step_steps hs), Handling.step hi.1 hi.2 hok (step_steps hs)⟩
    rw [h.delivered, fixTf_delivers h.delivers]
    exact ⟨rfl, rfl, rfl, by simp, by simp⟩
  -- the trap of the trampoline
  have hback : Born s₃ ∧ (s₃ q).Back t.tf := by
    refine ⟨hh.1.step (step_steps h.trap), ?_⟩
    have hact := step_own h.trap
    simp only [Task.act, h.user, Option.some.injEq] at hact
    rw [← hact]
    exact .call (by simp [h.eax, dispatch, SYS_sigret, NELEM_syscalls]) hh.2.saved
  have hend : Born s₄ ∧ (s₄ q).Back t.tf :=
    h₂.inv (I := fun s => Born s ∧ (s q).Back t.tf) hback fun s l s' hi hok hs =>
      ⟨hi.1.step (step_steps hs), Back.step hi.1 hi.2 hok.1 hok.2 hs⟩
  have hu := h.returned
  cases hend.2 <;> simp_all

/-- **Signal handling is transparent** if the interrupted context has 0 in `eax` and no other signal is deliverable on
the way back from `sigret`: for every context in which `fix_tf` delivers a signal to `q`, whatever the handler does
before it returns to the trampoline. -/
theorem sigret_transparent {q : Slot} {t : Task} {s₁ s₂ s₃ s₄ : State} (h : RoundTrip (NoSignal q) q t s₁ s₂ s₃ s₄)
    (hax : t.tf.eax = 0) :
    (∃ a, loadWord (s₁ q).mem (s₁ q).tf.esp = a ∧ HasBytes (s₁ q).mem a trampoline) ∧ (s₄ q).tf = t.tf := by
  refine ⟨?_, ?_⟩
  · rw [h.delivered]
    exact fixTf_stack h.delivers
  · rw [h.restores, ← hax]

/-- `initproc` in user mode with `v` in `eax` and a signal pending. -/
def interrupted (v : Word) : Option State :=
  run (guarded step free) boot
    (goes 0 3 ++ [.own 0 (.run { userinitTf with eax := v } fun _ => 0), .own 0 (.pend oneSignal)])

/-- The handler returns, and the trampoline has the number of `sigret` in `eax`. -/
def atTrampoline (s : State) : Option State :=
  run (guarded step (InHandler 0)) s [.own 0 (.run { userinitTf with eax := SYS_sigret } fun _ => 0)]

/-- `sigret` and the way back. -/
def backAgain (s : State) : Option State :=
  run (guarded step fun s l => Returning 0 s l ∧ NoSignal 0 s l) s (.own 0 .sigret :: goes 0 5)

/-- The round trip of `initproc` can be evaluated. -/
def tripEvaluates (v : Word) : Bool :=
  (interrupted v).any fun s₀ => decide ((s₀ 0).Delivers) && (s₀ 0).ctl.isUser && (s₀ 0).tf.eax == v &&
    (step s₀ (.own 0 .intr)).any fun s₁ => (atTrampoline s₁).any fun s₂ =>
      (s₂ 0).ctl.isUser && (s₂ 0).tf.eax == SYS_sigret &&
        (step s₂ (.own 0 .trap)).any fun s₃ => (backAgain s₃).any fun s₄ => (s₄ 0).ctl.isUser

theorem exists_roundTrip {v : Word} (h : tripEvaluates v = true) :
    ∃ t s₁ s₂ s₃ s₄, RoundTrip (NoSignal 0) 0 t s₁ s₂ s₃ s₄ ∧ t.tf.eax = v := by
  simp only [tripEvaluates, Option.any_eq_true, Bool.and_eq_true, decide_eq_true_eq, beq_iff_eq] at h
  obtain ⟨s₀, h₀, ⟨⟨hd, hu⟩, hv⟩, s₁, h₁, s₂, h₂, ⟨hu₂, hn⟩, s₃, h₃, s₄, h₄, hu₄⟩ := h
  refine ⟨s₀ 0, s₁, s₂, s₃, s₄, ?_, hv⟩
  refine ⟨⟨_, .snoc (path_of_run h₀) trivial h₁⟩, hd, ?_, ⟨_, path_of_run h₂⟩, Ctl.eq_user_of_isUser hu₂, hn, h₃,
    ⟨_, path_of_run h₄⟩, Ctl.eq_user_of_isUser hu₄⟩
  have hc := Ctl.eq_user_of_isUser hu
  have hact := step_own h₁
  simp only [Task.act, hc, Ctl.live, ↓reduceIte, Option.some.injEq] at hact
  rw [← hact, ← hc, ← fixTf_ctl]

/-- `initproc` is interrupted with 0 in `eax`, and resumed in the same context. -/
theorem sigret_transparent_init :
    ∃ t s₁ s₂ s₃ s₄, RoundTrip (NoSignal 0) 0 t s₁ s₂ s₃ s₄ ∧ t.tf.eax = 0 ∧ (s₄ 0).tf = t.tf := by
  obtain ⟨t, s₁, s₂, s₃, s₄, h, hax⟩ := exists_roundTrip (v := 0) (by decide +kernel)
  exact ⟨t, s₁, s₂, s₃, s₄, h, hax, (sigret_transparent h hax).2⟩

/-- `initproc` is interrupted with 5 in `eax`, the result of a `read`, and resumed with 0. -/
theorem sigret_clears_eax :
    ∃ t s₁ s₂ s₃ s₄, RoundTrip (NoSignal 0) 0 t s₁ s₂ s₃ s₄ ∧ t.tf.eax = 5 ∧ (s₄ 0).tf.eax = 0 := by
  obtain ⟨t, s₁, s₂, s₃, s₄, h, hax⟩ := exists_roundTrip (v := 5) (by decide +kernel)
  exact ⟨t, s₁, s₂, s₃, s₄, h, hax, by rw [h.restores]⟩

end Xv6.Trap
