import Xv6.Trap.Ghost

/-!
# System calls and signals that arrive during them

`caller tr q` are the registers with which `q` made its last system call, and `context tr q` is the user context that
the call returns to: the caller's, changed by nothing but the call itself (`exec` and `sigret` replace parts of it, the
return value goes to `eax`). A nested interrupt also ends in `fix_tf`, which looks at `proc->tf`, the frame of the
system call, and not at the frame it returns to: it redirects the frame under a call in progress.
-/

namespace Xv6.Trap

open Lib

/-! ## The context of a system call -/

/-- A system call: who made it, and what it returns to. -/
structure Context where
  caller : Trapframe
  frame : Trapframe

/-- The context after a step of the process: nothing but the call itself writes it. -/
def Task.contextAfter (t : Task) (x : Context) : Act → Context
  | .trap => ⟨t.tf, t.tf⟩
  | .sigret => { x with frame := t.oldTf }
  | .go =>
    match t.ctl with
    | .exec img .eip => { x with frame := { x.frame with eip := img.entry } }
    | .exec img .esp => { x with frame := { x.frame with esp := img.sp } }
    | .done v => { x with frame := { x.frame with eax := v } }
    | _ => x
  | _ => x

/-- The new process of a `fork` returns from the call of its parent, with 0. -/
def contextGhost : Ghost Context where
  own := Task.contextAfter
  copy f x x' :=
    match f with
    | .tf => x
    | .eax => { x' with frame := { x'.frame with eax := 0 } }
    | .vm | .handler | .run => x'

/-- `initproc` starts as if it returned from a system call. -/
def contexts (tr : List (State × Label)) : Slot → Context := contextGhost.after ⟨userinitTf, userinitTf⟩ tr

/-- The registers with which `q` made its last system call. -/
def caller (tr : List (State × Label)) (q : Slot) : Trapframe := (contexts tr q).caller

/-- The user context to which the call returns. -/
def context (tr : List (State × Label)) (q : Slot) : Trapframe := (contexts tr q).frame

/-- The two calls that replace the context of their caller. -/
def Trapframe.replaces (tf : Trapframe) : Bool := tf.eax == SYS_exec || tf.eax == SYS_sigret

/-- No interrupt in kernel mode finds a signal to deliver. -/
def Quiet (s : State) : Label → Prop
  | .own q .intr => (s q).ctl.isUser = false → ¬ (s q).Delivers
  | _ => True

instance (s : State) : (l : Label) → Decidable (Quiet s l)
  | .own q .intr => inferInstanceAs (Decidable ((s q).ctl.isUser = false → ¬ (s q).Delivers))
  | .own _ (.run _ _) | .own _ .trap | .own _ .go | .own _ (.poke _) | .own _ (.grow _ _) | .own _ .sigset
  | .own _ .sigret | .own _ (.exec _) | .own _ (.ret _) | .own _ (.pend _) | .own _ .exit | .alloc _ _ | .copy _ _
  | .nomem _ => .isTrue trivial

/-! ## The invariant -/

def FixTf.early : FixTf → Bool
  | .cs | .handling | .pop _ | .handler _ | .save _ | .set _ | .used _ | .espCode _ => true
  | .code _ | .espValue _ | .value _ | .espSender _ | .sender _ | .espRet | .ret | .eip => false

def FixTf.saved : FixTf → Bool
  | .cs | .handling | .pop _ | .handler _ | .save _ => false
  | .set _ | .used _ | .espCode _ | .code _ | .espValue _ | .value _ | .espSender _ | .sender _ | .espRet | .ret
  | .eip => true

def FixTf.raised : FixTf → Bool
  | .set _ => false
  | pc => pc.saved

/-- The return value has not been stored yet. -/
def Ctl.inSyscall : Ctl → Bool
  | .call _ | .fork _ _ | .exec _ _ | .restored | .done _ => true
  | .unused | .embryo | .user | .fix _ => false

/-- `proc->tf` is the frame of the system call. -/
def Ctl.atFrame : Ctl → Bool
  | .fix pc => pc.early
  | k => k.inSyscall

/-- A process with the context `x`. -/
structure Task.InContext (x : Context) (t : Task) : Prop where
  frame : t.ctl.atFrame = true → t.tf = x.frame
  saved : ∀ pc, t.ctl = .fix pc → pc.saved = true → t.oldTf = x.frame
  raised : ∀ pc, t.ctl = .fix pc → pc.raised = true → t.handlingSignal = true
  plain : t.ctl.inSyscall = true → x.caller.replaces = false → x.frame = x.caller
  call : ∀ n, t.ctl = .call n → x.frame = x.caller ∧ x.caller.eax = n
  exec : ∀ img pc, t.ctl = .exec img pc → x.caller.eax = SYS_exec
  restored : t.ctl = .restored → x.caller.eax = SYS_sigret

theorem Task.InContext.of_outside {x : Context} {t : Task} (h : t.ctl = .user ∨ t.ctl.live = false) :
    t.InContext x := by
  have hk : t.ctl.atFrame = false ∧ t.ctl.inSyscall = false ∧ (∀ pc, t.ctl ≠ .fix pc) ∧ (∀ n, t.ctl ≠ .call n) ∧
      (∀ img pc, t.ctl ≠ .exec img pc) ∧ t.ctl ≠ .restored := by
    rcases h with h | h
    · simp [h, Ctl.atFrame, Ctl.inSyscall]
    · cases hc : t.ctl <;> simp_all [Ctl.live, Ctl.atFrame, Ctl.inSyscall]
  obtain ⟨h1, h2, h3, h4, h5, h6⟩ := hk
  exact ⟨fun e => absurd (h1.symm.trans e) (by simp), fun pc e => absurd e (h3 pc), fun pc e => absurd e (h3 pc),
    fun e => absurd (h2.symm.trans e) (by simp), fun n e => absurd e (h4 n), fun img pc e => absurd e (h5 img pc),
    fun e => absurd e h6⟩

theorem Task.InContext.goes {x : Context} {t' : Task} (hs : t'.ctl.inSyscall = true) (hf : t'.tf = x.frame)
    (hp : x.caller.replaces = false → x.frame = x.caller)
    (hc : ∀ n, t'.ctl = .call n → x.frame = x.caller ∧ x.caller.eax = n)
    (he : ∀ img pc, t'.ctl = .exec img pc → x.caller.eax = SYS_exec)
    (hr : t'.ctl = .restored → x.caller.eax = SYS_sigret) : t'.InContext x :=
  ⟨fun _ => hf, fun pc e => by simp [e, Ctl.inSyscall] at hs, fun pc e => by simp [e, Ctl.inSyscall] at hs,
    fun _ => hp, hc, he, hr⟩

theorem Task.InContext.of_fix {x : Context} {t : Task} {pc : FixTf} (hc : t.ctl = .fix pc)
    (hf : pc.early = true → t.tf = x.frame) (hs : pc.saved = true → t.oldTf = x.frame)
    (hr : pc.raised = true → t.handlingSignal = true) : t.InContext x := by
  refine ⟨fun e => hf (by simpa [hc, Ctl.atFrame] using e), fun pc' e => ?_, fun pc' e => ?_,
    fun e => by simp [hc, Ctl.inSyscall] at e, fun n e => by simp [hc] at e, fun img p e => by simp [hc] at e,
    fun e => by simp [hc] at e⟩
  all_goals
    obtain rfl : pc = pc' := by simpa [hc] using e
    assumption

theorem Task.InContext.fixes {x : Context} {t t' : Task} {pc : FixTf} (h : t.InContext x) (hc : t.ctl = .fix pc)
    (hf : t.Fixes pc t') : t'.InContext x := by
  have hframe : pc.early = true → t.tf = x.frame := fun e => h.frame (by simpa [hc, Ctl.atFrame] using e)
  cases hf with
  | last hs => exact .of_outside (.inl rfl)
  | @next t₁ pc' hs =>
    cases hs with
    | test hpc hpc' =>
      -- the frame is in place, and nothing is saved
      have he : pc.early = true := by cases pc <;> first | rfl | simp [FixTf.testing] at hpc
      have hs' : pc'.saved = false ∧ pc'.raised = false := by
        rcases hpc' with e | ⟨i, rfl⟩
        · cases pc' <;> first | exact ⟨rfl, rfl⟩ | simp [FixTf.testing] at e
        · exact ⟨rfl, rfl⟩
      exact .of_fix rfl (fun _ => hframe he) (fun e => by simp [hs'] at e) fun e => by simp [hs'] at e
    | @save i e =>
      subst e
      exact .of_fix rfl (fun _ => hframe rfl) (fun _ => hframe rfl) fun e => by simp [FixTf.raised] at e
    | @set i e =>
      subst e
      exact .of_fix rfl (fun _ => hframe rfl) (fun _ => h.saved _ hc rfl) fun _ => rfl
    | @used i cs e =>
      subst e
      exact .of_fix rfl (fun _ => hframe rfl) (fun _ => h.saved _ hc rfl) fun _ => h.raised _ hc rfl
    | push hpc hpc' =>
      -- the saved frame stays, and the flag is up
      have hs' : pc.saved = true ∧ pc.raised = true := by
        rcases hpc with e | ⟨i, rfl⟩
        · cases pc <;> first | exact ⟨rfl, rfl⟩ | simp [FixTf.pushing] at e
        · exact ⟨rfl, rfl⟩
      have he : pc'.early = false := by cases pc' <;> first | rfl | simp [FixTf.pushing] at hpc'
      exact .of_fix rfl (fun e => by simp [he] at e) (fun _ => h.saved _ hc hs'.1) fun _ => h.raised _ hc hs'.2

/-- **The way back to user mode**: the process resumes the context of the call, or starts a handler with that context
saved in `old_tf`. -/
theorem Task.InContext.returns {x : Context} {t t' : Task} {pc : FixTf} (h : t.InContext x) (hc : t.ctl = .fix pc)
    (hf : t.Fixes pc t') (hu : t'.ctl = .user) :
    t'.tf = x.frame ∨ t'.handlingSignal = true ∧ t'.oldTf = x.frame := by
  cases hf with
  | next hs => simp at hu
  | last hs =>
    cases hs with
    | leave hpc =>
      have he : pc.early = true := by cases pc <;> first | rfl | simp [FixTf.testing] at hpc
      exact .inl (h.frame (by simpa [hc, Ctl.atFrame] using he))
    | eip e =>
      subst e
      exact .inr ⟨h.raised _ hc rfl, h.saved _ hc rfl⟩

theorem Task.InContext.moves {x : Context} {t t' : Task} {a : Act} (h : t.InContext x) (hm : Moves t a t')
    (hq : a = .intr → t.ctl.isUser = false → ¬ t.Delivers) : t'.InContext (t.contextAfter x a) := by
  cases hm with
  | run hc => exact .of_outside (.inl hc)
  | trap hc =>
    show Task.InContext ⟨t.tf, t.tf⟩ _
    unfold dispatch
    split
    · exact .goes rfl rfl (fun _ => rfl) (fun n e => ⟨rfl, by simpa using e⟩) (by simp) (by simp)
    · exact .goes rfl rfl (fun _ => rfl) (by simp) (by simp) (by simp)
  | intr hl =>
    show Task.InContext x _
    by_cases hu : t.ctl = .user
    · exact .of_outside (.inl (by rw [fixTf_ctl, hu]))
    · have hd : ¬ t.Delivers := hq rfl (by cases hc : t.ctl <;> simp_all [Ctl.isUser])
      rw [fixTf_idle hd]
      exact ⟨h.frame, h.saved, h.raised, h.plain, h.call, h.exec, h.restored⟩
  | pend => exact ⟨h.frame, h.saved, h.raised, h.plain, h.call, h.exec, h.restored⟩
  | poke hc | grow hc => exact ⟨h.frame, h.saved, h.raised, h.plain, h.call, h.exec, h.restored⟩
  | sigsetFail hc | sigset hc | ret hc =>
    exact .goes rfl (h.frame (by simp [hc, Ctl.atFrame, Ctl.inSyscall])) (fun _ => (h.call _ hc).1) (by simp) (by simp)
      (by simp)
  | exec hc =>
    exact .goes rfl (h.frame (by simp [hc, Ctl.atFrame, Ctl.inSyscall])) (fun _ => (h.call _ hc).1) (by simp)
      (fun _ _ _ => (h.call _ hc).2) (by simp)
  | sigret hc =>
    show Task.InContext { x with frame := t.oldTf } _
    refine .goes rfl rfl (fun e => ?_) (by simp) (by simp) fun _ => (h.call _ hc).2
    simp [Trapframe.replaces, (h.call _ hc).2] at e
  | restored hc =>
    have hx : t.contextAfter x .go = x := by simp [Task.contextAfter, hc]
    rw [hx]
    exact .goes rfl (h.frame (by simp [hc, Ctl.atFrame, Ctl.inSyscall])) (h.plain (by simp [hc, Ctl.inSyscall]))
      (by simp) (by simp) (by simp)
  | @commit img pc hc =>
    have hf := h.frame (by simp [hc, Ctl.atFrame, Ctl.inSyscall])
    have he := h.exec img pc hc
    have hr : x.caller.replaces = true := by simp [Trapframe.replaces, he]
    cases pc with
    | pgdir | handler =>
      have hx : t.contextAfter x .go = x := by simp [Task.contextAfter, hc]
      rw [hx]
      exact .goes rfl hf (fun e => by simp [hr] at e) (by simp [ExecAt.step]) (fun _ _ _ => he) (by simp [ExecAt.step])
    | eip =>
      have hx : t.contextAfter x .go = { x with frame := { x.frame with eip := img.entry } } := by
        simp [Task.contextAfter, hc]
      rw [hx]
      exact .goes rfl (by simp [ExecAt.step, hf]) (fun e => by simp [hr] at e) (by simp [ExecAt.step])
        (fun _ _ _ => he) (by simp [ExecAt.step])
    | esp =>
      have hx : t.contextAfter x .go = { x with frame := { x.frame with esp := img.sp } } := by
        simp [Task.contextAfter, hc]
      rw [hx]
      exact .goes rfl (by simp [ExecAt.step, hf]) (fun e => by simp [hr] at e) (by simp [ExecAt.step])
        (fun _ _ _ => he) (by simp [ExecAt.step])
  | @done v hc =>
    have hf := h.frame (by simp [hc, Ctl.atFrame, Ctl.inSyscall])
    have hx : t.contextAfter x .go = { x with frame := { x.frame with eax := v } } := by simp [Task.contextAfter, hc]
    rw [hx]
    exact .of_fix rfl (fun _ => by rw [hf]) (fun e => by simp [FixTf.saved] at e)
      fun e => by simp [FixTf.raised, FixTf.saved] at e
  | @fix pc hc =>
    have hx : t.contextAfter x .go = x := by simp [Task.contextAfter, hc]
    rw [hx]
    exact h.fixes hc (t.fixes pc)
  | exit hl => exact .of_outside (.inr rfl)

theorem Task.InContext.forks {x : Context} {t : Task} {k : Ctl} (h : t.InContext x) (hs : t.ctl.inSyscall = true)
    (hp : x.caller.replaces = false → x.frame = x.caller) (hk : (∃ c f, k = .fork c f) ∨ ∃ v, k = .done v) :
    { t with ctl := k }.InContext x := by
  have hf : t.tf = x.frame := h.frame (by cases hc : t.ctl <;> simp_all [Ctl.atFrame, Ctl.inSyscall])
  rcases hk with ⟨c, f, rfl⟩ | ⟨v, rfl⟩
  all_goals exact .goes rfl hf hp (by simp) (by simp) (by simp)

theorem context_kept :
    contextGhost.Kept Quiet (fun x t => t.InContext x) (fun f x t => f.copied = true → t.tf = x.frame) where
  own s q a t x hok hm h := h.moves hm fun e => by subst e; exact hok
  pend _ _ _ _ h := h
  alloc x t _ _ := ⟨.of_outside (.inr rfl), fun e => by simp [ForkAt.copied] at e⟩
  enter x t c hc h := h.forks (by simp [hc, Ctl.inSyscall]) (fun _ => (h.call _ hc).1) (.inl ⟨c, .vm, rfl⟩)
  parent x t c f pid hc h :=
    h.forks (by simp [hc, Ctl.inSyscall]) (h.plain (by simp [hc, Ctl.inSyscall])) (f.after_cases c pid)
  child s q pid x np x' c f _ hq hnp h _ hk := by
    have hf : (s q).tf = x.frame := h.frame (by simp [hq, Ctl.atFrame, Ctl.inSyscall])
    cases f with
    | vm =>
      refine ⟨.of_outside (.inr (by simp [ForkAt.step, hnp, Ctl.live])), fun f' hn e => ?_⟩
      obtain rfl : ForkAt.tf = f' := by simpa [ForkAt.next] using hn
      simp [ForkAt.copied] at e
    | tf => exact ⟨.of_outside (.inr (by simp [ForkAt.step, hnp, Ctl.live])), fun f' _ _ => hf⟩
    | eax =>
      refine ⟨.of_outside (.inr (by simp [ForkAt.step, hnp, Ctl.live])), fun f' _ _ => ?_⟩
      simp [ForkAt.step, contextGhost, hk rfl]
    | handler => exact ⟨.of_outside (.inr (by simp [ForkAt.step, hnp, Ctl.live])), fun f' _ _ => hk rfl⟩
    | run =>
      refine ⟨.of_fix rfl (fun _ => hk rfl) (fun e => by simp [FixTf.saved] at e) ?_, fun f' hn => ?_⟩
      · intro e
        simp [FixTf.raised, FixTf.saved] at e
      · simp [ForkAt.next] at hn
  fail x t c hc h :=
    h.forks (by simp [hc, Ctl.inSyscall]) (h.plain (by simp [hc, Ctl.inSyscall])) (.inr ⟨-1, rfl⟩)
  free x t _ _ := .of_outside (.inr rfl)

theorem context_boot (q : Slot) : (boot q).InContext ⟨userinitTf, userinitTf⟩ := by
  by_cases h : q = 0
  · have hc : (boot q).ctl = .fix .cs := by simp [boot, h]
    refine .of_fix hc (fun _ => by simp [boot, h]) (fun e => by simp [FixTf.saved] at e) fun e => ?_
    simp [FixTf.raised, FixTf.saved] at e
  · exact .of_outside (.inr (by simp [boot, h, Ctl.live]))

/-! ## The theorem -/

/-- What a system call of `q` sees, after the run `tr` to `s`. -/
structure Undisturbed (tr : List (State × Label)) (s : State) (q : Slot) : Prop where
  /-- The arguments are the words above the stack pointer of the caller. -/
  argint : ∀ n, (s q).ctl = .call n → ∀ k, argint (s q) k = fetchint (s q) ((caller tr q).esp + 4 + 4 * k)
  argptr : ∀ n, (s q).ctl = .call n → ∀ k size,
    argptr (s q) k size = Trap.argptr { s q with tf := caller tr q } k size
  argstr : ∀ n, (s q).ctl = .call n → ∀ k, argstr (s q) k = Trap.argstr { s q with tf := caller tr q } k
  /-- The return value is stored in `eax` of the caller's context. -/
  result : ∀ v s', (s q).ctl = .done v → (caller tr q).replaces = false → step s (.own q .go) = some s' →
    (s' q).tf = { caller tr q with eax := v } ∧ context (tr ++ [(s, .own q .go)]) q = { caller tr q with eax := v }
  /-- The process resumes that context, or it is saved for the end of a handler. -/
  returns : ∀ pc s', (s q).ctl = .fix pc → step s (.own q .go) = some s' → (s' q).ctl = .user →
    (s' q).tf = context tr q ∨ (s' q).handlingSignal = true ∧ (s' q).oldTf = context tr q
  /-- A trap taken in kernel mode leaves the frame alone. -/
  nested : ∀ s', (s q).ctl.isUser = false → Quiet s (.own q .intr) → step s (.own q .intr) = some s' →
    (s' q).tf = (s q).tf

/-- **Signals do not disturb a system call**, in every run in which no interrupt taken in kernel mode finds a signal to
deliver. -/
theorem syscall_undisturbed {tr : List (State × Label)} {s : State} (q : Slot) (h : Path step Quiet boot tr s) :
    Undisturbed tr s q := by
  have hi : (s q).InContext (contexts tr q) := Ghost.invariant _ context_kept context_boot h q
  have htf : ∀ n, (s q).ctl = .call n → (s q).tf = caller tr q := fun n hn =>
    (hi.frame (by simp [hn, Ctl.atFrame, Ctl.inSyscall])).trans (hi.call n hn).1
  refine ⟨fun n hn k => ?_, fun n hn k size => ?_, fun n hn k => ?_, fun v s' hv hr hs => ?_, fun pc s' hc hs hu => ?_,
    fun s' hu hq hs => ?_⟩
  · rw [Trap.argint, htf n hn]
  · rw [← htf n hn]
  · rw [← htf n hn]
  · have hf : (s q).tf = context tr q := hi.frame (by simp [hv, Ctl.atFrame, Ctl.inSyscall])
    have hp : context tr q = caller tr q := hi.plain (by simp [hv, Ctl.inSyscall]) hr
    have hact := step_own hs
    simp only [Task.act, Task.next, hv, Option.some.injEq] at hact
    constructor
    · rw [← hact, hf, hp]
    · have hx : contexts (tr ++ [(s, .own q .go)]) q =
          { contexts tr q with frame := { context tr q with eax := v } } := by
        simp [contexts, Ghost.after_snoc, Ghost.next, contextGhost, Task.contextAfter, hv, context]
      rw [context, hx, hp]
  · have hact := step_own hs
    simp only [Task.act, Task.next, hc, Option.some.injEq] at hact
    exact hi.returns hc (hact ▸ (s q).fixes pc) hu
  · have hact := step_own hs
    have hfix : fixTf (s q) = s' q := by
      simp only [Task.act] at hact
      split at hact
      · simpa using hact
      · simp at hact
    rw [← hfix]
    exact (fixTf_tf_iff _).mpr (hq hu)

/-- A system call of `initproc` in which a clock interrupt finds no signal. -/
theorem syscall_undisturbed_sigsend :
    ∃ tr s, Path step Quiet boot tr s ∧ (s 0).ctl.inSyscall = true ∧ Undisturbed tr s 0 := by
  obtain ⟨s, hp, hs⟩ := exists_path step Quiet boot (goes 0 3 ++ calls 23 ++ [.own 0 .intr])
    (fun s => (s 0).ctl.inSyscall = true) (by decide +kernel)
  exact ⟨_, s, hp, hs, syscall_undisturbed 0 hp⟩

/-- `initproc`, with a signal pending, calls `sigsend(7, 0)` with its stack pointer at 2048. -/
def sendsSeven : List Label :=
  goes 0 3 ++
    [.own 0 (.run { userinitTf with eax := 23, esp := 2048, eip := 64 } fun a => if a = 2052 then 7 else 0),
      .own 0 .trap, .own 0 (.pend oneSignal)]

/-- A clock interrupt comes before the arguments are fetched: the first argument is then 3, the sender of the pending
signal. If it comes after them, the result 5 is stored in the frame of the handler, and the saved context still has the
number of the call in `eax`. -/
theorem signal_disturbs_call :
    (∃ tr s, Path step free boot tr s ∧ (s 0).ctl.inSyscall = true ∧ argint (s 0) 0 = some 3 ∧
      fetchint (s 0) ((caller tr 0).esp + 4 + 4 * 0) = some 7) ∧
      ∃ tr s, Path step free boot tr s ∧ (caller tr 0).eip = 64 ∧ (s 0).tf.eip = 0 ∧ (s 0).tf.eax = 5 ∧
        (s 0).oldTf.eip = 64 ∧ (s 0).oldTf.eax = 23 := by
  constructor
  · obtain ⟨s, hp, hs, ha, hf⟩ := exists_path step free boot (sendsSeven ++ [.own 0 .intr])
      (fun s => (s 0).ctl.inSyscall = true ∧ argint (s 0) 0 = some 3 ∧
        fetchint (s 0) ((2048 : Word) + 4 + 4 * 0) = some 7) (by decide +kernel)
    have he : (caller (trace (guarded step free) boot (sendsSeven ++ [.own 0 .intr])) 0).esp = 2048 := by decide +kernel
    exact ⟨_, s, hp, hs, ha, by rw [he]; exact hf⟩
  · obtain ⟨s, hp, h⟩ := exists_path step free boot (sendsSeven ++ [.own 0 .intr, .own 0 (.ret 5), .own 0 .go])
      (fun s => (s 0).tf.eip = 0 ∧ (s 0).tf.eax = 5 ∧ (s 0).oldTf.eip = 64 ∧ (s 0).oldTf.eax = 23) (by decide +kernel)
    exact ⟨_, s, hp, by decide +kernel, h⟩

end Xv6.Trap
