import Xv6.Trap.Frame

/-!
# Processes between traps

The user contexts of all processes, and every way the kernel changes them: the entry of a system call and the dispatch
in `syscall`, the calls that write a trap frame or a field for signals (`sigset`, `sigret`, `fork`, `exec`), the store
of the return value in `eax`, and `fix_tf` on the way back to user mode. A system call runs with interrupts enabled
(`T_SYSCALL` is a trap gate), so an interrupt can come between any two steps; it ends in `fix_tf` like every trap
(`Act.intr`), and runs with interrupts off, so nothing comes in between there.
-/

namespace Xv6.Trap

open Lib
open Function (update update_self)

/-! ## System calls -/

def SYS_fork : Word := 1
def SYS_exec : Word := 7
def SYS_sbrk : Word := 12
def SYS_sigset : Word := 22
def SYS_sigret : Word := 24

/-- `NELEM(syscalls)`. -/
def NELEM_syscalls : ℕ := 26

def fetchint (t : Task) (addr : Word) : Option Word :=
  if t.sz ≤ addr ∨ t.sz < addr + 4 then none else some (loadWord t.mem addr)

/-- `fetchstr`: the address and the length of the string. -/
def fetchstr (t : Task) (addr : Word) : Option (Word × ℕ) :=
  if t.sz ≤ addr then none
  else ((List.range (t.sz - addr).toNat).find? fun k => t.mem (addr + BitVec.ofNat 32 k) == 0).map fun k => (addr, k)

def argint (t : Task) (n : Word) : Option Word := fetchint t (t.tf.esp + 4 + 4 * n)

def argptr (t : Task) (n size : Word) : Option Word :=
  (argint t n).bind fun i => if t.sz ≤ i ∨ t.sz < i + size then none else some i

def argstr (t : Task) (n : Word) : Option (Word × ℕ) := (argint t n).bind (fetchstr t)

/-- The start of `syscall`: `num` selects an entry of the table of system calls. -/
def dispatch (num : Word) : Ctl :=
  if 0 < num.toNat ∧ num.toNat < NELEM_syscalls then .call num else .done (-1)

/-! ## Steps -/

/-- `FL_IF` and `FL_IOPL_MASK` of `mmu.h`. -/
def FL_IF : Word := 0x200
def FL_IOPL_MASK : Word := 0x3000

/-- User code cannot leave its privilege level, and cannot change the interrupt flag and the I/O privilege level. -/
def UserMove (tf tf' : Trapframe) : Prop :=
  rpl tf'.cs = rpl tf.cs ∧ rpl tf'.ss = rpl tf.ss ∧
    tf'.eflags &&& FL_IF = tf.eflags &&& FL_IF ∧ tf'.eflags &&& FL_IOPL_MASK = tf.eflags &&& FL_IOPL_MASK

instance (tf tf' : Trapframe) : Decidable (UserMove tf tf') := inferInstanceAs (Decidable (_ ∧ _ ∧ _ ∧ _))

inductive Act
  /-- User code runs: its registers are then `tf` and its memory `m`. -/
  | run (tf : Trapframe) (m : Umem)
  /-- `int $T_SYSCALL`: `trap` calls `syscall`. -/
  | trap
  /-- Any other trap, up to its `trapret`. -/
  | intr
  /-- The system call writes into user memory. -/
  | poke (m : Umem)
  /-- `growproc` in `sbrk`. -/
  | grow (sz : Word) (m : Umem)
  /-- `sys_sigset`. -/
  | sigset
  /-- The first statement of `sigret`. -/
  | sigret
  /-- `exec` has loaded an image and commits to it. -/
  | exec (img : Image)
  /-- The system call returns `v`. -/
  | ret (v : Word)
  /-- The next statement of the control point. -/
  | go
  /-- The pending signals change: `sigsend` calls of other processes, or of this one. -/
  | pend (cs : Cstack)
  /-- `exit`, called by the process or on its way back to user mode after it was killed. -/
  | exit

/-- A statement of the end of `exec`. -/
def ExecAt.step (t : Task) (img : Image) : ExecAt → Task
  | .pgdir => { t with mem := img.mem, sz := img.sz, ctl := .exec img .eip }
  | .eip => { t with tf := { t.tf with eip := img.entry }, ctl := .exec img .esp }
  | .esp => { t with tf := { t.tf with esp := img.sp }, ctl := .exec img .handler }
  | .handler => { t with sighandler := DEFSIG_HENDLER, ctl := .done 0 }

/-- A statement of `fix_tf` in `trapret`, and `iret` after the last one. -/
def Task.fix (t : Task) (pc : FixTf) : Task :=
  match (pc.step t).2 with
  | .inl pc' => { (pc.step t).1 with ctl := .fix pc' }
  | .inr () => { (pc.step t).1 with ctl := .user }

/-- The next statement of the control point. -/
def Task.next (t : Task) : Option Task :=
  match t.ctl with
  | .exec img pc => some (ExecAt.step t img pc)
  | .restored => some { t with handlingSignal := false, ctl := .done 0 }
  | .done v => some { t with tf := { t.tf with eax := v }, ctl := .fix .cs }
  | .fix pc => some (t.fix pc)
  | .unused | .embryo | .user | .call _ | .fork _ _ => none

def Task.sigset (t : Task) : Task :=
  match argptr t 0 4 with
  | none => { t with ctl := .done (-1) }
  | some h => { t with sighandler := h, ctl := .done t.sighandler }

/-- What a step does in the system call `n`. -/
def Task.inCall (t : Task) (n : Word) : Act → Option Task
  | .poke m => some { t with mem := m }
  | .grow sz m => if n = SYS_sbrk then some { t with sz := sz, mem := m } else none
  | .sigset => if n = SYS_sigset then some t.sigset else none
  | .sigret => if n = SYS_sigret then some { t with tf := t.oldTf, ctl := .restored } else none
  | .exec img => if n = SYS_exec then some { t with ctl := .exec img .pgdir } else none
  | .ret v => if n = SYS_sigset ∨ n = SYS_sigret then none else some { t with ctl := .done v }
  | .run _ _ | .trap | .intr | .go | .pend _ | .exit => none

def Task.act (t : Task) (a : Act) : Option Task :=
  match a with
  | .intr => if t.ctl.live then some (fixTf t) else none
  | .pend cs => some { t with pending := cs }
  | .go => t.next
  | .run tf m =>
    match t.ctl with
    | .user => if rpl t.tf.cs = DPL_USER ∧ UserMove t.tf tf then some { t with tf := tf, mem := m } else none
    | _ => none
  | .trap =>
    match t.ctl with
    | .user => some { t with ctl := dispatch t.tf.eax }
    | _ => none
  | .exit =>
    match t.ctl with
    | .user | .call _ | .fix .cs => some { t with ctl := .unused }
    | _ => none
  | .poke _ | .grow _ _ | .sigset | .sigret | .exec _ | .ret _ =>
    match t.ctl with
    | .call n => t.inCall n a
    | _ => none

/-- The user contexts of the process table. -/
abbrev State := Slot → Task

/-- What `allocproc` resets in the slot it claims. -/
def Task.alloc (t : Task) : Task :=
  { t with
    ctl := .embryo, handlingSignal := false, pending := { t.pending with used := fun _ => false, head := none } }

/-- What a statement of `fork` in the process `t` does to the new process `np`. -/
def ForkAt.step (t np : Task) : ForkAt → Task
  | .vm => { np with mem := t.mem }
  | .tf => { np with tf := t.tf, sz := t.sz }
  | .eax => { np with tf := { np.tf with eax := 0 } }
  | .handler => { np with sighandler := t.sighandler }
  | .run => { np with ctl := .fix .cs }

/-- The statement of `fork` after this one; `none` when it returns. -/
def ForkAt.next : ForkAt → Option ForkAt
  | .vm => some .tf
  | .tf => some .eax
  | .eax => some .handler
  | .handler => some .run
  | .run => none

/-- `fork` has copied the trap frame. -/
def ForkAt.copied : ForkAt → Bool
  | .vm | .tf => false
  | .eax | .handler | .run => true

inductive Label
  | own (q : Slot) (a : Act)
  /-- `allocproc` in the `fork` of `q` claims the slot `c`. -/
  | alloc (q c : Slot)
  /-- The next statement of the `fork` of `q`; `pid` is what it returns after the last one. -/
  | copy (q : Slot) (pid : Word)
  /-- `copyuvm` in the `fork` of `q` finds no memory. -/
  | nomem (q : Slot)

/-- The control point of a process after a statement of `fork`. -/
def ForkAt.after (pc : ForkAt) (c : Slot) (pid : Word) : Ctl :=
  match pc.next with
  | some pc' => .fork c pc'
  | none => .done pid

/-- **One step** of the processes between traps. -/
def step (s : State) : Label → Option State
  | .own q a => ((s q).act a).map fun t => update s q t
  | .alloc q c =>
    match (s q).ctl, (s c).ctl with
    | .call n, .unused =>
      if n = SYS_fork then
        some (update (update s c (s c).alloc) q { s q with ctl := .fork c .vm })
      else none
    | _, _ => none
  | .copy q pid =>
    match (s q).ctl with
    | .fork c pc =>
      some (update (update s c (pc.step (s q) (s c))) q { s q with ctl := pc.after c pid })
    | _ => none
  | .nomem q =>
    match (s q).ctl with
    | .fork c .vm =>
      some (update (update s c { s c with ctl := .unused }) q { s q with ctl := .done (-1) })
    | _ => none

/-- The frame that `userinit` makes: `SEG_UCODE` is 4, `SEG_UDATA` is 5, `PGSIZE` is 4096. -/
def userinitTf : Trapframe :=
  { Trapframe.zero with cs := 0x23, ds := 0x2b, es := 0x2b, ss := 0x2b, eflags := FL_IF, esp := 4096 }

/-- The process table after `userinit`: `initproc` in slot 0 enters user mode through `forkret`. `userinit` does not
set `sighandler`, and the table is zero otherwise. -/
def boot : State := fun q =>
  { ctl := if q = 0 then .fix .cs else .unused
    tf := if q = 0 then userinitTf else .zero
    oldTf := .zero
    handlingSignal := false
    sighandler := 0
    pending := .empty
    sz := if q = 0 then 4096 else 0
    mem := fun _ => 0 }

/-! ## Pieces of runs -/

def Ctl.isUser : Ctl → Bool
  | .user => true
  | _ => false

theorem Ctl.eq_user_of_isUser {k : Ctl} (h : k.isUser = true) : k = .user := by
  cases k <;> simp_all [Ctl.isUser]

/-- A stack with one pending signal, from the process 3 with the value 9. -/
def oneSignal : Cstack :=
  { Cstack.empty with
    senderPid := fun _ => 3, recepientPid := fun _ => 2, value := fun _ => 9, used := fun i => i == 0, head := some 0 }

/-- `n` statements of the process in slot `q`. -/
def goes (q : Slot) (n : ℕ) : List Label := List.replicate n (.own q .go)

/-- `initproc` executes a system call instruction with the number `n` in `eax`. -/
def calls (n : Word) : List Label := [.own 0 (.run { userinitTf with eax := n } fun _ => 0), .own 0 .trap]

/-- `sigret`, called by `initproc` and left again through `trapret`, which takes `n` statements. -/
def sigretCall (n : ℕ) : List Label := calls SYS_sigret ++ [.own 0 .sigret] ++ goes 0 (2 + n)

/-! ## What a step can do -/

/-- What a statement of `fix_tf` in `trapret` can do. -/
inductive Task.Fixes (t : Task) (pc : FixTf) : Task → Prop
  | next {t' : Task} {pc' : FixTf} : FixTf.Stepped t pc t' (.inl pc') → Fixes t pc { t' with ctl := .fix pc' }
  | last {t' : Task} : FixTf.Stepped t pc t' (.inr ()) → Fixes t pc { t' with ctl := .user }

theorem Task.fixes (t : Task) (pc : FixTf) : t.Fixes pc (t.fix pc) := by
  have h := FixTf.stepped t pc
  unfold Task.fix
  split
  · rename_i pc' e
    rw [e] at h
    exact .next h
  · rename_i e
    rw [e] at h
    exact .last h

inductive Moves (t : Task) : Act → Task → Prop
  | run {tf : Trapframe} {m : Umem} : t.ctl = .user → rpl t.tf.cs = DPL_USER → UserMove t.tf tf →
      Moves t (.run tf m) { t with tf := tf, mem := m }
  | trap : t.ctl = .user → Moves t .trap { t with ctl := dispatch t.tf.eax }
  | intr : t.ctl.live = true → Moves t .intr (fixTf t)
  | pend {cs : Cstack} : Moves t (.pend cs) { t with pending := cs }
  | poke {n : Word} {m : Umem} : t.ctl = .call n → Moves t (.poke m) { t with mem := m }
  | grow {sz : Word} {m : Umem} : t.ctl = .call SYS_sbrk → Moves t (.grow sz m) { t with sz := sz, mem := m }
  | sigsetFail : t.ctl = .call SYS_sigset → argptr t 0 4 = none → Moves t .sigset { t with ctl := .done (-1) }
  | sigset {h : Word} : t.ctl = .call SYS_sigset → argptr t 0 4 = some h →
      Moves t .sigset { t with sighandler := h, ctl := .done t.sighandler }
  | sigret : t.ctl = .call SYS_sigret → Moves t .sigret { t with tf := t.oldTf, ctl := .restored }
  | restored : t.ctl = .restored → Moves t .go { t with handlingSignal := false, ctl := .done 0 }
  | exec {img : Image} : t.ctl = .call SYS_exec → Moves t (.exec img) { t with ctl := .exec img .pgdir }
  | commit {img : Image} {pc : ExecAt} : t.ctl = .exec img pc → Moves t .go (pc.step t img)
  | ret {n v : Word} : t.ctl = .call n → n ≠ SYS_sigset → n ≠ SYS_sigret → Moves t (.ret v) { t with ctl := .done v }
  | done {v : Word} : t.ctl = .done v → Moves t .go { t with tf := { t.tf with eax := v }, ctl := .fix .cs }
  | fix {pc : FixTf} : t.ctl = .fix pc → Moves t .go (t.fix pc)
  | exit : t.ctl.live = true → Moves t .exit { t with ctl := .unused }

theorem Task.act_moves {t t' : Task} {a : Act} (h : t.act a = some t') : Moves t a t' := by
  cases a with
  | run tf m =>
    simp only [Task.act] at h
    split at h
    · rename_i hc
      obtain ⟨⟨hu, hm⟩, rfl⟩ : (rpl t.tf.cs = DPL_USER ∧ UserMove t.tf tf) ∧ _ = t' := by simpa using h
      exact .run hc hu hm
    · cases h
  | trap =>
    simp only [Task.act] at h
    split at h
    · rename_i hc
      obtain rfl := by simpa using h
      exact .trap hc
    · cases h
  | intr =>
    obtain ⟨hl, rfl⟩ : t.ctl.live = true ∧ _ = t' := by simpa [Task.act] using h
    exact .intr hl
  | pend cs =>
    obtain rfl : _ = t' := by simpa [Task.act] using h
    exact .pend
  | go =>
    simp only [Task.act, Task.next] at h
    split at h
    · rename_i img pc hc
      obtain rfl := by simpa using h
      exact .commit hc
    · rename_i hc
      obtain rfl := by simpa using h
      exact .restored hc
    · rename_i v hc
      obtain rfl := by simpa using h
      exact .done hc
    · rename_i pc hc
      obtain rfl := by simpa using h
      exact .fix hc
    all_goals cases h
  | exit =>
    simp only [Task.act] at h
    split at h
    all_goals first | cases h; done | skip
    all_goals
      rename_i hc
      obtain rfl := by simpa using h
      exact .exit (by rw [hc]; rfl)
  | poke m =>
    simp only [Task.act] at h
    split at h
    · rename_i n hc
      obtain rfl : _ = t' := by simpa [Task.inCall] using h
      exact .poke hc
    · cases h
  | grow sz m =>
    simp only [Task.act] at h
    split at h
    · rename_i n hc
      obtain ⟨rfl, rfl⟩ : n = SYS_sbrk ∧ _ = t' := by simpa [Task.inCall] using h
      exact .grow hc
    · cases h
  | sigset =>
    simp only [Task.act] at h
    split at h
    · rename_i n hc
      obtain ⟨rfl, rfl⟩ : n = SYS_sigset ∧ t.sigset = t' := by simpa [Task.inCall] using h
      unfold Task.sigset
      split
      · exact .sigsetFail hc ‹_›
      · exact .sigset hc ‹_›
    · cases h
  | sigret =>
    simp only [Task.act] at h
    split at h
    · rename_i n hc
      obtain ⟨rfl, rfl⟩ : n = SYS_sigret ∧ _ = t' := by simpa [Task.inCall] using h
      exact .sigret hc
    · cases h
  | exec img =>
    simp only [Task.act] at h
    split at h
    · rename_i n hc
      obtain ⟨rfl, rfl⟩ : n = SYS_exec ∧ _ = t' := by simpa [Task.inCall] using h
      exact .exec hc
    · cases h
  | ret v =>
    simp only [Task.act] at h
    split at h
    · rename_i n hc
      obtain ⟨⟨h1, h2⟩, rfl⟩ : (¬ n = SYS_sigset ∧ ¬ n = SYS_sigret) ∧ _ = t' := by simpa [Task.inCall] using h
      exact .ret hc h1 h2
    · cases h

theorem step_own {s s' : State} {q : Slot} {a : Act} (h : step s (.own q a) = some s') : (s q).act a = some (s' q) := by
  obtain ⟨t, ht, rfl⟩ := Option.map_eq_some_iff.mp h
  rw [update_self]
  exact ht

/-- The steps of the processes between traps. -/
inductive Steps (s : State) : Label → State → Prop
  | own {q : Slot} {a : Act} {t : Task} : Moves (s q) a t → Steps s (.own q a) (update s q t)
  | alloc {q c : Slot} : (s q).ctl = .call SYS_fork → (s c).ctl = .unused →
      Steps s (.alloc q c) (update (update s c (s c).alloc) q { s q with ctl := .fork c .vm })
  | copy {q c : Slot} {pc : ForkAt} {pid : Word} : (s q).ctl = .fork c pc →
      Steps s (.copy q pid)
        (update (update s c (pc.step (s q) (s c))) q { s q with ctl := pc.after c pid })
  | nomem {q c : Slot} : (s q).ctl = .fork c .vm →
      Steps s (.nomem q)
        (update (update s c { s c with ctl := .unused }) q { s q with ctl := .done (-1) })

theorem step_steps {s s' : State} {l : Label} (h : step s l = some s') : Steps s l s' := by
  cases l with
  | own q a =>
    obtain ⟨t, ht, rfl⟩ := Option.map_eq_some_iff.mp h
    exact .own (Task.act_moves ht)
  | alloc q c =>
    simp only [step] at h
    split at h
    · rename_i n hq hc
      obtain ⟨rfl, rfl⟩ : n = SYS_fork ∧ _ = s' := by simpa using h
      exact .alloc hq hc
    · cases h
  | copy q pid =>
    simp only [step] at h
    split at h
    · rename_i c pc hq
      obtain rfl := by simpa using h
      exact .copy hq
    · cases h
  | nomem q =>
    simp only [step] at h
    split at h
    · rename_i c hq
      obtain rfl := by simpa using h
      exact .nomem hq
    · cases h

end Xv6.Trap
