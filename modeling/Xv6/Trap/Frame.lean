import Xv6.Signal.Cstack

/-!
# Trap frames, user memory, and `fix_tf`

What the trap path reads and writes of a process (`Task`): the trap frame at the top of its kernel stack, the fields of
`struct proc` for signals, and its memory. When a process is in user mode, `tf` stands for its registers: the next trap
stores them at the same place, the top of the kernel stack.
-/

namespace Xv6.Trap

/-! ## Trap frames and user memory -/

/-- `struct trapframe` of `x86.h`, without its padding. -/
structure Trapframe where
  edi : Word
  esi : Word
  ebp : Word
  oesp : Word
  ebx : Word
  edx : Word
  ecx : Word
  eax : Word
  gs : BitVec 16
  fs : BitVec 16
  es : BitVec 16
  ds : BitVec 16
  trapno : Word
  err : Word
  eip : Word
  cs : BitVec 16
  eflags : Word
  esp : Word
  ss : BitVec 16
  deriving DecidableEq

/-- The frame of zeros: `old_tf` in a slot of the process table that no signal has been delivered in. -/
def Trapframe.zero : Trapframe := ⟨0, 0, 0, 0, 0, 0, 0, 0, 0, 0, 0, 0, 0, 0, 0, 0, 0, 0, 0⟩

def DPL_USER : BitVec 16 := 3

/-- The requested privilege level of a selector. -/
def rpl (sel : BitVec 16) : BitVec 16 := sel &&& 3

abbrev Umem := Word → BitVec 8

def storeBytes (m : Umem) (a : Word) (bs : List (BitVec 8)) : Umem := fun x => (bs[(x - a).toNat]?).getD (m x)

/-- The bytes of a word, the lowest first. -/
def wordBytes (w : Word) : List (BitVec 8) :=
  [w.extractLsb' 0 8, w.extractLsb' 8 8, w.extractLsb' 16 8, w.extractLsb' 24 8]

/-- `*(uint*)a = w`. -/
def storeWord (m : Umem) (a w : Word) : Umem := storeBytes m a (wordBytes w)

/-- `*(uint*)a`. -/
def loadWord (m : Umem) (a : Word) : Word := m (a + 3#32) ++ m (a + 2#32) ++ m (a + 1#32) ++ m a

theorem storeBytes_of_lt {m : Umem} {a x : Word} {bs : List (BitVec 8)} (h : (x - a).toNat < bs.length) :
    storeBytes m a bs x = bs[(x - a).toNat] := by
  rw [storeBytes, List.getElem?_eq_getElem h, Option.getD_some]

theorem storeBytes_of_le {m : Umem} {a x : Word} {bs : List (BitVec 8)} (h : bs.length ≤ (x - a).toNat) :
    storeBytes m a bs x = m x := by
  rw [storeBytes, List.getElem?_eq_none h, Option.getD_none]

def HasBytes (m : Umem) (a : Word) (bs : List (BitVec 8)) : Prop :=
  ∀ k (h : k < bs.length), m (a + BitVec.ofNat 32 k) = bs[k]

theorem hasBytes_storeBytes {m : Umem} {a : Word} {bs : List (BitVec 8)} (hl : bs.length ≤ 2 ^ 32) :
    HasBytes (storeBytes m a bs) a bs := by
  intro k hk
  have e : (a + BitVec.ofNat 32 k - a).toNat = k := by
    have hc : a + BitVec.ofNat 32 k - a = BitVec.ofNat 32 k := by rw [BitVec.add_comm, BitVec.add_sub_cancel]
    rw [hc, BitVec.toNat_ofNat, Nat.mod_eq_of_lt (by omega)]
  have hk' : (a + BitVec.ofNat 32 k - a).toNat < bs.length := by rw [e]; exact hk
  rw [storeBytes_of_lt hk']
  simp only [e]

theorem HasBytes.storeBytes {m : Umem} {a b : Word} {bs cs : List (BitVec 8)} (h : HasBytes m a bs)
    (hfar : ∀ k < bs.length, cs.length ≤ (a + BitVec.ofNat 32 k - b).toNat) : HasBytes (storeBytes m b cs) a bs := by
  intro k hk
  rw [storeBytes_of_le (hfar k hk)]
  exact h k hk

theorem loadWord_of_hasBytes {m : Umem} {a w : Word} (h : HasBytes m a (wordBytes w)) : loadWord m a = w := by
  have h0 := h 0 (by simp [wordBytes])
  have h1 := h 1 (by simp [wordBytes])
  have h2 := h 2 (by simp [wordBytes])
  have h3 := h 3 (by simp [wordBytes])
  simp only [wordBytes, List.getElem_cons_zero, List.getElem_cons_succ] at h0 h1 h2 h3
  unfold loadWord
  rw [h3, h2, h1, show m a = _ from by simpa using h0]
  ext i hi
  simp only [BitVec.getElem_append, BitVec.getElem_extractLsb']
  grind

/-! ## What the trap path sees of a process -/

/-- The control points of `fix_tf`, one for each statement. -/
inductive FixTf
  /-- `(proc->tf->cs & 3) != DPL_USER`. -/
  | cs
  /-- `proc->handling_signal == 1`. -/
  | handling
  /-- `new_signal = pop(&proc->pending_signals)`. -/
  | pop (pc : Pop)
  /-- `proc->sighandler == DEFSIG_HENDLER`. -/
  | handler (i : FrameIx)
  /-- `proc->old_tf = *(proc->tf)`. -/
  | save (i : FrameIx)
  /-- `proc->handling_signal = 1`. -/
  | set (i : FrameIx)
  /-- `new_signal->used = 0`. -/
  | used (i : FrameIx)
  /-- `proc->tf->esp -= addr_space`. -/
  | espCode (i : FrameIx)
  /-- `memmove((void *)proc->tf->esp, &&goToStack, addr_space)`. -/
  | code (i : FrameIx)
  /-- `proc->tf->esp -= 4` before the second parameter of the handler. -/
  | espValue (i : FrameIx)
  /-- `*(uint *)proc->tf->esp = new_signal->value`. -/
  | value (i : FrameIx)
  /-- `proc->tf->esp -= 4` before the first parameter. -/
  | espSender (i : FrameIx)
  /-- `*(uint *)proc->tf->esp = new_signal->sender_pid`. -/
  | sender (i : FrameIx)
  /-- `proc->tf->esp -= 4` before the return address. -/
  | espRet
  /-- `*(uint *)proc->tf->esp = proc->tf->esp + 12`. -/
  | ret
  /-- `proc->tf->eip = (int)proc->sighandler`. -/
  | eip
  deriving DecidableEq

/-- The stages of `fork` after `allocproc`. -/
inductive ForkAt
  /-- `np->pgdir = copyuvm(proc->pgdir, proc->sz)`. -/
  | vm
  /-- `*np->tf = *proc->tf`, with `np->sz = proc->sz`. -/
  | tf
  /-- `np->tf->eax = 0`. -/
  | eax
  /-- `np->sighandler = proc->sighandler`. -/
  | handler
  /-- `cas(&(np->state), EMBRYO, RUNNABLE)`. -/
  | run
  deriving DecidableEq

/-- The image that `exec` has loaded: memory, size, entry point and stack pointer. -/
structure Image where
  mem : Umem
  sz : Word
  entry : Word
  sp : Word

/-- The stages of the end of `exec`, which commits to the new image. -/
inductive ExecAt
  /-- `proc->pgdir = pgdir`, `proc->sz = sz`. -/
  | pgdir
  /-- `proc->tf->eip = elf.entry`. -/
  | eip
  /-- `proc->tf->esp = sp`. -/
  | esp
  /-- `proc->sighandler = DEFSIG_HENDLER`. -/
  | handler
  deriving DecidableEq

/-- Where a process is: in user mode, or at a point of the kernel code between two traps. -/
inductive Ctl
  /-- No process in this slot. -/
  | unused
  /-- Claimed by `allocproc`; its first return to user mode is through `forkret` and `trapret`. -/
  | embryo
  | user
  /-- In the system call number `n`. -/
  | call (n : Word)
  /-- In `fork`, making the process of slot `c`. -/
  | fork (c : Slot) (pc : ForkAt)
  | exec (img : Image) (pc : ExecAt)
  /-- In `sigret`, between `*(proc->tf) = proc->old_tf` and `proc->handling_signal = 0`. -/
  | restored
  /-- In `syscall`, with the return value that is to be stored in `proc->tf->eax`. -/
  | done (v : Word)
  /-- In `trapret`, executing `fix_tf`. -/
  | fix (pc : FixTf)

/-- There is a process that the scheduler can run. -/
def Ctl.live : Ctl → Bool
  | .unused | .embryo => false
  | _ => true

/-- What the trap path reads and writes of a process. -/
structure Task where
  ctl : Ctl
  tf : Trapframe
  oldTf : Trapframe
  handlingSignal : Bool
  sighandler : Word
  pending : Cstack
  sz : Word
  mem : Umem

/-! ## `fix_tf` -/

/-- `movl $24, %eax; int $64`: the code between the labels `goToStack` and `returnFromStack`. -/
def trampoline : List (BitVec 8) := [0xb8, 24, 0, 0, 0, 0xcd, 64]

/-- `proc->tf->esp -= n`. -/
def Task.subEsp (t : Task) (n : Word) : Task := { t with tf := { t.tf with esp := t.tf.esp - n } }

/-- `*(uint *)proc->tf->esp = w`. -/
def Task.storeEsp (t : Task) (w : Word) : Task := { t with mem := storeWord t.mem t.tf.esp w }

/-- One statement of `fix_tf`; an access to the pending signals inside `pop` is a step of its own. -/
def FixTf.step (t : Task) : FixTf → Task × (FixTf ⊕ Unit)
  | .cs => if rpl t.tf.cs = DPL_USER then (t, .inl .handling) else (t, .inr ())
  | .handling => if t.handlingSignal then (t, .inr ()) else (t, .inl (.pop .loadHead))
  | .pop pc =>
    ({ t with pending := (pc.step t.pending).1 },
      match (pc.step t.pending).2 with
      | .inl pc' => .inl (.pop pc')
      | .inr none => .inr ()
      | .inr (some i) => .inl (.handler i))
  | .handler i => if t.sighandler = DEFSIG_HENDLER then (t, .inr ()) else (t, .inl (.save i))
  | .save i => ({ t with oldTf := t.tf }, .inl (.set i))
  | .set i => ({ t with handlingSignal := true }, .inl (.used i))
  | .used i =>
    ({ t with pending := { t.pending with used := Function.update t.pending.used i false } }, .inl (.espCode i))
  | .espCode i => (t.subEsp 7, .inl (.code i))
  | .code i => ({ t with mem := storeBytes t.mem t.tf.esp trampoline }, .inl (.espValue i))
  | .espValue i => (t.subEsp 4, .inl (.value i))
  | .value i => (t.storeEsp (t.pending.value i), .inl (.espSender i))
  | .espSender i => (t.subEsp 4, .inl (.sender i))
  | .sender i => (t.storeEsp (t.pending.senderPid i), .inl .espRet)
  | .espRet => (t.subEsp 4, .inl .ret)
  | .ret => (t.storeEsp (t.tf.esp + 12), .inl .eip)
  | .eip => ({ t with tf := { t.tf with eip := t.sighandler } }, .inr ())

/-! ### The phases of `fix_tf` -/

/-- The tests, up to the decision to deliver. -/
def FixTf.testing : FixTf → Bool
  | .cs | .handling | .pop _ | .handler _ => true
  | _ => false

/-- The frame has been saved and the flag raised, and the frame has been written. -/
def FixTf.pushing : FixTf → Bool
  | .code _ | .espValue _ | .value _ | .espSender _ | .sender _ | .espRet | .ret | .eip => true
  | _ => false

/-- What a statement of `fix_tf` can do, and what comes after it. -/
inductive FixTf.Stepped (t : Task) (pc : FixTf) : Task → FixTf ⊕ Unit → Prop
  | test {cs : Cstack} {pc' : FixTf} : pc.testing = true → pc'.testing = true ∨ (∃ i, pc' = .save i) →
      Stepped t pc { t with pending := cs } (.inl pc')
  | leave {cs : Cstack} : pc.testing = true → Stepped t pc { t with pending := cs } (.inr ())
  | save {i : FrameIx} : pc = .save i → Stepped t pc { t with oldTf := t.tf } (.inl (.set i))
  | set {i : FrameIx} : pc = .set i → Stepped t pc { t with handlingSignal := true } (.inl (.used i))
  | used {i : FrameIx} {cs : Cstack} : pc = .used i → Stepped t pc { t with pending := cs } (.inl (.espCode i))
  | push {esp : Word} {m : Umem} {pc' : FixTf} : pc.pushing = true ∨ (∃ i, pc = .espCode i) → pc'.pushing = true →
      Stepped t pc { t with tf := { t.tf with esp := esp }, mem := m } (.inl pc')
  | eip {eip : Word} : pc = .eip → Stepped t pc { t with tf := { t.tf with eip := eip } } (.inr ())

theorem FixTf.stepped (t : Task) (pc : FixTf) : FixTf.Stepped t pc (pc.step t).1 (pc.step t).2 := by
  cases pc with
  | cs =>
    simp only [FixTf.step]
    split
    · exact .test rfl (.inl rfl)
    · exact .leave rfl
  | handling =>
    simp only [FixTf.step]
    split
    · exact .leave rfl
    · exact .test rfl (.inl rfl)
  | pop pc =>
    simp only [FixTf.step]
    split
    · exact .test rfl (.inl rfl)
    · exact .leave rfl
    · exact .test rfl (.inl rfl)
  | handler i =>
    simp only [FixTf.step]
    split
    · exact .leave rfl
    · exact .test rfl (.inr ⟨i, rfl⟩)
  | save i => exact .save rfl
  | set i => exact .set rfl
  | used i => exact .used rfl
  | espCode i => exact .push (.inr ⟨i, rfl⟩) rfl
  | code | espValue | value | espSender | sender | espRet | ret => exact .push (.inl rfl) rfl
  | eip => exact .eip rfl

/-- The statements of `fix_tf` from the save of the frame on. -/
def FixTf.delivery (i : FrameIx) : List FixTf :=
  [.save i, .set i, .used i, .espCode i, .code i, .espValue i, .value i, .espSender i, .sender i, .espRet, .ret, .eip]

/-- The delivery of the signal in the frame `i`, once `pop` has returned it. -/
def Task.deliver (t : Task) (i : FrameIx) : Task := (FixTf.delivery i).foldl (fun t pc => (pc.step t).1) t

def fixTf (t : Task) : Task :=
  if rpl t.tf.cs ≠ DPL_USER then t
  else if t.handlingSignal then t
  else
    match t.pending.pop with
    | (cs, none) => { t with pending := cs }
    | (cs, some i) =>
      if t.sighandler = DEFSIG_HENDLER then { t with pending := cs } else { t with pending := cs }.deliver i

def Task.Delivers (t : Task) : Prop :=
  rpl t.tf.cs = DPL_USER ∧ t.handlingSignal = false ∧ t.pending.head ≠ none ∧ t.sighandler ≠ DEFSIG_HENDLER

instance (t : Task) : Decidable t.Delivers := inferInstanceAs (Decidable (_ ∧ _ ∧ _ ∧ _))

/-- The frame with which the handler starts: the stack pointer is below the 19 bytes that `fix_tf` pushed. -/
def Task.redirected (t : Task) : Trapframe := { t.tf with esp := t.tf.esp - 19, eip := t.sighandler }

theorem Task.deliver_eq (t : Task) (i : FrameIx) :
    t.deliver i =
      { t with
        tf := t.redirected, oldTf := t.tf, handlingSignal := true, pending := (t.deliver i).pending,
        mem := (t.deliver i).mem } := by
  simp only [Task.deliver, FixTf.delivery, List.foldl_cons, List.foldl_nil, FixTf.step, Task.subEsp, Task.storeEsp,
    Task.redirected]
  simp only [Task.mk.injEq, Trapframe.mk.injEq, true_and, and_true]
  bv_omega

theorem Task.pop_none {t : Task} (h : t.pending.head = none) : t.pending.pop = (t.pending, none) := by
  simp [Cstack.pop, h]

theorem Task.pop_some {t : Task} {i : FrameIx} (h : t.pending.head = some i) :
    t.pending.pop = ({ t.pending with head := t.pending.next i }, some i) := by
  simp [Cstack.pop, h]

theorem fixTf_idle {t : Task} (h : ¬ t.Delivers) : fixTf t = { t with pending := (fixTf t).pending } := by
  unfold fixTf
  split
  · rfl
  · rename_i hcs
    split
    · rfl
    · rename_i hh
      cases hp : t.pending.head with
      | none => rw [Task.pop_none hp]
      | some i =>
        have hd : t.sighandler = DEFSIG_HENDLER := by
          by_contra hne
          exact h ⟨not_not.mp hcs, by simpa using hh, by simp [hp], hne⟩
        rw [Task.pop_some hp]
        simp only [hd, ↓reduceIte]

/-- **A delivery**: the interrupted frame is in `old_tf`, the flag is up, and the frame leads to the handler. -/
theorem fixTf_delivers {t : Task} (h : t.Delivers) :
    fixTf t =
      { t with
        tf := t.redirected, oldTf := t.tf, handlingSignal := true, pending := (fixTf t).pending,
        mem := (fixTf t).mem } := by
  obtain ⟨hcs, hh, hp, hd⟩ := h
  obtain ⟨i, hi⟩ := Option.ne_none_iff_exists'.mp hp
  have e : fixTf t = Task.deliver { t with pending := { t.pending with head := t.pending.next i } } i := by
    simp only [fixTf, hcs, hh, Task.pop_some hi, hd, ne_eq, not_true_eq_false, Bool.false_eq_true, ↓reduceIte]
  rw [e]
  exact Task.deliver_eq _ i

theorem Task.redirected_ne (t : Task) : t.redirected ≠ t.tf := by
  intro h
  have he : t.tf.esp - 19 = t.tf.esp := congrArg Trapframe.esp h
  bv_omega

/-- **`fix_tf` changes the trap frame exactly when it delivers a signal.** -/
theorem fixTf_tf_iff (t : Task) : (fixTf t).tf = t.tf ↔ ¬ t.Delivers := by
  constructor
  · intro h hd
    rw [fixTf_delivers hd] at h
    exact t.redirected_ne h
  · intro h
    rw [fixTf_idle h]

@[simp] theorem fixTf_ctl (t : Task) : (fixTf t).ctl = t.ctl := by
  by_cases h : t.Delivers
  · rw [fixTf_delivers h]
  · rw [fixTf_idle h]

/-! ## The stack of the handler -/

/-- **The handler's stack**: the return address leads to the trampoline, and the parameters are the sender and the
value in the frame that `pop` returned. -/
theorem Task.deliver_stack (t : Task) (i : FrameIx) :
    let esp := (t.deliver i).tf.esp
    loadWord (t.deliver i).mem esp = esp + 12 ∧ loadWord (t.deliver i).mem (esp + 4) = t.pending.senderPid i ∧
      loadWord (t.deliver i).mem (esp + 8) = t.pending.value i ∧
      HasBytes (t.deliver i).mem (esp + 12) trampoline := by
  have hesp : (t.deliver i).tf.esp = t.tf.esp - 19 := by rw [Task.deliver_eq]; rfl
  obtain ⟨e, he⟩ : ∃ e, t.tf.esp = e + 19 := ⟨t.tf.esp - 19, by bv_omega⟩
  -- the four stores, each below the earlier ones
  have hmem : (t.deliver i).mem =
      storeWord (storeWord (storeWord (storeBytes t.mem (e + 12) trampoline)
        (e + 8) (t.pending.value i)) (e + 4) (t.pending.senderPid i)) e (e + 12) := by
    have h7 : t.tf.esp - 7 = e + 12 := by bv_omega
    have h8 : e + 12 - 4 = e + 8 := by bv_omega
    have h4 : e + 8 - 4 = e + 4 := by bv_omega
    have h0 : e + 4 - 4 = e := by bv_omega
    have hm : (t.deliver i).mem =
        storeWord (storeWord (storeWord (storeBytes t.mem (t.tf.esp - 7) trampoline)
          (t.tf.esp - 7 - 4) (t.pending.value i)) (t.tf.esp - 7 - 4 - 4) (t.pending.senderPid i))
          (t.tf.esp - 7 - 4 - 4 - 4) (t.tf.esp - 7 - 4 - 4 - 4 + 12) := rfl
    rw [hm, h7, h8, h4, h0]
  have hsp : (t.deliver i).tf.esp = e := by rw [hesp]; bv_omega
  have hlen : ∀ w : Word, (wordBytes w).length = 4 := fun _ => rfl
  have hle : ∀ w : Word, (wordBytes w).length ≤ 2 ^ 32 := fun w => by rw [hlen]; decide
  have htl : trampoline.length = 7 := rfl
  simp only [hsp, hmem]
  refine ⟨?_, ?_, ?_, ?_⟩
  · exact loadWord_of_hasBytes (hasBytes_storeBytes (hle _))
  · apply loadWord_of_hasBytes
    refine (hasBytes_storeBytes (hle _)).storeBytes fun k hk => ?_
    rw [hlen] at hk ⊢
    bv_omega
  · apply loadWord_of_hasBytes
    refine ((hasBytes_storeBytes (hle _)).storeBytes fun k hk => ?_).storeBytes fun k hk => ?_
    all_goals rw [hlen] at hk ⊢; bv_omega
  · refine (((hasBytes_storeBytes (by decide)).storeBytes fun k hk => ?_).storeBytes fun k hk => ?_).storeBytes
      fun k hk => ?_
    all_goals rw [htl] at hk; rw [hlen]; bv_omega

end Xv6.Trap
