import Xv6.Trap.Machine

/-!
# Frames of pending signals are not lost

Complete calls of `sigsend`, `sigset`, `exec`, `fix_tf` and `sigret` on one process, one after the other. A frame is
marked `used` by `push` and unmarked by `fix_tf`, while `pop` takes it off the list; the two agree (`Framed`) as long as
no `fix_tf` pops a signal for the default handler: it drops the signal and leaves the frame marked.
-/

namespace Xv6.Trap

open Lib

/-! ## Complete calls -/

/-- A complete call on the process; `exec` has loaded an image. -/
inductive SigOp
  | sigsend (r : Record)
  | sigset (h : Word)
  | exec (img : Image)
  | fixTf
  | sigret

/-- What a complete call does. -/
def SigOp.apply (t : Task) : SigOp → Task
  | .sigsend r => { t with pending := (t.pending.push r).1 }
  | .sigset h => { t with sighandler := h }
  | .exec img =>
    { t with
      mem := img.mem, sz := img.sz, tf := { t.tf with eip := img.entry, esp := img.sp },
      sighandler := DEFSIG_HENDLER }
  | .fixTf => Trap.fixTf t
  | .sigret => { t with tf := t.oldTf, handlingSignal := false }

/-- The calls as a transition system. -/
def SigOp.step (t : Task) (op : SigOp) : Option Task := some (op.apply t)

/-- What `sigsend` returns. -/
def sigsendRet (t : Task) (r : Record) : Word := if (t.pending.push r).2 then 0 else -1

/-- `fix_tf` pops a signal and drops it, because the handler is the default one. -/
def Task.Drops (t : Task) : Prop :=
  rpl t.tf.cs = DPL_USER ∧ t.handlingSignal = false ∧ t.pending.head ≠ none ∧ t.sighandler = DEFSIG_HENDLER

instance (t : Task) : Decidable t.Drops := inferInstanceAs (Decidable (_ ∧ _ ∧ _ ∧ _))

/-- No `fix_tf` drops a signal. -/
def NoDrop (t : Task) : SigOp → Prop
  | .fixTf => ¬ t.Drops
  | _ => True

instance (t : Task) : (op : SigOp) → Decidable (NoDrop t op)
  | .fixTf => inferInstanceAs (Decidable (¬ t.Drops))
  | .sigsend _ | .sigset _ | .exec _ | .sigret => .isTrue trivial

/-! ## Used frames and the list -/

/-- The used frames are those on the list `l` that starts at the head. -/
structure Framed (cs : Cstack) (l : List FrameIx) : Prop where
  chain : Chain cs.next cs.head l
  nodup : l.Nodup
  used : ∀ i, cs.used i = true ↔ i ∈ l

theorem framed_alloc (t : Task) : Framed t.alloc.pending [] :=
  ⟨rfl, List.nodup_nil, fun i => by simp [Task.alloc]⟩

theorem Framed.link {cs : Cstack} {l : List FrameIx} {i : FrameIx} (h : Framed cs l) (hi : cs.used i = false)
    (r : Record) : Framed (cs.link i r) (i :: l) := by
  have hil : i ∉ l := fun hm => by simp [(h.used i).mpr hm] at hi
  refine ⟨(h.chain.update hil).push (Function.update_self ..), List.nodup_cons.mpr ⟨hil, h.nodup⟩, fun j => ?_⟩
  by_cases e : j = i
  · subst e
    simp [Cstack.link]
  · simp [Cstack.link, e, h.used j]

theorem Framed.push {cs : Cstack} {l : List FrameIx} (h : Framed cs l) (r : Record) :
    ∃ l', Framed (cs.push r).1 l' ∧ ((cs.push r).2 = true ∨ ∀ i, cs.used i = true) := by
  unfold Cstack.push Cstack.pushFrom
  cases hf : cs.firstUnused (List.finRange MAX_CSTACK_FRAMES) with
  | none =>
    refine ⟨l, h, .inr fun i => ?_⟩
    have := List.find?_eq_none.mp hf i (List.mem_finRange i)
    simpa using this
  | some i =>
    have hi : cs.used i = false := by simpa using List.find?_some hf
    exact ⟨i :: l, h.link hi r, .inl rfl⟩

theorem Framed.deliver {cs : Cstack} {l : List FrameIx} {i : FrameIx} (h : Framed cs l) (hi : cs.head = some i) :
    ∃ l', Framed { cs with head := cs.next i, used := Function.update cs.used i false } l' := by
  have hc := h.chain
  rw [hi] at hc
  obtain ⟨l', rfl, hc'⟩ := hc.of_some
  obtain ⟨hil, hn⟩ := List.nodup_cons.mp h.nodup
  refine ⟨l', hc', hn, fun j => ?_⟩
  by_cases e : j = i
  · subst e
    simp [hil]
  · simp [e, h.used j]

theorem Framed.exists_unused {cs : Cstack} {l : List FrameIx} (h : Framed cs l) (hl : l.length < MAX_CSTACK_FRAMES) :
    ¬ ∀ i, cs.used i = true := by
  intro hall
  have hsub : List.finRange MAX_CSTACK_FRAMES ⊆ l := fun i _ => (h.used i).mp (hall i)
  have hle := (List.nodup_finRange MAX_CSTACK_FRAMES).length_le_of_subset hsub
  simp only [List.length_finRange] at hle
  omega

/-! ## `fix_tf` -/

theorem fixTf_pending {t : Task} (h : ¬ t.Drops) :
    (fixTf t).pending = t.pending ∨
      ∃ i, t.pending.head = some i ∧
        (fixTf t).pending =
          { t.pending with head := t.pending.next i, used := Function.update t.pending.used i false } := by
  unfold fixTf
  split
  · exact .inl rfl
  · rename_i hcs
    split
    · exact .inl rfl
    · rename_i hh
      cases hp : t.pending.head with
      | none =>
        rw [Task.pop_none hp]
        exact .inl rfl
      | some i =>
        have hd : t.sighandler ≠ DEFSIG_HENDLER := fun e =>
          h ⟨not_not.mp hcs, by simpa using hh, by simp [hp], e⟩
        rw [Task.pop_some hp]
        simp only [hd, ↓reduceIte]
        exact .inr ⟨i, rfl, rfl⟩

theorem Framed.step {t t' : Task} {op : SigOp} (h : ∃ l, Framed t.pending l) (hok : NoDrop t op)
    (hs : op.step t = some t') : ∃ l, Framed t'.pending l := by
  obtain ⟨l, h⟩ := h
  obtain rfl : op.apply t = t' := by simpa [SigOp.step] using hs
  cases op with
  | sigsend r =>
    obtain ⟨l', hl, -⟩ := h.push r
    exact ⟨l', hl⟩
  | sigset | exec | sigret => exact ⟨l, h⟩
  | fixTf =>
    simp only [SigOp.apply]
    obtain e | ⟨i, hi, e⟩ := fixTf_pending hok
    · rw [e]
      exact ⟨l, h⟩
    · rw [e]
      exact h.deliver hi

/-- **No leak of signal frames**: after every sequence of complete calls on a new process in which no `fix_tf` drops a
signal, a frame is used exactly when it is on the list from the head, and with fewer than `MAX_CSTACK_FRAMES` signals on
the list `sigsend` returns 0. -/
theorem frames_not_leaked {t₀ t : Task} {tr : List (Task × SigOp)}
    (h : Path SigOp.step NoDrop t₀.alloc tr t) :
    ∃ l, Framed t.pending l ∧ (l.length < MAX_CSTACK_FRAMES → ∀ r, sigsendRet t r = 0) := by
  have hf : ∃ l, Framed t.pending l :=
    h.inv (I := fun t => ∃ l, Framed t.pending l) ⟨[], framed_alloc t₀⟩ fun t op t' hi hok hs => Framed.step hi hok hs
  obtain ⟨l, hl⟩ := hf
  refine ⟨l, hl, fun hlt r => ?_⟩
  obtain ⟨-, -, hr⟩ := hl.push r
  have htrue : (t.pending.push r).2 = true := hr.resolve_right (hl.exists_unused hlt)
  simp [sigsendRet, htrue]

/-- The signal with value 9 from process 3 to process 2. -/
def signalNine : Record := ⟨3, 2, 9⟩

/-- A signal is sent to a process with a handler, delivered, and another one is sent. -/
theorem frames_not_leaked_delivered :
    ∃ tr t l, Path SigOp.step NoDrop (boot 0).alloc tr t ∧ t.pending.head = some 0 ∧ Framed t.pending l ∧
      (l.length < MAX_CSTACK_FRAMES → sigsendRet t signalNine = 0) := by
  obtain ⟨t, hp, hh⟩ := exists_path SigOp.step NoDrop (boot 0).alloc
    [.sigset 64, .sigsend signalNine, .fixTf, .sigsend signalNine] (fun t => t.pending.head = some 0) (by decide +kernel)
  obtain ⟨l, hl, hr⟩ := frames_not_leaked hp
  exact ⟨_, t, l, hp, hh, hl, fun h => hr h signalNine⟩

/-- After `exec`, which sets the default handler, a signal is sent and dropped by `fix_tf`: frame 0 is used and not on
the list. After ten such signals nothing is pending, and `sigsend` fails. -/
theorem default_handler_leaks :
    (∃ tr t, Path SigOp.step free (boot 0).alloc tr t ∧ t.pending.head = none ∧ t.pending.used 0 = true) ∧
      ∃ tr t, Path SigOp.step free (boot 0).alloc tr t ∧ t.pending.head = none ∧ sigsendRet t signalNine = -1 := by
  constructor
  · obtain ⟨t, hp, h⟩ := exists_path SigOp.step free (boot 0).alloc
      [.exec ⟨fun _ => 0, 8192, 0, 8000⟩, .sigsend signalNine, .fixTf]
      (fun t => t.pending.head = none ∧ t.pending.used 0 = true) (by decide +kernel)
    exact ⟨_, t, hp, h⟩
  · obtain ⟨t, hp, h⟩ := exists_path SigOp.step free (boot 0).alloc
      (.exec ⟨fun _ => 0, 8192, 0, 8000⟩ :: (List.replicate 10 [.sigsend signalNine, .fixTf]).flatten)
      (fun t => t.pending.head = none ∧ sigsendRet t signalNine = -1) (by decide +kernel)
    exact ⟨_, t, hp, h⟩

end Xv6.Trap
