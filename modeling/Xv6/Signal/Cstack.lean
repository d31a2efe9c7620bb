import Xv6.Lib.Chain
import Xv6.Lib.Transition
import Xv6.Param

/-!
# The concurrent stack of pending signals: `push` and `pop` of `proc.c`

A `cstack` is an array of frames and a head pointer. `Push` and `Pop` are the control points of the two functions: each
names the next load, store or cas of the C code, and `Push.step` and `Pop.step` execute it.
-/

namespace Xv6

open Function (update)

/-- `struct cstack`: one column for each field of `struct cstackframe`, and the head. -/
structure Cstack where
  senderPid : FrameIx → Word
  recepientPid : FrameIx → Word
  value : FrameIx → Word
  used : FrameIx → Bool
  next : FrameIx → Option FrameIx
  head : Option FrameIx

/-- The arguments of `push`: what a frame carries. -/
structure Record where
  sender : Word
  recepient : Word
  value : Word
  deriving DecidableEq

namespace Cstack

def record (cs : Cstack) (i : FrameIx) : Record := ⟨cs.senderPid i, cs.recepientPid i, cs.value i⟩

/-- The stack after the initialisation in `allocproc`: no frame used, no head. -/
def empty : Cstack := ⟨fun _ => 0, fun _ => 0, fun _ => 0, fun _ => false, fun _ => none, none⟩

def isEmpty (cs : Cstack) : Bool := cs.head.isNone

end Cstack

inductive Push
  /-- `cas(&csf->used, 0, 1)` in the search for an unused frame. -/
  | scan (i : FrameIx)
  /-- `csf->sender_pid = sender_pid`. -/
  | sender (i : FrameIx)
  /-- `csf->recepient_pid = recepient_pid`. -/
  | recepient (i : FrameIx)
  /-- `csf->value = value`. -/
  | value (i : FrameIx)
  /-- The load of `cstack->head` in `csf->next = cstack->head`. -/
  | loadHead (i : FrameIx)
  /-- The store of `csf->next`. -/
  | storeNext (i : FrameIx) (h : Option FrameIx)
  /-- The load of `csf->next` for the second argument of the cas. -/
  | loadNext (i : FrameIx)
  /-- `cas(&cstack->head, next, csf)`. -/
  | casHead (i : FrameIx) (n : Option FrameIx)
  deriving DecidableEq

/-- One atomic step of `push`, called with the record `r`. -/
def Push.step (cs : Cstack) (r : Record) : Push → Cstack × (Push ⊕ Bool)
  | .scan i =>
    if cs.used i then
      match nextIx i with
      | some j => (cs, .inl (.scan j))
      | none => (cs, .inr false)
    else ({ cs with used := update cs.used i true }, .inl (.sender i))
  | .sender i => ({ cs with senderPid := update cs.senderPid i r.sender }, .inl (.recepient i))
  | .recepient i => ({ cs with recepientPid := update cs.recepientPid i r.recepient }, .inl (.value i))
  | .value i => ({ cs with value := update cs.value i r.value }, .inl (.loadHead i))
  | .loadHead i => (cs, .inl (.storeNext i cs.head))
  | .storeNext i h => ({ cs with next := update cs.next i h }, .inl (.loadNext i))
  | .loadNext i => (cs, .inl (.casHead i (cs.next i)))
  | .casHead i n => if cs.head = n then ({ cs with head := some i }, .inr true) else (cs, .inl (.loadHead i))

inductive Pop
  /-- `csf = cstack->head`, and the return of 0 if it is null. -/
  | loadHead
  /-- `next = csf->next`. -/
  | loadNext (i : FrameIx)
  /-- `cas(&cstack->head, csf, next)`. -/
  | casHead (i : FrameIx) (n : Option FrameIx)
  deriving DecidableEq

def Pop.step (cs : Cstack) : Pop → Cstack × (Pop ⊕ Option FrameIx)
  | .loadHead =>
    match cs.head with
    | none => (cs, .inr none)
    | some i => (cs, .inl (.loadNext i))
  | .loadNext i => (cs, .inl (.casHead i (cs.next i)))
  | .casHead i n => if cs.head = some i then ({ cs with head := n }, .inr (some i)) else (cs, .inl .loadHead)

/-- The frame that the scan of `push` claims, if it starts at the frames `l`. -/
def Cstack.firstUnused (cs : Cstack) (l : List FrameIx) : Option FrameIx := l.find? fun i => !cs.used i

/-- The frame `i` filled with the record `r` and put in front of the list. -/
def Cstack.link (cs : Cstack) (i : FrameIx) (r : Record) : Cstack where
  senderPid := update cs.senderPid i r.sender
  recepientPid := update cs.recepientPid i r.recepient
  value := update cs.value i r.value
  used := update cs.used i true
  next := update cs.next i cs.head
  head := some i

/-- `push` with the frames `l` still to be scanned. -/
def Cstack.pushFrom (cs : Cstack) (r : Record) (l : List FrameIx) : Cstack × Bool :=
  match cs.firstUnused l with
  | none => (cs, false)
  | some i => (cs.link i r, true)

def Cstack.push (cs : Cstack) (r : Record) : Cstack × Bool := cs.pushFrom r (List.finRange MAX_CSTACK_FRAMES)

theorem Push.finishes_sender (cs : Cstack) (r : Record) (i : FrameIx) :
    Lib.Finishes (fun cs pc => Push.step cs r pc) { cs with used := update cs.used i true } (.sender i)
      (cs.link i r) true := by
  refine .next rfl (.next rfl (.next rfl (.next rfl (.next rfl (.next rfl (.ret ?_))))))
  simp [Push.step, Cstack.link]

theorem Push.finishes_scan (cs : Cstack) (r : Record) (k : ℕ) (i : FrameIx) (hk : i.val + k + 1 = MAX_CSTACK_FRAMES) :
    Lib.Finishes (fun cs pc => Push.step cs r pc) cs (.scan i)
      (cs.pushFrom r ((List.finRange MAX_CSTACK_FRAMES).drop i.val)).1
      (cs.pushFrom r ((List.finRange MAX_CSTACK_FRAMES).drop i.val)).2 := by
  induction k generalizing i with
  | zero =>
    have hd : (List.finRange MAX_CSTACK_FRAMES).drop i.val = [i] := by
      rw [List.drop_eq_getElem_cons (by simp), List.getElem_finRange, List.drop_of_length_le (by simp; omega)]
      simp
    have hn : nextIx i = none := nextIx_eq_none.mpr (by omega)
    cases hu : cs.used i with
    | true => exact .ret (by simp [Push.step, hu, hn, hd, Cstack.pushFrom, Cstack.firstUnused])
    | false =>
      refine .next (by simp only [Push.step, hu, Bool.false_eq_true, ↓reduceIte]; rfl) ?_
      simpa [hd, hu, Cstack.pushFrom, Cstack.firstUnused] using Push.finishes_sender cs r i
  | succ k ih =>
    obtain ⟨j, hj⟩ : ∃ j : FrameIx, j.val = i.val + 1 := ⟨⟨i.val + 1, by omega⟩, rfl⟩
    have hd : (List.finRange MAX_CSTACK_FRAMES).drop i.val = i :: (List.finRange MAX_CSTACK_FRAMES).drop j.val := by
      rw [List.drop_eq_getElem_cons (by simp), List.getElem_finRange, hj]
      simp
    have hn : nextIx i = some j := nextIx_eq_some.mpr hj
    cases hu : cs.used i with
    | true =>
      refine .next (by simp only [Push.step, hu, hn, ↓reduceIte]; rfl) ?_
      simpa [hd, hu, Cstack.pushFrom, Cstack.firstUnused] using ih j (by omega)
    | false =>
      refine .next (by simp only [Push.step, hu, Bool.false_eq_true, ↓reduceIte]; rfl) ?_
      simpa [hd, hu, Cstack.pushFrom, Cstack.firstUnused] using Push.finishes_sender cs r i

theorem Push.finishes (cs : Cstack) (r : Record) :
    Lib.Finishes (fun cs pc => Push.step cs r pc) cs (.scan 0) (cs.push r).1 (cs.push r).2 :=
  Push.finishes_scan cs r 9 0 rfl

def Cstack.pop (cs : Cstack) : Cstack × Option FrameIx :=
  match cs.head with
  | none => (cs, none)
  | some i => ({ cs with head := cs.next i }, some i)

/-- The frame that a `push` has claimed and not yet linked. -/
def Push.claims : Push → Option FrameIx
  | .scan _ => none
  | .sender i | .recepient i | .value i | .loadHead i | .storeNext i _ | .loadNext i | .casHead i _ => some i

/-- What a `push` of `r` has written of its frame so far. -/
def Push.Written (cs : Cstack) (r : Record) : Push → Prop
  | .scan _ | .sender _ => True
  | .recepient i => cs.senderPid i = r.sender
  | .value i => cs.senderPid i = r.sender ∧ cs.recepientPid i = r.recepient
  | .loadHead i | .storeNext i _ | .loadNext i => cs.record i = r
  | .casHead i n => cs.record i = r ∧ cs.next i = n

theorem Push.step_record {cs : Cstack} {r : Record} {pc : Push} {i : FrameIx} (h : pc.claims ≠ some i) :
    (pc.step cs r).1.record i = cs.record i := by
  cases pc with
  | scan j =>
    simp only [Push.step]
    split
    · split <;> rfl
    · rfl
  | casHead j n =>
    simp only [Push.step]
    split <;> rfl
  | sender j | recepient j | value j =>
    have hji : i ≠ j := fun e => h (by rw [e]; rfl)
    simp [Push.step, Cstack.record, hji]
  | loadHead j | storeNext j n | loadNext j => rfl

theorem Push.Written.congr {cs cs' : Cstack} {r : Record} {pc : Push} (h : pc.Written cs r)
    (hr : ∀ i, pc.claims = some i → cs'.record i = cs.record i ∧ cs'.next i = cs.next i) : pc.Written cs' r := by
  cases pc with
  | scan i => exact trivial
  | sender i => exact trivial
  | recepient i =>
    have e := congrArg Record.sender (hr i rfl).1
    exact e.trans h
  | value i =>
    have e := congrArg Record.sender (hr i rfl).1
    have e' := congrArg Record.recepient (hr i rfl).1
    exact ⟨e.trans h.1, e'.trans h.2⟩
  | loadHead i => exact (hr i rfl).1.trans h
  | storeNext i n => exact (hr i rfl).1.trans h
  | loadNext i => exact (hr i rfl).1.trans h
  | casHead i n => exact ⟨(hr i rfl).1.trans h.1, (hr i rfl).2.trans h.2⟩

end Xv6
