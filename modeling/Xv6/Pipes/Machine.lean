import Xv6.Lib.Bytes
import Xv6.Lib.Monitor
import Xv6.Lib.Ring
import Xv6.Param

/-!
# Pipes

`pipewrite`, `piperead` and `pipeclose` of `pipe.c`, statement by statement, called by any number of threads. They hold
`p->lock` except while they sleep; a control point names the next statement, and `Pc.locks` says where the lock is held,
so that `Lib.Monitor.step` takes and releases it.
-/

namespace Xv6.Pipes

open Lib

abbrev PIPESIZE : ℕ := 512

/-- `struct pipe` without its lock. -/
structure Pipe where
  data : Fin PIPESIZE → Byte
  nread : Word
  nwrite : Word
  readopen : Bool
  writeopen : Bool

structure Buffer where
  addr : ℕ → Byte
  n : ℤ

def Buffer.bytes (b : Buffer) : List Byte := (List.range b.n.toNat).map b.addr

/-- A pipe and what has gone through it. -/
structure Obj where
  pipe : Pipe
  /-- `kfree((char*)p)` has been called. -/
  freed : Bool
  /-- The `pipewrite` calls so far. -/
  calls : List Buffer
  /-- The bytes stored, with the number of the call. -/
  stored : List (ℕ × Byte)
  /-- The bytes handed to readers. -/
  handed : List Byte

def Obj.bytes (o : Obj) : List Byte := o.stored.map Prod.snd

/-- The bytes that the call with the number `k` has stored. -/
def Obj.bytesOf (o : Obj) (k : ℕ) : List Byte := (o.stored.filter fun x => x.1 = k).map Prod.snd

/-- A pipe after `pipealloc`, in a page with the contents `data`. -/
def Obj.alloc (data : Fin PIPESIZE → Byte) : Obj := ⟨⟨data, 0, 0, true, true⟩, false, [], [], []⟩

/-- `p->data[p->nwrite++ % PIPESIZE] = addr[i]` in the call with the number `k`. -/
def Obj.store (o : Obj) (k : ℕ) (c : Byte) : Obj :=
  { o with
    pipe := { o.pipe with
      data := Function.update o.pipe.data (Ring.cell PIPESIZE o.pipe.nwrite.toNat) c
      nwrite := o.pipe.nwrite + 1 }
    stored := o.stored ++ [(k, c)] }

def Obj.front (o : Obj) : Byte := o.pipe.data (Ring.cell PIPESIZE o.pipe.nread.toNat)

/-- `addr[i] = p->data[p->nread++ % PIPESIZE]`. -/
def Obj.take (o : Obj) : Obj :=
  { o with
    pipe := { o.pipe with nread := o.pipe.nread + 1 }
    handed := o.handed ++ [o.front] }

/-- `p->writeopen = 0` or `p->readopen = 0`. -/
def Obj.close (o : Obj) (writable : Bool) : Obj :=
  if writable then { o with pipe := { o.pipe with writeopen := false } }
  else { o with pipe := { o.pipe with readopen := false } }

/-! ## Control points -/

/-- `pipewrite`, after `acquire`. -/
inductive WriteAt
  /-- `i < n`. -/
  | loop
  /-- `p->nwrite == p->nread + PIPESIZE`. -/
  | full
  /-- `p->readopen == 0 || proc->killed`. -/
  | check
  /-- `release(&p->lock); return -1`. -/
  | fail
  /-- `release` in `sleep(&p->nwrite, &p->lock)`. -/
  | sleep
  /-- `acquire` in `sleep`. -/
  | asleep
  /-- `p->data[p->nwrite++ % PIPESIZE] = addr[i]`. -/
  | store
  /-- `release(&p->lock); return n`. -/
  | done
  deriving DecidableEq

/-- `piperead`, after `acquire`. -/
inductive ReadAt
  /-- `p->nread == p->nwrite && p->writeopen`. -/
  | empty
  /-- `proc->killed`. -/
  | check
  /-- `release(&p->lock); return -1`. -/
  | fail
  /-- `release` in `sleep(&p->nread, &p->lock)`. -/
  | sleep
  /-- `acquire` in `sleep`. -/
  | asleep
  /-- `i < n`, and then `p->nread == p->nwrite`. -/
  | loop
  /-- `addr[i] = p->data[p->nread++ % PIPESIZE]`. -/
  | take
  /-- `release(&p->lock); return i`. -/
  | done
  deriving DecidableEq

/-- `pipeclose`, after `acquire`. -/
inductive CloseAt
  /-- `p->writeopen = 0` or `p->readopen = 0`. -/
  | flag
  /-- `p->readopen == 0 && p->writeopen == 0`. -/
  | test
  /-- `release(&p->lock)` before `kfree`. -/
  | last
  | kfree
  /-- `release(&p->lock)` in the other branch. -/
  | release
  deriving DecidableEq

/-- A thread: outside the functions of `pipe.c`, in their `acquire`, or after it. -/
inductive Pc
  | idle
  | startWrite (b : Buffer)
  /-- `pipewrite` with the number `k`, which has stored `i` bytes. -/
  | write (b : Buffer) (k i : ℕ) (pc : WriteAt)
  | startRead (n : ℤ)
  /-- `piperead`, which has put `got` into its buffer. -/
  | read (n : ℤ) (got : List Byte) (pc : ReadAt)
  | startClose (writable : Bool)
  | close (writable : Bool) (pc : CloseAt)

/-- Control points with `p->lock`. -/
def Pc.locks : Pc → Bool
  | .idle | .startWrite _ | .startRead _ | .startClose _ => false
  | .write _ _ _ pc => pc ≠ .asleep
  | .read _ _ pc => pc ≠ .asleep
  | .close _ pc => pc ≠ .kfree

/-- The labels of steps: a call, or the next statement, with the value of `proc->killed`. -/
inductive Label
  | pipewrite (b : Buffer)
  | piperead (n : ℤ)
  | pipeclose (writable : Bool)
  | go (killed : Bool)

/-! ## Steps -/

def WriteAt.step (killed : Bool) (o : Obj) (b : Buffer) (k i : ℕ) : WriteAt → Obj × Pc
  | .loop => (o, .write b k i (if (i : ℤ) < b.n then .full else .done))
  | .full => (o, .write b k i (if o.pipe.nwrite = o.pipe.nread + BitVec.ofNat 32 PIPESIZE then .check else .store))
  | .check => (o, .write b k i (if o.pipe.readopen = false ∨ killed = true then .fail else .sleep))
  | .fail => (o, .idle)
  | .sleep => (o, .write b k i .asleep)
  | .asleep => (o, .write b k i .full)
  | .store => (o.store k (b.addr i), .write b k (i + 1) .loop)
  | .done => (o, .idle)

def ReadAt.step (killed : Bool) (o : Obj) (n : ℤ) (got : List Byte) : ReadAt → Obj × Pc
  | .empty => (o, .read n got (if o.pipe.nread = o.pipe.nwrite ∧ o.pipe.writeopen = true then .check else .loop))
  | .check => (o, .read n got (if killed = true then .fail else .sleep))
  | .fail => (o, .idle)
  | .sleep => (o, .read n got .asleep)
  | .asleep => (o, .read n got .empty)
  | .loop => (o, .read n got (if (got.length : ℤ) < n ∧ o.pipe.nread ≠ o.pipe.nwrite then .take else .done))
  | .take => (o.take, .read n (got ++ [o.front]) .loop)
  | .done => (o, .idle)

def CloseAt.step (o : Obj) (w : Bool) : CloseAt → Obj × Pc
  | .flag => (o.close w, .close w .test)
  | .test => (o, .close w (if o.pipe.readopen = false ∧ o.pipe.writeopen = false then .last else .release))
  | .last => (o, .close w .kfree)
  | .kfree => ({ o with freed := true }, .idle)
  | .release => (o, .idle)

/-- The next statement of a call. -/
def Pc.next (killed : Bool) (o : Obj) : Pc → Obj × Pc
  | .idle => (o, .idle)
  | .startWrite b => ({ o with calls := o.calls ++ [b] }, .write b o.calls.length 0 .loop)
  | .write b k i pc => pc.step killed o b k i
  | .startRead n => (o, .read n [] .empty)
  | .read n got pc => pc.step killed o n got
  | .startClose w => (o, .close w .flag)
  | .close w pc => pc.step o w

/-- One step of a thread; a pipe that is freed does not take part in any. -/
def act (o : Obj) (t : Pc) (l : Label) : Option (Obj × Pc) :=
  if o.freed = true then none
  else
    match l, t with
    | .pipewrite b, .idle => some (o, .startWrite b)
    | .piperead n, .idle => some (o, .startRead n)
    | .pipeclose w, .idle => some (o, .startClose w)
    | .go _, .idle => none
    | .go killed, t => some (t.next killed o)
    | _, _ => none

abbrev State (P : Type*) := Monitor.State P Obj Pc

/-- One step of one thread, with `acquire` and `release` of `p->lock`. -/
def step {P : Type*} [DecidableEq P] : State P → P × Label → Option (State P) := Monitor.step act Pc.locks

def init {P : Type*} (data : Fin PIPESIZE → Byte) : State P := ⟨.alloc data, none, fun _ => .idle⟩

/-- `n` statements of the thread `p`, which is not killed. -/
def go {P : Type*} (p : P) (n : ℕ) : List (P × Label) := List.replicate n (p, .go false)

/-- The `acquire` of a call. -/
def Label.start : Label → Option Pc
  | .pipewrite b => some (.startWrite b)
  | .piperead n => some (.startRead n)
  | .pipeclose w => some (.startClose w)
  | .go _ => none

theorem act_inv {o o' : Obj} {t t' : Pc} {l : Label} (h : act o t l = some (o', t')) :
    o.freed = false ∧ (t = .idle ∧ l.start = some t' ∧ o' = o ∨
      t ≠ .idle ∧ ∃ killed, o' = (t.next killed o).1 ∧ t' = (t.next killed o).2) := by
  unfold act at h
  split at h
  · simp at h
  next hfreed =>
  refine ⟨by simpa using hfreed, ?_⟩
  split at h
  · obtain ⟨rfl, rfl⟩ := by simpa using h
    exact .inl ⟨rfl, rfl, rfl⟩
  · obtain ⟨rfl, rfl⟩ := by simpa using h
    exact .inl ⟨rfl, rfl, rfl⟩
  · obtain ⟨rfl, rfl⟩ := by simpa using h
    exact .inl ⟨rfl, rfl, rfl⟩
  · simp at h
  · next killed hne =>
    simp only [Option.some.injEq] at h
    exact .inr ⟨hne, killed, by rw [h], by rw [h]⟩
  · simp at h

end Xv6.Pipes
