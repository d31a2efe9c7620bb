import Mathlib.Algebra.BigOperators.Group.Finset.Piecewise
import Xv6.Lib.Transition
import Xv6.Log.Header
import Xv6.Param

/-!
# `begin_op`, `log_write`, `end_op` and `commit`

The functions of `log.c` that concurrent file-system calls go through, one control point per statement (`Pc.step`).
`log.lock` is a lock; `log_write` tests `log.lh.n` and `log.outstanding` before it takes the lock, and `commit` runs
without it.
-/

namespace Xv6.Log

inductive Panic
  | tooBig          -- "too big a transaction"
  | outsideTrans    -- "log_write outside of trans"
  | logCommitting   -- "log.committing"
  deriving DecidableEq, Repr

variable {T : Type*}

structure Vars (T : Type*) where
  lock : Option T
  start : ℕ
  size : ℕ
  outstanding : ℤ
  committing : Bool
  lh : Logheader

inductive Pc
  | idle                                                    -- outside an operation
  | beginAcquire | beginTest | beginAdd | beginRelease      -- `begin_op`
  | active                                                  -- in an operation
  | logFull (b : ℕ) | logSize (b : ℕ) | logOutstanding (b : ℕ) | logAcquire (b : ℕ)
  | logScan (b i : ℕ) | logStore (b i : ℕ) | logCount (b i : ℕ) | logRelease
  | endAcquire | endDec | endCheck | endTest | endSet | endRelease (doCommit : Bool)
  | commit | writeLog (tail : ℕ) | writeHead | installTrans (tail : ℕ) | clear | eraseHead
  | doneAcquire | doneClear | doneRelease                   -- `end_op` after `commit`
  | panic (m : Panic)
  deriving DecidableEq, Repr

/-- One statement of the thread `q`. `bread` finds a buffer: with all `NBUF` buffers dirty, as they are when `log.lh.n`
has come to 30, `write_log` panics in `bget` instead of going on. -/
def Pc.step [DecidableEq T] (q : T) (L : Vars T) : Pc → Option (Vars T × Pc)
  | .idle => none
  | .beginAcquire => if L.lock = none then some ({ L with lock := some q }, .beginTest) else none
  | .beginTest =>
    if L.committing then some ({ L with lock := none }, .beginAcquire)
    else if L.lh.n + (L.outstanding + 1) * MAXOPBLOCKS > LOGSIZE then some ({ L with lock := none }, .beginAcquire)
    else some (L, .beginAdd)
  | .beginAdd => some ({ L with outstanding := L.outstanding + 1 }, .beginRelease)
  | .beginRelease => some ({ L with lock := none }, .active)
  | .active => none
  | .logFull b => some (L, if L.lh.n ≥ LOGSIZE then .panic .tooBig else .logSize b)
  | .logSize b => some (L, if (L.lh.n : ℤ) ≥ L.size - 1 then .panic .tooBig else .logOutstanding b)
  | .logOutstanding b => some (L, if L.outstanding < 1 then .panic .outsideTrans else .logAcquire b)
  | .logAcquire b => if L.lock = none then some ({ L with lock := some q }, .logScan b 0) else none
  | .logScan b i =>
    some (L, if i < L.lh.n then if L.lh.sector i = b then .logStore b i else .logScan b (i + 1) else .logStore b i)
  | .logStore b i => some ({ L with lh := L.lh.store b i }, .logCount b i)
  | .logCount _ i => some ({ L with lh := L.lh.count i }, .logRelease)
  | .logRelease => some ({ L with lock := none }, .active)
  | .endAcquire => if L.lock = none then some ({ L with lock := some q }, .endDec) else none
  | .endDec => some ({ L with outstanding := L.outstanding - 1 }, .endCheck)
  | .endCheck => some (L, if L.committing then .panic .logCommitting else .endTest)
  | .endTest => some (L, if L.outstanding = 0 then .endSet else .endRelease false)
  | .endSet => some ({ L with committing := true }, .endRelease true)
  | .endRelease doCommit => some ({ L with lock := none }, if doCommit then .commit else .idle)
  | .commit => some (L, if 0 < L.lh.n then .writeLog 0 else .doneAcquire)
  | .writeLog tail => some (L, if tail < L.lh.n then .writeLog (tail + 1) else .writeHead)
  | .writeHead => some (L, .installTrans 0)
  | .installTrans tail => some (L, if tail < L.lh.n then .installTrans (tail + 1) else .clear)
  | .clear => some ({ L with lh.n := 0 }, .eraseHead)
  | .eraseHead => some (L, .doneAcquire)
  | .doneAcquire => if L.lock = none then some ({ L with lock := some q }, .doneClear) else none
  | .doneClear => some ({ L with committing := false }, .doneRelease)
  | .doneRelease => some ({ L with lock := none }, .idle)
  | .panic _ => none

structure Thread where
  pc : Pc
  own : List ℕ

/-- The sectors that the operation has logged after a statement at `pc`. -/
def Pc.owns (own : List ℕ) : Pc → List ℕ
  | .beginAdd => []
  | .logCount b _ => own.insert b
  | _ => own

structure State (T : Type*) where
  log : Vars T
  thread : T → Thread

def State.pc (s : State T) (q : T) : Pc := (s.thread q).pc

/-- A thread calls a function, or executes its next statement. -/
inductive Label (T : Type*)
  | beginOp (q : T)
  | logWrite (q : T) (b : ℕ)
  | endOp (q : T)
  | step (q : T)
  deriving DecidableEq

/-- A call: from the control point `pc` to `pc'`. -/
def State.call [DecidableEq T] (s : State T) (q : T) (pc pc' : Pc) : Option (State T) :=
  if s.pc q = pc then some { s with thread := Function.update s.thread q ⟨pc', (s.thread q).own⟩ } else none

def step [DecidableEq T] (s : State T) : Label T → Option (State T)
  | .beginOp q => s.call q .idle .beginAcquire
  | .logWrite q b => s.call q .active (.logFull b)
  | .endOp q => s.call q .active .endAcquire
  | .step q =>
    ((s.pc q).step q s.log).map fun (L, pc) =>
      ⟨L, Function.update s.thread q ⟨pc, (s.pc q).owns (s.thread q).own⟩⟩

/-- After `initlog`. -/
def boot (start size : ℕ) : State T := ⟨⟨none, start, size, 0, false, .empty⟩, fun _ => ⟨.idle, []⟩⟩

/-! ## What a statement can do -/

/-- The statements executed with `log.lock` held. -/
def Pc.locked : Pc → Bool
  | .beginTest | .beginAdd | .beginRelease | .logScan .. | .logStore .. | .logCount .. | .logRelease | .endDec
  | .endCheck | .endTest | .endSet | .endRelease _ | .doneClear | .doneRelease | .panic .logCommitting => true
  | .idle | .beginAcquire | .active | .logFull _ | .logSize _ | .logOutstanding _ | .logAcquire _ | .endAcquire
  | .commit | .writeLog _ | .writeHead | .installTrans _ | .clear | .eraseHead | .doneAcquire | .panic .tooBig
  | .panic .outsideTrans => false

def Pc.logging : Pc → Option ℕ
  | .logFull b | .logSize b | .logOutstanding b | .logAcquire b | .logScan b _ | .logStore b _ | .logCount b _ => some b
  | .idle | .beginAcquire | .beginTest | .beginAdd | .beginRelease | .active | .logRelease | .endAcquire | .endDec
  | .endCheck | .endTest | .endSet | .endRelease _ | .commit | .writeLog _ | .writeHead | .installTrans _ | .clear
  | .eraseHead | .doneAcquire | .doneClear | .doneRelease | .panic _ => none

/-- An operation is open from the increment of `log.outstanding` in its `begin_op` (after which `begin_op` only
releases the lock) to the decrement in its `end_op`. -/
def Pc.isOpen : Pc → Bool
  | .beginRelease | .active | .logFull _ | .logSize _ | .logOutstanding _ | .logAcquire _ | .logScan .. | .logStore ..
  | .logCount .. | .logRelease | .endAcquire | .endDec | .panic .tooBig | .panic .outsideTrans => true
  | .idle | .beginAcquire | .beginTest | .beginAdd | .endCheck | .endTest | .endSet | .endRelease _ | .commit
  | .writeLog _ | .writeHead | .installTrans _ | .clear | .eraseHead | .doneAcquire | .doneClear | .doneRelease
  | .panic .logCommitting => false

def Pc.inCommit : Pc → Bool
  | .commit | .writeLog _ | .writeHead | .installTrans _ | .clear | .eraseHead => true
  | .idle | .beginAcquire | .beginTest | .beginAdd | .beginRelease | .active | .logFull _ | .logSize _
  | .logOutstanding _ | .logAcquire _ | .logScan .. | .logStore .. | .logCount .. | .logRelease | .endAcquire | .endDec
  | .endCheck | .endTest | .endSet | .endRelease _ | .doneAcquire | .doneClear | .doneRelease | .panic _ => false

/-- The statements of the thread that has set `log.committing`. -/
def Pc.committer (pc : Pc) : Bool :=
  pc.inCommit || pc == .endRelease true || pc == .doneAcquire || pc == .doneClear

/-- The statements of a thread that has found `log.committing` clear, or may rely on it. -/
def Pc.calm : Pc → Bool
  | .beginAdd | .endCheck | .endTest | .endSet => true
  | _ => false

/-- One of the tests of `log_write` on `log.lh.n` fails. -/
def Vars.Full (L : Vars T) : Prop := L.lh.n ≥ LOGSIZE ∨ (L.lh.n : ℤ) ≥ L.size - 1

/-- What a statement of the thread `q` does to the lock, the counter and the flag. -/
inductive Effect (q : T) (L : Vars T) : Pc → Vars T → Pc → Prop
  | move {pc pc' : Pc} (lh : Logheader) : pc'.locked = pc.locked → pc'.isOpen = pc.isOpen →
      pc'.committer = pc.committer → (pc'.calm → pc.calm ∨ L.committing = false) → (pc' = .endSet → L.outstanding = 0) →
      (∀ m, pc' = .panic m → m = .tooBig ∧ L.Full) → Effect q L pc { L with lh } pc'
  | acquire {pc pc' : Pc} : L.lock = none → pc.locked = false → pc'.locked = true → pc'.isOpen = pc.isOpen →
      pc'.committer = pc.committer → pc'.calm = false → (∀ m, pc' ≠ .panic m) →
      Effect q L pc { L with lock := some q } pc'
  | release {pc pc' : Pc} : pc.locked = true → pc'.locked = false → pc'.isOpen = pc.isOpen →
      pc'.committer = pc.committer → pc'.calm = false → (∀ m, pc' ≠ .panic m) → Effect q L pc { L with lock := none } pc'
  | opens : Effect q L .beginAdd { L with outstanding := L.outstanding + 1 } .beginRelease
  | closes : Effect q L .endDec { L with outstanding := L.outstanding - 1 } .endCheck
  | set : Effect q L .endSet { L with committing := true } (.endRelease true)
  | unset : Effect q L .doneClear { L with committing := false } .doneRelease
  | outside {b : ℕ} : L.outstanding < 1 → Effect q L (.logOutstanding b) L (.panic .outsideTrans)
  | committing : L.committing = true → Effect q L .endCheck L (.panic .logCommitting)

theorem Pc.step_effect [DecidableEq T] {q : T} {L L' : Vars T} {pc pc' : Pc} (h : pc.step q L = some (L', pc')) :
    Effect q L pc L' pc' := by
  cases pc with
  | idle | active | panic => simp [Pc.step] at h
  | beginAcquire | logAcquire | endAcquire | doneAcquire =>
    obtain ⟨hl, rfl, rfl⟩ := by simpa [Pc.step] using h
    exact .acquire hl rfl rfl rfl rfl rfl (by simp)
  | beginTest =>
    simp only [Pc.step] at h
    split_ifs at h with hc hn
    · obtain ⟨rfl, rfl⟩ := by simpa using h
      exact .release rfl rfl rfl rfl rfl (by simp)
    · obtain ⟨rfl, rfl⟩ := by simpa using h
      exact .release rfl rfl rfl rfl rfl (by simp)
    · obtain ⟨rfl, rfl⟩ := by simpa using h
      exact .move L.lh rfl rfl rfl (fun _ => .inr (by simpa using hc)) (by simp) (by simp)
  | beginRelease | logRelease | doneRelease =>
    obtain ⟨rfl, rfl⟩ := by simpa [Pc.step] using h
    exact .release rfl rfl rfl rfl rfl (by simp)
  | endRelease doCommit =>
    obtain ⟨rfl, rfl⟩ := by simpa [Pc.step] using h
    cases doCommit <;> exact .release rfl rfl rfl rfl rfl (by simp)
  | beginAdd =>
    obtain ⟨rfl, rfl⟩ := by simpa [Pc.step] using h
    exact .opens
  | endDec =>
    obtain ⟨rfl, rfl⟩ := by simpa [Pc.step] using h
    exact .closes
  | endSet =>
    obtain ⟨rfl, rfl⟩ := by simpa [Pc.step] using h
    exact .set
  | doneClear =>
    obtain ⟨rfl, rfl⟩ := by simpa [Pc.step] using h
    exact .unset
  | logOutstanding b =>
    obtain ⟨rfl, rfl⟩ := by simpa [Pc.step] using h
    split_ifs with ho
    · exact .outside ho
    · exact .move L.lh rfl rfl rfl (by simp [Pc.calm]) (by simp) (by simp)
  | endCheck =>
    obtain ⟨rfl, rfl⟩ := by simpa [Pc.step] using h
    split_ifs with hc
    · exact .committing hc
    · exact .move L.lh rfl rfl rfl (fun _ => .inl rfl) (by simp) (by simp)
  | endTest =>
    obtain ⟨rfl, rfl⟩ := by simpa [Pc.step] using h
    split_ifs with ho
    · exact .move L.lh rfl rfl rfl (fun _ => .inl rfl) (fun _ => ho) (by simp)
    · exact .move L.lh rfl rfl rfl (by simp [Pc.calm]) (by simp) (by simp)
  | logFull b =>
    simp only [Pc.step, Option.some.injEq, Prod.mk.injEq] at h
    obtain ⟨rfl, rfl⟩ := h
    split_ifs with hn
    · exact .move L.lh rfl rfl rfl (by simp [Pc.calm]) (by simp) fun m hm => ⟨by simpa using hm.symm, .inl hn⟩
    · exact .move L.lh rfl rfl rfl (by simp [Pc.calm]) (by simp) (by simp)
  | logSize b =>
    simp only [Pc.step, Option.some.injEq, Prod.mk.injEq] at h
    obtain ⟨rfl, rfl⟩ := h
    split_ifs with hn
    · exact .move L.lh rfl rfl rfl (by simp [Pc.calm]) (by simp) fun m hm => ⟨by simpa using hm.symm, .inr hn⟩
    · exact .move L.lh rfl rfl rfl (by simp [Pc.calm]) (by simp) (by simp)
  | logScan | commit | writeLog | installTrans =>
    obtain ⟨rfl, rfl⟩ := by simpa [Pc.step] using h
    split_ifs <;> exact .move L.lh rfl rfl rfl (by simp [Pc.calm]) (by simp) (by simp)
  | logStore | logCount | clear | writeHead | eraseHead =>
    obtain ⟨rfl, rfl⟩ := by simpa [Pc.step] using h
    exact .move _ rfl rfl rfl (by simp [Pc.calm]) (by simp) (by simp)

/-- The header after a statement at `pc`. -/
def Pc.header (lh : Logheader) : Pc → Logheader
  | .logStore b i => lh.store b i
  | .logCount _ i => lh.count i
  | .clear => { lh with n := 0 }
  | _ => lh

theorem Pc.step_lh [DecidableEq T] {q : T} {L L' : Vars T} {pc pc' : Pc} (h : pc.step q L = some (L', pc')) :
    L'.lh = pc.header L.lh := by
  cases pc <;> simp only [Pc.step, Option.some.injEq, Prod.mk.injEq, Option.ite_none_right_eq_some, reduceCtorEq] at h
  case beginTest =>
    split_ifs at h <;> obtain ⟨rfl, -⟩ := by simpa using h
    all_goals rfl
  case beginAcquire | logAcquire | endAcquire | doneAcquire => obtain ⟨-, rfl, -⟩ := h; rfl
  all_goals obtain ⟨rfl, -⟩ := h; rfl

theorem Pc.step_size [DecidableEq T] {q : T} {L L' : Vars T} {pc pc' : Pc} (h : pc.step q L = some (L', pc')) :
    L'.size = L.size := by
  cases Pc.step_effect h <;> rfl

section Inversion

variable [DecidableEq T] {s s' : State T} {l : Label T}

/-- **Every step** moves one thread. -/
theorem step_effect (h : step s l = some s') :
    ∃ q pc' own, Effect q s.log (s.pc q) s'.log pc' ∧ s'.thread = Function.update s.thread q ⟨pc', own⟩ := by
  have call {q : T} {pc pc' : Pc} (h : s.call q pc pc' = some s') (hl : pc'.locked = pc.locked)
      (ho : pc'.isOpen = pc.isOpen) (hc : pc'.committer = pc.committer) (hn : pc'.calm = false)
      (hp : ∀ m, pc' ≠ .panic m) :
      ∃ q pc' own, Effect q s.log (s.pc q) s'.log pc' ∧ s'.thread = Function.update s.thread q ⟨pc', own⟩ := by
    obtain ⟨rfl, rfl⟩ := by simpa [State.call] using h
    refine ⟨q, pc', _, .move s.log.lh hl ho hc (by simp [hn]) ?_ (fun m hm => absurd hm (hp m)), rfl⟩
    rintro rfl
    simp [Pc.calm] at hn
  cases l with
  | beginOp q => exact call h rfl rfl rfl rfl (by simp)
  | logWrite q b => exact call h rfl rfl rfl rfl (by simp)
  | endOp q => exact call h rfl rfl rfl rfl (by simp)
  | step q =>
    simp only [step, Option.map_eq_some_iff] at h
    obtain ⟨⟨L, pc⟩, hp, rfl⟩ := h
    exact ⟨q, pc, _, Pc.step_effect hp, rfl⟩

end Inversion

end Xv6.Log
