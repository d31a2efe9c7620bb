import Xv6.Lib.Transition
import Xv6.Param

/-!
# The prime server

`primsrv.c`: the main process gives numbers to its workers and gets the results back, both with `sigsend`. Of the kernel
the model has what the program sees: a signal to a process with MAX_CSTACK_FRAMES undelivered signals is refused, and
the signals of a process are delivered one at a time, the last one first, whenever it is not in its handler.
-/

namespace Xv6.Primsrv

open Lib
open Function (update)

/-! ## Primes -/

/-- The loop of `is_prime`, if it ends within `fuel` rounds. -/
def isPrimeLoop (number : Word) : ℕ → Word → Option Bool
  | 0, _ => none
  | fuel + 1, i =>
    if (i * i).slt number then
      if number.srem i = 0 ∧ i ≠ number then some false else isPrimeLoop number fuel (i + 1)
    else some true

def isPrime (fuel : ℕ) (number : Word) : Option Bool := isPrimeLoop number fuel 2

def nextPrLoop (fuel : ℕ) : ℕ → Word → Option Word
  | 0, _ => none
  | k + 1, i => (isPrime fuel i).bind fun found => if found then some i else nextPrLoop fuel k (i + 1)

def nextPr (fuel : ℕ) (n : Word) : Option Word := nextPrLoop fuel fuel (n + 1)

/-- `next_pr(x)` returns `c`. -/
def Computes (x c : Word) : Prop := ∃ fuel, nextPr fuel x = some c

/-! ## Processes -/

/-- A pending signal: `sender_pid` and `value`. -/
structure Signal where
  sender : Word
  value : Word
  deriving DecidableEq

/-- The processes: `n` workers with the pids `pid`, which `fork` has given them, and the main process. -/
structure Server where
  n : ℕ
  mainPid : Word
  pid : Fin n → Word
  pid_inj : Function.Injective pid
  pid_ne : ∀ i, pid i ≠ mainPid

/-- The loop of `sigsend` over the process table: the main process, a worker, or nobody. -/
def Server.find (S : Server) (pid : Word) : Option (Option (Fin S.n)) :=
  if pid = S.mainPid then some none else ((List.finRange S.n).find? fun i => S.pid i = pid).map some

/-- The main process, after the workers have been forked. -/
inductive MainAt (n : ℕ)
  /-- `read(1, buf, MAX_INPUT)`. -/
  | read
  /-- `workers[i].working == 0`. -/
  | scan (x : Word) (i : ℕ)
  /-- `workers[i].working = 1`. -/
  | mark (x : Word) (i : Fin n)
  /-- `workers[i].input_x = input_x`. -/
  | store (x : Word) (i : Fin n)
  /-- `sigsend(workers[i].pid, input_x)`. -/
  | send (x : Word) (i : Fin n)
  /-- `printf(STDOUT, "no idle workers\n")`. -/
  | noIdle
  /-- `sigsend(workers[i].pid, 0)`, after the input 0. -/
  | quit (i : ℕ)
  /-- `wait()`. -/
  | wait
  deriving DecidableEq

/-- `handle_main_sig`. -/
inductive HandlerAt (n : ℕ)
  /-- `workers[i].pid == worker_pid`, and the line if so. -/
  | look (i : ℕ)
  /-- `workers[i].working = 0`. -/
  | clear (i : Fin n)
  deriving DecidableEq

/-- The signal that the main process is handling. -/
structure Handler (n : ℕ) where
  sig : Signal
  pc : HandlerAt n
  deriving DecidableEq

/-- A worker. -/
inductive WorkerAt
  /-- `while(1) sigpause()`. -/
  | pause
  /-- `next_pr(value)`, in `handle_worker_sig`. -/
  | compute (sig : Signal)
  /-- `sigsend(main_pid, c)`. -/
  | send (mainPid c : Word)
  | exited
  deriving DecidableEq

/-- About to send its result. -/
def WorkerAt.sends : WorkerAt → Bool
  | .send _ _ => true
  | _ => false

/-- A line that `handle_main_sig` prints, and the input that the worker was last given. -/
structure Line (n : ℕ) where
  worker : Fin n
  value : Word
  inputX : Word
  given : Option Word

structure State (n : ℕ) where
  /-- The undelivered signals of the main process and of the workers, the last one first. -/
  pending : Option (Fin n) → List Signal
  working : Fin n → Bool
  inputX : Fin n → Word
  main : MainAt n
  handling : Option (Handler n)
  worker : Fin n → WorkerAt
  /-- The last input sent to each worker. -/
  given : Fin n → Option Word
  lines : List (Line n)

/-- The labels of steps: the main process with the number on the next line of the input if it has one, the delivery of
a signal to the main process or its handler, and a worker with the number of rounds that its loops need. -/
inductive Label (n : ℕ)
  | main (line : Option Word)
  | handler
  | worker (i : Fin n) (fuel : ℕ)

section Steps

variable (S : Server)

/-- `sigsend(dest, value)` by the process with the pid `sender`. -/
def sigsend (s : State S.n) (sender dest value : Word) : State S.n :=
  match S.find dest with
  | none => s
  | some p =>
    if (s.pending p).length < MAX_CSTACK_FRAMES then
      { s with pending := update s.pending p (⟨sender, value⟩ :: s.pending p) }
    else s

/-- The next statement of the main process. -/
def mainStep (s : State S.n) (line : Option Word) : Option (State S.n) :=
  match s.main with
  | .read =>
    match line with
    | none => some s
    | some x => some { s with main := if x = 0 then .quit 0 else .scan x 0 }
  | .scan x i =>
    if h : i < S.n then
      some { s with main := if s.working ⟨i, h⟩ = false then .mark x ⟨i, h⟩ else .scan x (i + 1) }
    else some { s with main := .noIdle }
  | .mark x i => some { s with working := update s.working i true, main := .store x i }
  | .store x i => some { s with inputX := update s.inputX i x, main := .send x i }
  | .send x i =>
    some { sigsend S s S.mainPid (S.pid i) x with given := update s.given i (some x), main := .read }
  | .noIdle => some { s with main := .read }
  | .quit i =>
    if h : i < S.n then some { sigsend S s S.mainPid (S.pid ⟨i, h⟩) 0 with main := .quit (i + 1) }
    else some { s with main := .wait }
  | .wait => none

/-- The delivery of a signal to the main process, or the next statement of its handler. -/
def handlerStep (s : State S.n) : Option (State S.n) :=
  match s.handling with
  | none =>
    match s.pending none with
    | [] => none
    | sig :: rest =>
      some { s with pending := update s.pending none rest, handling := some ⟨sig, .look 0⟩ }
  | some ⟨sig, .look i⟩ =>
    if h : i < S.n then
      if S.pid ⟨i, h⟩ = sig.sender then
        some { s with
          lines := s.lines ++ [⟨⟨i, h⟩, sig.value, s.inputX ⟨i, h⟩, s.given ⟨i, h⟩⟩]
          handling := some ⟨sig, .clear ⟨i, h⟩⟩ }
      else some { s with handling := some ⟨sig, .look (i + 1)⟩ }
    else some { s with handling := none }
  | some ⟨_, .clear i⟩ => some { s with working := update s.working i false, handling := none }

/-- The delivery of a signal to a worker, or the next statement of its handler. -/
def workerStep (s : State S.n) (i : Fin S.n) (fuel : ℕ) : Option (State S.n) :=
  match s.worker i with
  | .pause =>
    match s.pending (some i) with
    | [] => none
    | sig :: rest =>
      some { s with
        pending := update s.pending (some i) rest
        worker := update s.worker i (if sig.value = 0 then .exited else .compute sig) }
  | .compute sig =>
    (nextPr fuel sig.value).map fun c => { s with worker := update s.worker i (.send sig.sender c) }
  | .send mainPid c =>
    some { sigsend S s (S.pid i) mainPid c with worker := update s.worker i .pause }
  | .exited => none

def step (s : State S.n) : Label S.n → Option (State S.n)
  | .main line => if s.handling = none then mainStep S s line else none
  | .handler => handlerStep S s
  | .worker i fuel => workerStep S s i fuel

/-- The server after `sigset(handle_main_sig)`. -/
def init : State S.n :=
  ⟨fun _ => [], fun _ => false, fun _ => -1, .read, none, fun _ => .pause, fun _ => none, []⟩

/-- When a worker sends its result, the main process has room for another signal. -/
def Room (s : State S.n) : Label S.n → Prop
  | .worker i _ => (s.worker i).sends = true → (s.pending none).length < MAX_CSTACK_FRAMES
  | _ => True

instance (s : State S.n) : ∀ l, Decidable (Room S s l)
  | .worker _ _ => inferInstanceAs (Decidable (_ → _))
  | .main _ | .handler => .isTrue trivial

end Steps

end Xv6.Primsrv
