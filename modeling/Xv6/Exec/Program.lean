import Xv6.Fs.Unlocked
import Xv6.Trap.Frame
import Xv6.Vm.Args

/-!
# The whole of `exec`

`exec.c` over the file system with its transactions (`Xv6.Fs.Logged`), the memory with its bytes (`Xv6.Vm.Loader`) and
the process that makes the call. The arguments are addresses of strings in the memory of the process.
-/

namespace Xv6

open Lib

/-! ## Strings in memory -/

namespace Vm

/-- The memory as it is seen through the directory `d`. -/
def Ram.under (R : Ram) (d : Pgdir) : Ram := { R with mem := { R.mem with pgdir := d } }

/-- The bytes from `a` on, up to a zero. -/
def Ram.stringFrom (R : Ram) : ℕ → ℕ → Option (List Byte)
  | 0, _ => none
  | fuel + 1, a =>
    match R.byte a with
    | none => none
    | some b => if b = 0 then some [] else (R.stringFrom fuel (a + 1)).map (b :: ·)

/-- The string at a user address, if it ends before the kernel and in pages that are there. -/
def Ram.string (R : Ram) (a : ℕ) : Option (List Byte) := R.stringFrom (KERNBASE - a) a

end Vm

def Fs.Whole.content (w : Fs.Whole) (x : ℕ) : Vm.Content := ⟨(w.data x).take Vm.MAXSIZE, List.length_take_le _ _⟩

theorem Fs.Locks.not_busy {s : Fs.State} (h : Fs.Locks [] s) (x : ℕ) : (s.icache x).busy = false := by
  by_contra hbusy
  cases h x (Bool.eq_true_of_not_eq_false hbusy)

def Fs.State.named (s : Fs.State) (p : Slot) (path : List Char) : Option ℕ :=
  ((s.start p path).bind fun ip => s.inode.walk false ip (Fs.elements path)).map (·.1)

namespace Exec

/-! ## The state -/

/-- What `exec` sets in a process. -/
structure Task where
  pgdir : Vm.Pgdir
  sz : ℕ
  tf : Trap.Trapframe
  name : List Char
  sighandler : Word

structure Machine where
  whole : Fs.Whole
  ram : Vm.Ram
  task : Task

/-- Why `exec` does not return: it stops in the file system or in the memory, or an argument is not in memory. -/
inductive Stop
  | fs (e : Fs.Stop)
  | vm (e : Vm.Stop)
  | fault (a : ℕ)

abbrev Prog := StateT Machine (Except Stop)

def onFs {α : Type} (m : Fs.Op α) : Prog α := embed Machine.whole (fun M w => { M with whole := w }) .fs m

def onRam {α : Type} (m : Vm.Bytes.Prog α) : Prog α := embed Machine.ram (fun M R => { M with ram := R }) .vm m

/-- What the process sees in its memory. -/
def Machine.user (M : Machine) : Vm.Ram := M.ram.under M.task.pgdir

/-! ## The program -/

/-- The label `bad`; `dir` says that there is a directory, and `ip` is the inode if it is still held. -/
def bad (dir : Bool) (ip : Option ℕ) : Prog PUnit := do
  if dir then onRam Vm.Bytes.freevm
  match ip with
  | some x =>
    onFs (Fs.part (Fs.iunlockput x))
    onFs Fs.endOp
  | none => return ⟨⟩

/-- `exec` up to the arguments: the entry point and the size of the memory, or nothing after the work at `bad`. -/
def loadImage (p : Slot) (fails : List Vm.Use) (path : List Char) : Prog (Option (ℕ × ℕ)) := do
  onFs Fs.beginOp
  match ← onFs (Fs.part (Fs.namei p path)) with
  | none =>
    onFs Fs.endOp
    return none
  | some ip =>
    onFs (Fs.part (Fs.ilock ip))
    let M ← get
    match (M.whole.content ip).elfhdr with
    | none =>
      bad false (some ip)
      return none
    | some elf =>
      let ok ← onRam (Vm.Bytes.part (Vm.setupkvm fails))
      if ok then
        match ← onRam (Vm.Bytes.loadSegments fails (M.whole.content ip) elf.phnum elf.phoff 0) with
        | none =>
          bad true (some ip)
          return none
        | some sz =>
          onFs (Fs.part (Fs.iunlockput ip))
          onFs Fs.endOp
          match ← onRam (Vm.Bytes.stackPages fails sz) with
          | none =>
            bad true none
            return none
          | some sz => return some (elf.entry, sz)
      else
        bad false (some ip)
        return none

/-- The loop over the arguments, which ends at a null entry or at the end of the list, and the array of their addresses:
the stack pointer. -/
def pushArgs : List ℕ → List ℕ → ℕ → Prog (Option ℕ)
  | [], ptrs, sp => onRam (Vm.Bytes.pushFrame ptrs sp)
  | a :: argv, ptrs, sp =>
    if a = 0 then onRam (Vm.Bytes.pushFrame ptrs sp)
    else if Vm.MAXARG ≤ ptrs.length then return none
    else do
      let M ← get
      match M.user.string a with
      | none => throw (.fault a)
      | some arg =>
        let sp := Vm.pushed sp arg.length
        let ok ← onRam (Vm.Bytes.copyout sp (arg ++ [0]))
        if ok then pushArgs argv (ptrs ++ [sp]) sp
        else return none

/-- The name of a program: the last element of its path, cut to `sizeof(proc->name)`. -/
def progname (path : List Char) : List Char := (path.reverse.takeWhile (· ≠ '/')).reverse.take 15

/-- The image is committed, and the old directory freed. -/
def commit (path : List Char) (entry sz sp : ℕ) : Prog PUnit := do
  let M ← get
  set { M with
    ram := M.ram.under M.task.pgdir
    task := {
      pgdir := M.ram.mem.pgdir
      sz := sz
      tf := { M.task.tf with eip := BitVec.ofNat 32 entry, esp := BitVec.ofNat 32 sp }
      name := progname path
      sighandler := DEFSIG_HENDLER } }
  onRam Vm.Bytes.freevm

/-- **`exec`** of the file at `path` with the strings at `argv`, by the process `p`. -/
def exec (p : Slot) (fails : List Vm.Use) (path : List Char) (argv : List ℕ) : Prog ℤ := do
  match ← loadImage p fails path with
  | none => return -1
  | some (entry, sz) =>
    match ← pushArgs argv [] sz with
    | none =>
      bad true none
      return -1
    | some sp =>
      commit path entry sz sp
      return 0

/-! ## Rules -/

variable {α : Type} {M : Machine} {E : Stop → Prop}

theorem wp_onFs {m : Fs.Op α} {Q : α → Machine → Prop} :
    wp (onFs m) Q E M ↔ wp m (fun a w => Q a { M with whole := w }) (fun e => E (.fs e)) M.whole := wp_embed

theorem wp_onRam {m : Vm.Bytes.Prog α} {Q : α → Machine → Prop} :
    wp (onRam m) Q E M ↔ wp m (fun a R => Q a { M with ram := R }) (fun e => E (.vm e)) M.ram := wp_embed

/-- `exec` may stop in any way. -/
def anyStop : Stop → Prop := fun _ => True

/-! ## Runs -/

/-- **A machine that runs reach**: the file system is in a state that calls of any processes reach, and so is the
memory, in which `p` is a process that runs. -/
structure Reached (p : Slot) (M : Machine) : Prop where
  fs : ∃ args tr, Path Fs.step free (Fs.boot args) tr M.whole.fs
  vm : ∃ first tr s P, 0 < first ∧ Path Vm.step Vm.ExecGuard (Vm.boot first) tr s ∧ s.proc p = .live P ∧
    M.ram.mem = s.mem .empty ∧ M.task.pgdir = P.pgdir ∧ M.task.sz = P.sz

/-- The pages of the process are among those in use. -/
structure Account (rest : Vm.Frame → ℕ) (M : Machine) : Prop where
  sound : Vm.Sound rest M.ram.mem
  mapped : M.ram.mem.mapped = []
  stores : M.ram.mem.stores = []
  own : ∀ f, M.task.pgdir.holds f ≤ rest f
  tidy : Vm.Tidy M.task.pgdir

theorem Reached.account {p : Slot} (h : Reached p M) : ∃ rest, Account rest M := by
  obtain ⟨first, tr, s, P, hfirst, hpath, hlive, hmem, hdir, -⟩ := h.vm
  have hgood := Vm.good_of_path hfirst hpath
  have hproc : (s.proc p).proc = some P := by
    rw [hlive]
    rfl
  refine ⟨s.uses, ?_, by rw [hmem]; rfl, by rw [hmem]; rfl, fun f => ?_, ?_⟩
  · rw [hmem]
    exact hgood.sound
  · rw [hdir, s.uses_eq p f, Vm.Status.holds_of hproc]
    omega
  · rw [hdir]
    exact (hgood.procs p P hproc).tidy

theorem Reached.unlocked {p : Slot} (h : Reached p M) : Fs.Ledger M.whole.fs ∧ Fs.Locks [] M.whole.fs := by
  obtain ⟨args, tr, hpath⟩ := h.fs
  refine ⟨(Fs.sound_of_path hpath).ledger, fun x hx => ?_⟩
  rw [Fs.unlocked_of_path hpath x] at hx
  cases hx

theorem user_byte {rest : Vm.Frame → ℕ} {d : Vm.Pgdir} {R T : Vm.Ram} (hown : ∀ f, d.holds f ≤ rest f)
    (hdata : ∀ f, 0 < rest f → T.data f = R.data f) {a : ℕ} (ha : a < Vm.KERNBASE) :
    (T.under d).byte a = (R.under d).byte a := by
  unfold Vm.Ram.byte
  show (if (d.pte (a / Vm.PGSIZE)).present then some (T.data _ _) else none) =
    if (d.pte (a / Vm.PGSIZE)).present then some (R.data _ _) else none
  split_ifs with hp
  · have hmapped := Vm.holds_pos (Vm.page_lt ha) (Vm.Pte.target_eq_some.mpr ⟨hp, rfl⟩)
    have hpos : 0 < rest (d.pte (a / Vm.PGSIZE)).frame := hmapped.trans_le (hown _)
    exact congrArg (fun bs : ℕ → Byte => some (bs (a % Vm.PGSIZE))) (hdata _ hpos)
  · rfl

end Exec

end Xv6
