import Xv6.Vm.Page

/-!
# `exec`, `fork`, `sbrk` and `exit` on user memory

The calls that make, copy, grow and free the user memory of a process, and the system in which processes make them one
after the other (`step`). `exec` works on the bytes of a file, which an inode cannot have more than `MAXFILE` blocks of;
the fields of the headers are 32-bit words with the lowest byte first.
-/

namespace Xv6.Vm

open Lib
open Function (update)

/-! ## Files -/

/-- The most bytes of a file: `MAXFILE * BSIZE`. -/
abbrev MAXSIZE : ℕ := (12 + 128) * 512

structure Content where
  bytes : List Byte
  bound : bytes.length ≤ MAXSIZE

/-- `readi`: the bytes read, or -1. -/
def Content.readi (c : Content) (off n : ℕ) : Option (List Byte) :=
  if c.bytes.length < off ∨ (off + n) % 2 ^ 32 < off then none
  else some ((c.bytes.drop off).take n)

/-- The word at place `i` of some bytes. -/
def wordAt (bs : List Byte) (i : ℕ) : ℕ := (word32 (fun j => bs.getD j 0) i).toNat

/-- The fields of `struct elfhdr` that `exec` uses. -/
structure Elfhdr where
  magic : ℕ
  entry : ℕ
  phoff : ℕ
  phnum : ℕ

abbrev ELFSIZE : ℕ := 52

abbrev ELF_MAGIC : ℕ := 0x464C457F

def Elfhdr.ofBytes (bs : List Byte) : Elfhdr where
  magic := wordAt bs 0
  entry := wordAt bs 24
  phoff := wordAt bs 28
  phnum := (word16 (fun j => bs.getD j 0) 44).toNat

/-- The fields of `struct proghdr` that `exec` uses. -/
structure Proghdr where
  type : ℕ
  off : ℕ
  vaddr : ℕ
  filesz : ℕ
  memsz : ℕ

abbrev PHSIZE : ℕ := 32

abbrev ELF_PROG_LOAD : ℕ := 1

def Proghdr.ofBytes (bs : List Byte) : Proghdr where
  type := wordAt bs 0
  off := wordAt bs 4
  vaddr := wordAt bs 8
  filesz := wordAt bs 16
  memsz := wordAt bs 20

/-- The header of a file, if `exec` goes on with it. -/
def Content.elfhdr (c : Content) : Option Elfhdr := do
  let bs ← c.readi 0 ELFSIZE
  if bs.length < ELFSIZE then none
  else if (Elfhdr.ofBytes bs).magic ≠ ELF_MAGIC then none
  else some (Elfhdr.ofBytes bs)

def Content.proghdr (c : Content) (off : ℕ) : Option Proghdr := do
  let bs ← c.readi off PHSIZE
  if bs.length ≠ PHSIZE then none else some (.ofBytes bs)

/-! ## `exec` -/

/-- The loop of `loaduvm` from `i` on. -/
def loadFrom (c : Content) (addr offset sz : ℕ) : ℕ → ℕ → Prog Bool
  | 0, _ => throw .fuel
  | fuel + 1, i =>
    if i < sz then do
      let s ← get
      match s.pgdir.walk ((addr + i) % 2 ^ 32) with
      | none => throw .loadExist
      | some e =>
        match c.readi ((offset + i) % 2 ^ 32) (min (sz - i) PGSIZE) with
        | none => return false
        | some bs =>
          if bs = [] then return false
          else
            -- the bytes go to the page that the entry names, present or not
            set { s with stores := e.frame :: s.stores }
            if bs.length = min (sz - i) PGSIZE then loadFrom c addr offset sz fuel ((i + PGSIZE) % 2 ^ 32)
            else return false
    else return true

/-- `loaduvm`; false is the return value -1. -/
def loaduvm (c : Content) (addr offset sz : ℕ) : Prog Bool :=
  if addr % PGSIZE ≠ 0 then throw .loadAligned
  else loadFrom c addr offset sz (c.bytes.length / PGSIZE + 2) 0

/-- The loop of `exec` over the program headers: the size of the memory, or nothing when it fails. -/
def loadSegments (fails : List Use) (c : Content) : ℕ → ℕ → ℕ → Prog (Option ℕ)
  | 0, _, sz => return some sz
  | n + 1, off, sz =>
    match c.proghdr off with
    | none => return none
    | some ph =>
      if ph.type ≠ ELF_PROG_LOAD then loadSegments fails c n ((off + PHSIZE) % 2 ^ 32) sz
      else if ph.memsz < ph.filesz then return none
      else do
        let sz ← allocuvm fails sz ((ph.vaddr + ph.memsz) % 2 ^ 32)
        if sz = 0 then return none
        else
          let ok ← loaduvm c ph.vaddr ph.off ph.filesz
          if ok then loadSegments fails c n ((off + PHSIZE) % 2 ^ 32) sz
          else return none

abbrev MAXARG : ℕ := 32

/-- The stack pointer when a string of `len` bytes and a zero have been pushed. -/
def pushed (sp len : ℕ) : ℕ := (sp + 2 ^ 32 - (len + 1) % 2 ^ 32) % 2 ^ 32 / 4 * 4

/-- The loop of `exec` over the arguments: their number and the stack pointer. -/
def pushArgs : List (List Byte) → ℕ → ℕ → Prog (Option (ℕ × ℕ))
  | [], argc, sp => return some (argc, sp)
  | arg :: argv, argc, sp =>
    if MAXARG ≤ argc then return none
    else do
      let sp := pushed sp arg.length
      let ok ← copyout sp (arg.length + 1)
      if ok then pushArgs argv (argc + 1) sp
      else return none

/-- What `exec` sets in the process. -/
structure Image where
  sz : ℕ
  eip : ℕ
  esp : ℕ

/-- The part of `exec` after the program is loaded: the stack. -/
@[irreducible] def makeStack (fails : List Use) (argv : List (List Byte)) (entry sz : ℕ) : Prog (Option Image) := do
  let sz ← allocuvm fails (pgroundup sz) ((pgroundup sz + 2 * PGSIZE) % 2 ^ 32)
  if sz = 0 then return none
  else
    clearpteu (sz - 2 * PGSIZE)
    match ← pushArgs argv 0 sz with
    | none => return none
    | some (argc, sp) =>
      let sp := (sp + 2 ^ 32 - (3 + argc + 1) * 4) % 2 ^ 32
      let ok ← copyout sp ((3 + argc + 1) * 4)
      return if ok then some ⟨sz, entry, sp⟩ else none

/-- `exec` up to the point where it sets the process, which it does not change before: -1 is `none`. The file is `none`
if `namei` does not find it. -/
def exec (fails : List Use) (file : Option Content) (argv : List (List Byte)) : Prog (Option Image) := do
  match file with
  | none => return none
  | some c =>
    match c.elfhdr with
    | none => return none
    | some elf =>
      let ok ← setupkvm fails
      if ok then
        match ← loadSegments fails c elf.phnum elf.phoff 0 with
        | none =>
          freevm
          return none
        | some sz =>
          match ← makeStack fails argv elf.entry sz with
          | none =>
            freevm
            return none
          | some image => return some image
      else return none

/-! ## The other calls -/

/-- The user memory of a process, and its kernel stack. -/
structure Proc where
  pgdir : Pgdir
  sz : ℕ
  kstack : Frame

def growproc (fails : List Use) (sz : ℕ) (n : Word) : Prog (Option ℕ) := do
  if 0 < n.toInt then
    let r ← allocuvm fails sz ((sz + n.toNat) % 2 ^ 32)
    return if r = 0 then none else some r
  else if n.toInt < 0 then
    let r ← deallocuvm sz ((sz + n.toNat) % 2 ^ 32)
    return if r = 0 then none else some r
  else return some sz

/-- `fork`: the memory of the new process, or -1. -/
def fork (fails : List Use) (parent : Proc) : Prog (Option Proc) := do
  match ← kalloc fails .kstack with
  | none => return none
  | some kstack =>
    let ok ← copyuvm fails parent.pgdir parent.sz
    if ok then
      let s ← get
      return some ⟨s.pgdir, parent.sz, kstack⟩
    else
      kfree kstack
      return none

def freeproc (kstack : Frame) : Prog Unit := do
  kfree kstack
  freevm

/-! ## The system -/

inductive Status
  | unused
  | live (P : Proc)
  | zombie (P : Proc)

structure Sys where
  kmem : Kmem
  proc : Slot → Status

/-- A system call with its arguments, or the scheduler at an exited process. -/
inductive Call
  | sbrk (n : Word)
  | fork (np : Slot)
  | exec (file : Option Content) (argv : List (List Byte))
  | exit
  | reap

/-- A step: which process, which calls of `kalloc` fail, and what it does. -/
structure Label where
  proc : Slot
  fails : List Use
  call : Call

/-- The state in which a call starts to work on a directory. -/
def Sys.mem (s : Sys) (d : Pgdir) : Mem := ⟨s.kmem, d, [], []⟩

def initproc : Slot := 0

def Sys.sbrk (s : Sys) (fails : List Use) (p : Slot) (P : Proc) (n : Word) : Except Stop Sys :=
  match growproc fails P.sz n (s.mem P.pgdir) with
  | .error e => .error e
  | .ok (r, m) => .ok ⟨m.kmem, update s.proc p (.live { P with pgdir := m.pgdir, sz := r.getD P.sz })⟩

/-- `fork`; a slot in use is none that `allocproc` finds. -/
def Sys.fork (s : Sys) (fails : List Use) (P : Proc) (np : Slot) : Except Stop Sys :=
  match s.proc np with
  | .unused =>
    match Vm.fork fails P (s.mem .empty) with
    | .error e => .error e
    | .ok (none, m) => .ok ⟨m.kmem, s.proc⟩
    | .ok (some Q, m) => .ok ⟨m.kmem, update s.proc np (.live Q)⟩
  | _ => .ok s

/-- `exec`: the old directory is freed at the end. -/
def Sys.exec (s : Sys) (fails : List Use) (p : Slot) (P : Proc) (file : Option Content) (argv : List (List Byte)) :
    Except Stop Sys :=
  match Vm.exec fails file argv (s.mem .empty) with
  | .error e => .error e
  | .ok (none, m) => .ok ⟨m.kmem, s.proc⟩
  | .ok (some image, m) =>
    match freevm { m with pgdir := P.pgdir } with
    | .error e => .error e
    | .ok (_, m') => .ok ⟨m'.kmem, update s.proc p (.live ⟨m.pgdir, image.sz, P.kstack⟩)⟩

def Sys.exit (s : Sys) (p : Slot) (P : Proc) : Except Stop Sys :=
  if p = initproc then .error .initExiting else .ok { s with proc := update s.proc p (.zombie P) }

def Sys.reap (s : Sys) (p : Slot) (P : Proc) : Except Stop Sys :=
  match freeproc P.kstack (s.mem P.pgdir) with
  | .error e => .error e
  | .ok (_, m) => .ok ⟨m.kmem, update s.proc p .unused⟩

/-- One call that returns, by a process that runs, or one step of the scheduler. -/
def step (s : Sys) (l : Label) : Option Sys :=
  match s.proc l.proc, l.call with
  | .live P, .sbrk n => (s.sbrk l.fails l.proc P n).toOption
  | .live P, .fork np => (s.fork l.fails P np).toOption
  | .live P, .exec file argv => (s.exec l.fails l.proc P file argv).toOption
  | .live P, .exit => (s.exit l.proc P).toOption
  | .zombie P, .reap => (s.reap l.proc P).toOption
  | _, _ => none

/-- The first process: the first pages of the list are its kernel stack, its directory, the page tables of the kernel
part, its one page and the page table for it. -/
def Proc.boot (first : Frame) : Proc where
  pgdir := {
    page := some (fresh first 1)
    kernel := (List.range' 2 64).map (fresh first)
    table := update (fun _ => none) 0 (some (fresh first 67))
    pte := update (fun _ => .zero) 0 ⟨fresh first 66, true, true⟩ }
  sz := PGSIZE
  kstack := fresh first 0

/-- The state in which the first process runs. -/
def boot (first : Frame) : Sys where
  kmem := ⟨first, [], 68⟩
  proc := update (fun _ => .unused) initproc (.live (.boot first))

end Xv6.Vm
