import Xv6.Lib.Bytes
import Xv6.Lib.Wp
import Xv6.Param

/-!
# Pages and page tables

`kalloc.c` and the functions of `vm.c` on user memory, as programs over the free list and the page directory that they
work on. A program stops when the kernel panics, or reads through the null pointer that `walkpgdir` returns (`Stop`).
-/

namespace Xv6.Vm

open Lib

/-! ## Memory -/

/-- A page of physical memory, by its number. -/
abbrev Frame := ℕ

abbrev PGSIZE : ℕ := 4096

abbrev NPTENTRIES : ℕ := 1024

abbrev KERNBASE : ℕ := 0x80000000

abbrev PHYSTOP : ℕ := 0xE000000

/-- The pages of physical memory. -/
abbrev NPAGES : ℕ := PHYSTOP / PGSIZE

/-- The first address of the devices. -/
abbrev DEVSPACE : ℕ := 0xFE000000

/-- The page tables of the user part of a directory. -/
abbrev NUTABLES : ℕ := KERNBASE / (NPTENTRIES * PGSIZE)

/-- The pages of the user part. -/
abbrev NUPAGES : ℕ := KERNBASE / PGSIZE

def pgroundup (sz : ℕ) : ℕ := (sz + (PGSIZE - 1)) % 2 ^ 32 / PGSIZE * PGSIZE

def pgrounddown (a : ℕ) : ℕ := a / PGSIZE * PGSIZE

def pdx (va : ℕ) : ℕ := va / (NPTENTRIES * PGSIZE)

structure Pte where
  frame : Frame
  present : Bool
  user : Bool
  deriving DecidableEq

/-- An entry of a table that `memset` has cleared. -/
def Pte.zero : Pte := ⟨0, false, false⟩

structure Pgdir where
  /-- the page of the directory, or the null pointer -/
  page : Option Frame
  /-- the page tables of the kernel part -/
  kernel : List Frame
  /-- the page tables of the user part -/
  table : ℕ → Option Frame
  /-- their entries, by the number of the page -/
  pte : ℕ → Pte

/-- No directory. -/
def Pgdir.empty : Pgdir := ⟨none, [], fun _ => none, fun _ => .zero⟩

def Pgdir.setPte (d : Pgdir) (va : ℕ) (e : Pte) : Pgdir := { d with pte := Function.update d.pte (va / PGSIZE) e }

/-- A new page table, cleared. -/
def Pgdir.addTable (d : Pgdir) (i : ℕ) (f : Frame) : Pgdir :=
  { d with
    table := Function.update d.table i (some f)
    pte := fun v => if v / NPTENTRIES = i then .zero else d.pte v }

/-- The pages of the directory and its tables, in the order in which `freevm` frees them. -/
def Pgdir.pages (d : Pgdir) : List Frame := (List.range NUTABLES).filterMap d.table ++ d.kernel ++ d.page.toList

/-- What a page is allocated for: the name of a call of `kalloc`. -/
inductive Use
  | kstack
  | dir
  | ktable (i : ℕ)
  | table (va : ℕ)
  | page (va : ℕ)
  deriving DecidableEq

/-- The allocator: the first page behind the kernel (`end`), the pages that have been freed, and how many pages have been
handed out of the list that `kinit1` and `kinit2` have made. -/
structure Kmem where
  first : ℕ
  free : List Frame
  next : ℕ

/-- The page at place `i` of the list that `kinit1` and `kinit2` have made. They free the pages upwards, so that the last
page of physical memory is the first one to be handed out. The list goes on behind physical memory: a `kalloc` for which
there is no page is among those that fail. -/
def fresh (first i : ℕ) : ℕ := if first + i < NPAGES then NPAGES - 1 - i else first + i

structure Mem where
  kmem : Kmem
  /-- the directory that the call works on -/
  pgdir : Pgdir
  mapped : List Frame
  stores : List Frame

inductive Stop
  | kfree
  | remap
  | freevm
  | loadAligned
  | loadExist
  | copyExist
  | copyPresent
  | clearpteu
  | nullPte
  | initExiting
  | fuel
  deriving DecidableEq

abbrev Prog := StateT Mem (Except Stop)

def kalloc (fails : List Use) (u : Use) : Prog (Option Frame) := do
  let s ← get
  if u ∈ fails then return none
  else
    match s.kmem.free with
    | f :: rest =>
      set { s with kmem := { s.kmem with free := rest } }
      return some f
    | [] =>
      set { s with kmem := { s.kmem with next := s.kmem.next + 1 } }
      return some (fresh s.kmem.first s.kmem.next)

def kfree (f : Frame) : Prog Unit := do
  let s ← get
  if f < s.kmem.first then throw .kfree
  else set { s with kmem := { s.kmem with free := f :: s.kmem.free } }

/-! ## Page tables -/

/-- The entries of the kernel part: `kmap` maps physical memory from `KERNBASE` on, and the devices. -/
def kernelPte (va : ℕ) : Option Pte :=
  if va < KERNBASE + PHYSTOP then some ⟨(va - KERNBASE) / PGSIZE, true, false⟩
  else if DEVSPACE ≤ va then some ⟨va / PGSIZE, true, false⟩
  else none

/-- `walkpgdir` without `alloc`: the entry for `va`, if it has a page table. -/
def Pgdir.walk (d : Pgdir) (va : ℕ) : Option Pte :=
  if va < KERNBASE then (d.table (pdx va)).map fun _ => d.pte (va / PGSIZE) else kernelPte va

/-- `walkpgdir` with `alloc`, for a user address. -/
def walkpgdir (fails : List Use) (va : ℕ) : Prog (Option Pte) := do
  let s ← get
  match s.pgdir.table (pdx va) with
  | some _ => return some (s.pgdir.pte (va / PGSIZE))
  | none =>
    match ← kalloc fails (.table va) with
    | none => return none
    | some f =>
      let s ← get
      set { s with pgdir := s.pgdir.addTable (pdx va) f }
      return some .zero

/-- `mappages` of one user page; false is the return value -1. -/
def mappages (fails : List Use) (va : ℕ) (f : Frame) (user : Bool) : Prog Bool := do
  match ← walkpgdir fails va with
  | none => return false
  | some e =>
    if e.present then throw .remap
    else
      let s ← get
      set { s with pgdir := s.pgdir.setPte va ⟨f, true, user⟩, mapped := f :: s.mapped }
      return true

/-- The places of the page tables of the kernel part. -/
def kernelTables : List ℕ :=
  List.range' (pdx KERNBASE) (pdx PHYSTOP) ++ List.range' (pdx DEVSPACE) (2 ^ 32 / (NPTENTRIES * PGSIZE) - pdx DEVSPACE)

/-- The loop of `setupkvm`, by the page tables that `mappages` allocates. -/
def mapKernel (fails : List Use) : List ℕ → Prog Bool
  | [] => return true
  | i :: is => do
    match ← kalloc fails (.ktable i) with
    | none => return false
    | some f =>
      let s ← get
      set { s with pgdir := { s.pgdir with kernel := s.pgdir.kernel ++ [f] } }
      mapKernel fails is

/-- `setupkvm`; false is the null pointer. What it has allocated is lost then. -/
def setupkvm (fails : List Use) : Prog Bool := do
  match ← kalloc fails .dir with
  | none => return false
  | some f =>
    let s ← get
    set { s with pgdir := { Pgdir.empty with page := some f } }
    mapKernel fails kernelTables

/-! ## User memory -/

def deallocFrom (oldsz : ℕ) : ℕ → ℕ → Prog Unit
  | 0, _ => throw .fuel
  | fuel + 1, a =>
    if a < oldsz then do
      let s ← get
      match s.pgdir.walk a with
      | none => deallocFrom oldsz fuel (a + (NPTENTRIES - 1) * PGSIZE + PGSIZE)
      | some e =>
        if e.present then
          if e.frame = 0 then throw .kfree
          else do
            kfree e.frame
            let s ← get
            set { s with pgdir := s.pgdir.setPte a .zero }
            deallocFrom oldsz fuel (a + PGSIZE)
        else deallocFrom oldsz fuel (a + PGSIZE)
    else return ()

def deallocuvm (oldsz newsz : ℕ) : Prog ℕ := do
  if oldsz ≤ newsz then return oldsz
  else
    deallocFrom oldsz (oldsz / PGSIZE + 2) (pgroundup newsz)
    return newsz

/-- The loop of `allocuvm` from `a` on. It does not look at the result of `mappages`. -/
def allocFrom (fails : List Use) (oldsz newsz : ℕ) : ℕ → ℕ → Prog ℕ
  | 0, _ => throw .fuel
  | fuel + 1, a =>
    if a < newsz then do
      match ← kalloc fails (.page a) with
      | none =>
        let _ ← deallocuvm newsz oldsz
        return 0
      | some f =>
        let _ ← mappages fails a f true
        allocFrom fails oldsz newsz fuel (a + PGSIZE)
    else return newsz

def allocuvm (fails : List Use) (oldsz newsz : ℕ) : Prog ℕ :=
  if KERNBASE ≤ newsz then return 0
  else if newsz < oldsz then return oldsz
  else allocFrom fails oldsz newsz (newsz / PGSIZE + 2) (pgroundup oldsz)

def freevm : Prog Unit := do
  let s ← get
  if s.pgdir.page = none then throw .freevm
  else
    let _ ← deallocuvm KERNBASE 0
    let s ← get
    set { s with pgdir := .empty }
    s.pgdir.pages.forM kfree

def copyFrom (fails : List Use) (parent : Pgdir) (sz : ℕ) : ℕ → ℕ → Prog Bool
  | 0, _ => throw .fuel
  | fuel + 1, i =>
    if i < sz then
      match parent.walk i with
      | none => throw .copyExist
      | some e =>
        if ¬ e.present then throw .copyPresent
        else do
          match ← kalloc fails (.page i) with
          | none =>
            freevm
            return false
          | some f =>
            let ok ← mappages fails i f e.user
            if ok then copyFrom fails parent sz fuel (i + PGSIZE)
            else
              freevm
              return false
    else return true

/-- `copyuvm`; false is the null pointer. -/
def copyuvm (fails : List Use) (parent : Pgdir) (sz : ℕ) : Prog Bool := do
  let ok ← setupkvm fails
  if ok then copyFrom fails parent sz (sz / PGSIZE + 2) 0
  else return false

def clearpteu (va : ℕ) : Prog Unit := do
  let s ← get
  match s.pgdir.walk va with
  | none => throw .clearpteu
  | some e => set { s with pgdir := s.pgdir.setPte va { e with user := false } }

/-- `uva2ka`; it reads the entry without a test of the pointer. -/
def uva2ka (va : ℕ) : Prog (Option Frame) := do
  let s ← get
  match s.pgdir.walk va with
  | none => throw .nullPte
  | some e => return if e.present ∧ e.user then some e.frame else none

def copyoutFrom : ℕ → ℕ → ℕ → Prog Bool
  | 0, _, _ => throw .fuel
  | fuel + 1, va, len =>
    if 0 < len then do
      match ← uva2ka (pgrounddown va) with
      | none => return false
      | some f =>
        let s ← get
        set { s with stores := f :: s.stores }
        copyoutFrom fuel ((pgrounddown va + PGSIZE) % 2 ^ 32) (len - min len (PGSIZE - (va - pgrounddown va)))
    else return true

/-- `copyout` of `len` bytes; false is the return value -1. -/
def copyout (va len : ℕ) : Prog Bool := copyoutFrom (len / PGSIZE + 3) va len

end Xv6.Vm
