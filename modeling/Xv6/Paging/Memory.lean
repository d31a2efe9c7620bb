import Xv6.Lib.Chain
import Xv6.Vm.Page

/-!
# Physical memory, and the functions of `vm.c` on it

`kalloc.c` and the functions of `vm.c` once more, now over the bytes of physical memory: a page directory and its page
tables are arrays of 32-bit entries in pages of this memory, and the free list runs through the first word of every free
page. `Xv6.Vm.Page` has the same functions over page directories that are values of their own.
-/

namespace Xv6.Paging

open Lib
open Vm (Frame PGSIZE NPTENTRIES KERNBASE PHYSTOP DEVSPACE pgroundup pgrounddown pdx)

/-! ## Memory -/

/-- The state: the bytes of all pages, the allocator, and which of the next calls of `kalloc` fail. -/
structure State where
  mem : Frame → ℕ → Byte
  /-- the first page behind the kernel -/
  first : Frame
  freelist : Option Frame
  fails : List Bool

inductive Stop
  | kfree
  | remap
  | phystop
  | copyExist
  | copyPresent
  | nullPte
  | loop
  deriving DecidableEq

abbrev Prog := StateT State (Except Stop)

def State.setPage (s : State) (f : Frame) (m : ℕ → Byte) : State := { s with mem := Function.update s.mem f m }

def State.word (s : State) (f : Frame) (i : ℕ) : Word := word32 (s.mem f) (4 * i)

def State.setWord (s : State) (f : Frame) (i : ℕ) (w : Word) : State :=
  s.setPage f (overlay (s.mem f) (4 * i) 4 (byte w))

/-- The address of a page, or the null pointer. -/
def p2v : Option Frame → Word
  | none => 0
  | some f => .ofNat 32 (KERNBASE + f * PGSIZE)

/-- The page at an address. -/
def v2p (v : Word) : Option Frame := if v = 0 then none else some ((v.toNat + 2 ^ 32 - KERNBASE) % 2 ^ 32 / PGSIZE)

/-- The field `next` of a free page. -/
def State.next (s : State) (f : Frame) : Option Frame := v2p (s.word f 0)

def kalloc : Prog (Option Frame) := do
  let s ← get
  match s.fails.headD false, s.freelist with
  | false, some r =>
    set { s with fails := s.fails.tail, freelist := s.next r }
    return some r
  | _, _ =>
    set { s with fails := s.fails.tail }
    return none

/-- `memset(p2v(f), b, PGSIZE)`. -/
def memset (f : Frame) (b : Byte) : Prog Unit := modify fun s => s.setPage f fun _ => b

def kfree (f : Frame) : Prog Unit := do
  let s ← get
  if f < s.first ∨ PHYSTOP ≤ f * PGSIZE then throw .kfree
  else
    memset f 1
    let s ← get
    set { s.setWord f 0 (p2v s.freelist) with freelist := some f }

/-! ## Entries -/

def ptx (va : ℕ) : ℕ := va / PGSIZE % NPTENTRIES

abbrev PTE_P : ℕ := 1

abbrev PTE_W : ℕ := 2

abbrev PTE_U : ℕ := 4

def present (e : Word) : Bool := e.getLsbD 0

def user (e : Word) : Bool := e.getLsbD 2

def pteAddr (e : Word) : ℕ := e.toNat / PGSIZE * PGSIZE

def pteFlags (e : Word) : ℕ := e.toNat % PGSIZE

def frame (e : Word) : ℕ := pteAddr e / PGSIZE

/-- `pa | perm | PTE_P`. -/
def pte (pa perm : ℕ) : Word := .ofNat 32 (pa ||| perm ||| PTE_P)

/-! ## Page tables -/

/-- `walkpgdir` without `alloc`: the page table, and the place of the entry in it. -/
def State.walk (s : State) (d : Frame) (va : ℕ) : Option (Frame × ℕ) :=
  if present (s.word d (pdx va)) then some (frame (s.word d (pdx va)), ptx va) else none

/-- `walkpgdir` with `alloc`. -/
def walkpgdir (d : Frame) (va : ℕ) : Prog (Option (Frame × ℕ)) := do
  let s ← get
  match s.walk d va with
  | some q => return some q
  | none =>
    match ← kalloc with
    | none => return none
    | some f =>
      memset f 0
      let s ← get
      set (s.setWord d (pdx va) (.ofNat 32 (f * PGSIZE ||| PTE_P ||| PTE_W ||| PTE_U)))
      return some (f, ptx va)

/-- The loop of `mappages` from `a` on. -/
def mapFrom (d : Frame) (perm last : ℕ) : ℕ → ℕ → ℕ → Prog Bool
  | 0, _, _ => throw .loop
  | fuel + 1, a, pa => do
    match ← walkpgdir d a with
    | none => return false
    | some (f, i) =>
      let s ← get
      if present (s.word f i) then throw .remap
      else
        set (s.setWord f i (pte pa perm))
        if a = last then return true
        else mapFrom d perm last fuel ((a + PGSIZE) % 2 ^ 32) ((pa + PGSIZE) % 2 ^ 32)

/-- The pages of an address space. -/
abbrev NPAGES : ℕ := 2 ^ 32 / PGSIZE

/-- `mappages`; false is the return value -1. -/
def mappages (d : Frame) (va size pa perm : ℕ) : Prog Bool :=
  mapFrom d perm (pgrounddown ((va + size + (2 ^ 32 - 1)) % 2 ^ 32)) NPAGES (pgrounddown va) pa

structure Kmap where
  virt : ℕ
  physStart : ℕ
  physEnd : ℕ
  perm : ℕ

/-- The start of extended memory. -/
abbrev EXTMEM : ℕ := 0x100000

/-- The address where the kernel is linked. -/
abbrev KERNLINK : ℕ := KERNBASE + EXTMEM

/-- The kernel's mappings; `data` is the address of its data. -/
def kmap (data : ℕ) : List Kmap :=
  [⟨KERNBASE, 0, EXTMEM, PTE_W⟩, ⟨KERNLINK, KERNLINK - KERNBASE, data - KERNBASE, 0⟩,
    ⟨data, data - KERNBASE, PHYSTOP, PTE_W⟩, ⟨DEVSPACE, DEVSPACE, 0, PTE_W⟩]

def Kmap.size (k : Kmap) : ℕ := (k.physEnd + 2 ^ 32 - k.physStart) % 2 ^ 32

def mapKernel (d : Frame) : List Kmap → Prog Bool
  | [] => return true
  | k :: ks => do
    let ok ← mappages d k.virt k.size k.physStart k.perm
    if ok then mapKernel d ks else return false

def setupkvm (data : ℕ) : Prog (Option Frame) := do
  match ← kalloc with
  | none => return none
  | some d =>
    memset d 0
    if DEVSPACE < KERNBASE + PHYSTOP then throw .phystop
    else
      let ok ← mapKernel d (kmap data)
      return if ok then some d else none

/-! ## User memory -/

/-- The part of the loop of `deallocuvm` for an address that has a page table. -/
def unmap (t : Frame) (i : ℕ) : Prog Unit := do
  let s ← get
  if present (s.word t i) then
    if pteAddr (s.word t i) = 0 then throw .kfree
    else
      kfree (frame (s.word t i))
      let s ← get
      set (s.setWord t i 0)
  else pure ()

/-- The loop of `deallocuvm` from `a` on. -/
def deallocFrom (d : Frame) (oldsz : ℕ) : ℕ → ℕ → Prog Unit
  | 0, _ => throw .loop
  | fuel + 1, a =>
    if a < oldsz then do
      let s ← get
      match s.walk d a with
      | none => deallocFrom d oldsz fuel (((a + (NPTENTRIES - 1) * PGSIZE) % 2 ^ 32 + PGSIZE) % 2 ^ 32)
      | some (t, i) =>
        unmap t i
        deallocFrom d oldsz fuel ((a + PGSIZE) % 2 ^ 32)
    else return ()

def deallocuvm (d : Frame) (oldsz newsz : ℕ) : Prog ℕ := do
  if oldsz ≤ newsz then return oldsz
  else
    deallocFrom d oldsz (NPAGES + 1) (pgroundup newsz)
    return newsz

def freevm (d : Frame) : Prog Unit := do
  let _ ← deallocuvm d KERNBASE 0
  (List.range NPTENTRIES).forM fun i => do
    let s ← get
    if present (s.word d i) then kfree (frame (s.word d i)) else pure ()
  kfree d

/-- The loop of `copyuvm` from `i` on. -/
def copyFrom (parent d : Frame) (sz : ℕ) : ℕ → ℕ → Prog (Option Frame)
  | 0, _ => throw .loop
  | fuel + 1, i =>
    if i < sz then do
      let s ← get
      match s.walk parent i with
      | none => throw .copyExist
      | some (t, j) =>
        if ¬ present (s.word t j) then throw .copyPresent
        else
          match ← kalloc with
          | none =>
            freevm d
            return none
          | some f =>
            modify fun u => u.setPage f (u.mem (frame (s.word t j)))
            let ok ← mappages d i PGSIZE (f * PGSIZE) (pteFlags (s.word t j))
            if ok then copyFrom parent d sz fuel ((i + PGSIZE) % 2 ^ 32)
            else
              freevm d
              return none
    else return some d

def copyuvm (data : ℕ) (parent : Frame) (sz : ℕ) : Prog (Option Frame) := do
  match ← setupkvm data with
  | none => return none
  | some d => copyFrom parent d sz (NPAGES + 1) 0

/-- `uva2ka`, with the test of its result; it reads the entry without a test of the pointer. -/
def uva2ka (d : Frame) (uva : ℕ) : Prog (Option Frame) := do
  let s ← get
  match s.walk d uva with
  | none => throw .nullPte
  | some (t, i) => return if present (s.word t i) ∧ user (s.word t i) then v2p (p2v (frame (s.word t i))) else none

def copyoutFrom (d : Frame) : ℕ → ℕ → List Byte → Prog Bool
  | 0, _, _ => throw .loop
  | fuel + 1, va, buf =>
    if 0 < buf.length then do
      match ← uva2ka d (pgrounddown va) with
      | none => return false
      | some f =>
        let n := min (PGSIZE - (va - pgrounddown va)) buf.length
        modify fun s => s.setPage f (overlay (s.mem f) (va - pgrounddown va) n fun i => buf.getD i 0)
        copyoutFrom d fuel ((pgrounddown va + PGSIZE) % 2 ^ 32) (buf.drop n)
    else return true

/-- `copyout`; false is the return value -1. -/
def copyout (d : Frame) (va : ℕ) (buf : List Byte) : Prog Bool := copyoutFrom d (NPAGES + 2) va buf

end Xv6.Paging
