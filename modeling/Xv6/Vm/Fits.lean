import Xv6.Vm.Account

/-!
# Files that `exec` can load

`exec` looks at the program headers of a file one after the other, and gives up at the first one that it cannot load.
Which ones it comes to (`Content.loaded`), the value of `allocuvm`, how far `loaduvm` gets and which pages are mapped then
all follow from the file and from the calls of `kalloc` that fail. So the conditions here ask something only of what
`exec` comes to.

- `Content.Straight`: no bytes of the file are stored through the mappings of the kernel.
- `ExecFits`: `exec` does not stop, and stores bytes into pages that it has mapped.
- `ExecTables`: each page that `exec` allocates for the user memory gets a page table.
-/

namespace Xv6.Vm

open Lib

variable {fails : List Use} {c : Content} {n a : ℕ}

/-! ## Headers -/

/-- The value of `allocuvm`. -/
def allocates (fails : List Use) (oldsz newsz : ℕ) : ℕ :=
  if KERNBASE ≤ newsz then 0
  else if newsz < oldsz then oldsz
  else if PagesFound fails (npages oldsz) (npages newsz) then newsz else 0

/-- The size that `exec` asks `allocuvm` for. -/
def Proghdr.newsz (ph : Proghdr) : ℕ := (ph.vaddr + ph.memsz) % 2 ^ 32

/-- The address of page `j` of a segment. -/
def Proghdr.addr (ph : Proghdr) (j : ℕ) : ℕ := (ph.vaddr + j * PGSIZE) % 2 ^ 32

/-- `loaduvm` comes to page `j` of the segment: it has read the pages before. -/
def Proghdr.Comes (ph : Proghdr) (c : Content) (j : ℕ) : Prop :=
  j * PGSIZE < ph.filesz ∧ (0 < j → ph.off + j * PGSIZE ≤ c.bytes.length)

/-- There are bytes in the file for page `j` of the segment. -/
def Proghdr.Stores (ph : Proghdr) (c : Content) (j : ℕ) : Prop := ph.Comes c j ∧ ph.off + j * PGSIZE < c.bytes.length

/-- All bytes of the segment are in the file. -/
def Proghdr.Read (ph : Proghdr) (c : Content) : Prop := ph.filesz = 0 ∨ ph.off + ph.filesz ≤ c.bytes.length

instance (ph : Proghdr) (j : ℕ) : Decidable (ph.Comes c j) := inferInstanceAs (Decidable (_ ∧ _))

instance (ph : Proghdr) (j : ℕ) : Decidable (ph.Stores c j) := inferInstanceAs (Decidable (_ ∧ _))

instance (ph : Proghdr) : Decidable (ph.Read c) := inferInstanceAs (Decidable (_ ∨ _))

/-- **What `exec` comes to** from the header at `off` on: the headers that it loads, each with the size of the memory
before it, and the size when all are loaded. -/
def Content.loads (c : Content) (fails : List Use) : ℕ → ℕ → ℕ → List (ℕ × Proghdr) × Option ℕ
  | 0, _, sz => ([], some sz)
  | n + 1, off, sz =>
    match c.proghdr off with
    | none => ([], none)
    | some ph =>
      if ph.type ≠ ELF_PROG_LOAD then c.loads fails n ((off + PHSIZE) % 2 ^ 32) sz
      else if ph.memsz < ph.filesz then ([], none)
      else if allocates fails sz ph.newsz ≠ 0 ∧ ph.Read c then
        let rest := c.loads fails n ((off + PHSIZE) % 2 ^ 32) (allocates fails sz ph.newsz)
        ((sz, ph) :: rest.1, rest.2)
      else ([(sz, ph)], none)

/-- The headers of the file that `exec` loads, and the size of the program. -/
def Content.loaded (c : Content) (fails : List Use) : List (ℕ × Proghdr) × Option ℕ :=
  match c.elfhdr with
  | none => ([], none)
  | some elf => if KernelFound fails then c.loads fails elf.phnum elf.phoff 0 else ([], none)

/-- The bytes of a segment are not stored through the mappings of the kernel. -/
def Proghdr.Spares (ph : Proghdr) (c : Content) : Prop :=
  ph.vaddr % PGSIZE = 0 → ∀ j ≤ c.bytes.length / PGSIZE, ph.Stores c j → KERNBASE ≤ ph.addr j →
    kernelPte (ph.addr j) = none

/-- **No segment that `exec` loads is stored through the mappings of the kernel.** -/
def Content.Straight (c : Content) (fails : List Use) : Prop :=
  ∀ x ∈ (c.loaded fails).1, allocates fails x.1 x.2.newsz ≠ 0 → x.2.Spares c

/-! ## The new memory -/

/-- `walkpgdir` finds an entry for `a` when there are `n` pages of memory. -/
def Walked (fails : List Use) (n a : ℕ) : Prop :=
  if a < KERNBASE then ∃ w < n, w / NPTENTRIES = pdx a ∧ Use.table (w * PGSIZE) ∉ fails else (kernelPte a).isSome

/-- `a` is mapped when there are `n` pages of memory. -/
def Backed (fails : List Use) (n a : ℕ) : Prop := a < KERNBASE ∧ a / PGSIZE < n ∧ Has fails .empty 0 (a / PGSIZE)

/-- **A segment fits** into a memory of `n` pages: it starts at a page, the pages that `loaduvm` comes to have entries, and
those into which it stores are mapped. -/
def Proghdr.SegmentFits (fails : List Use) (c : Content) (n : ℕ) (ph : Proghdr) : Prop :=
  ph.vaddr % PGSIZE = 0 ∧ ∀ j ≤ c.bytes.length / PGSIZE, ph.Comes c j →
    Walked fails n (ph.addr j) ∧ (ph.Stores c j → Backed fails n (ph.addr j))

/-- **A header fits** behind a memory of `sz` bytes. -/
def Proghdr.Fits (fails : List Use) (c : Content) (sz : ℕ) (ph : Proghdr) : Prop :=
  allocates fails sz ph.newsz ≠ 0 → ph.SegmentFits fails c (npages (allocates fails sz ph.newsz))

/-! ## The stack -/

/-- Page `i` of some bytes at `va`. -/
def pageAt (va i : ℕ) : ℕ := (pgrounddown va + i * PGSIZE) % 2 ^ 32

/-- `copyout` can store at `a`, which is not in the page below the stack. -/
def Open (fails : List Use) (n guard a : ℕ) : Prop := Backed fails n a ∧ a / PGSIZE ≠ guard

/-- **`copyout` does not stop**: each page that it comes to has an entry. -/
def CopyFits (fails : List Use) (n guard va len : ℕ) : Prop :=
  ∀ i < npages (va % PGSIZE + len), (∀ j < i, Open fails n guard (pageAt va j)) → Walked fails n (pageAt va i)

/-- `copyout` copies all bytes. -/
def Copies (fails : List Use) (n guard va len : ℕ) : Prop :=
  ∀ i < npages (va % PGSIZE + len), Open fails n guard (pageAt va i)

/-- The stack pointer when the words for `argc` arguments have been pushed. -/
def framed (sp argc : ℕ) : ℕ := (sp + 2 ^ 32 - (3 + argc + 1) * 4) % 2 ^ 32

/-- **The arguments fit**: no string that `exec` comes to, and not the words behind them, makes `copyout` stop. -/
def ArgsFit (fails : List Use) (n guard : ℕ) : List (List Byte) → ℕ → ℕ → Prop
  | [], argc, sp => CopyFits fails n guard (framed sp argc) ((3 + argc + 1) * 4)
  | arg :: argv, argc, sp =>
    argc < MAXARG → CopyFits fails n guard (pushed sp arg.length) (arg.length + 1) ∧
      (Copies fails n guard (pushed sp arg.length) (arg.length + 1) →
        ArgsFit fails n guard argv (argc + 1) (pushed sp arg.length))

/-- The size of the memory with the stack. -/
def stackEnd (sz : ℕ) : ℕ := pgroundup sz + 2 * PGSIZE

/-- **The stack fits** behind a program of `sz` bytes. -/
def StackFits (fails : List Use) (argv : List (List Byte)) (sz : ℕ) : Prop :=
  allocates fails (pgroundup sz) (stackEnd sz) ≠ 0 → Walked fails (npages (stackEnd sz)) (pgroundup sz) ∧
    ArgsFit fails (npages (stackEnd sz)) (pgroundup sz / PGSIZE) argv 0 (stackEnd sz)

/-! ## The conditions -/

/-- **The condition of `exec`.** -/
def ExecFits (fails : List Use) (file : Option Content) (argv : List (List Byte)) : Prop :=
  ∀ c ∈ file, (∀ x ∈ (c.loaded fails).1, x.2.Fits fails c x.1) ∧ ∀ sz ∈ (c.loaded fails).2, StackFits fails argv sz

/-- `allocuvm` finds page tables for the pages from `oldsz` up to `newsz` that it finds. -/
def AllocTables (fails : List Use) (oldsz newsz : ℕ) : Prop :=
  newsz < KERNBASE → NewTables fails (npages oldsz) (npages newsz)

/-- **No page table is missing** when `exec` allocates a page for one, nor when it allocates a page of memory. -/
def ExecTables (fails : List Use) (file : Option Content) : Prop :=
  ∀ c ∈ file, (c.elfhdr ≠ none → Use.dir ∉ fails → KernelFound fails) ∧
    (∀ x ∈ (c.loaded fails).1, AllocTables fails x.1 x.2.newsz) ∧
    ∀ sz ∈ (c.loaded fails).2, AllocTables fails (pgroundup sz) (stackEnd sz)

/-- **The new memory is mapped without a gap**, if `exec` succeeds. -/
def ExecFills (fails : List Use) (file : Option Content) : Prop :=
  ∀ c ∈ file, ∀ sz ∈ (c.loaded fails).2, allocates fails (pgroundup sz) (stackEnd sz) ≠ 0 →
    ∀ v < npages (stackEnd sz), Has fails .empty 0 v

/-! ## Decidability -/

instance (ph : Proghdr) : Decidable (ph.Spares c) := inferInstanceAs (Decidable (_ → ∀ j ≤ _, _))

instance : Decidable (c.Straight fails) := inferInstanceAs (Decidable (∀ x ∈ (c.loaded fails).1, _))

instance : Decidable (Walked fails n a) := inferInstanceAs (Decidable (ite _ _ _))

instance : Decidable (Backed fails n a) := inferInstanceAs (Decidable (_ ∧ _ ∧ _))

instance (ph : Proghdr) : Decidable (ph.SegmentFits fails c n) := inferInstanceAs (Decidable (_ ∧ ∀ j ≤ _, _))

instance (ph : Proghdr) (sz : ℕ) : Decidable (ph.Fits fails c sz) := inferInstanceAs (Decidable (_ → _))

instance (guard : ℕ) : Decidable (Open fails n guard a) := inferInstanceAs (Decidable (_ ∧ _))

instance (guard va len : ℕ) : Decidable (CopyFits fails n guard va len) := inferInstanceAs (Decidable (∀ i < _, _))

instance (guard va len : ℕ) : Decidable (Copies fails n guard va len) := inferInstanceAs (Decidable (∀ i < _, _))

def decidableArgsFit (fails : List Use) (n guard : ℕ) : ∀ argv argc sp, Decidable (ArgsFit fails n guard argv argc sp)
  | [], _, _ => inferInstanceAs (Decidable (CopyFits _ _ _ _ _))
  | _ :: argv, _, _ =>
    have := decidableArgsFit fails n guard argv
    inferInstanceAs (Decidable (_ → _ ∧ _))

instance (guard argc sp : ℕ) (argv : List (List Byte)) : Decidable (ArgsFit fails n guard argv argc sp) :=
  decidableArgsFit fails n guard argv argc sp

instance (argv : List (List Byte)) (sz : ℕ) : Decidable (StackFits fails argv sz) :=
  inferInstanceAs (Decidable (_ → _ ∧ _))

instance (file : Option Content) (argv : List (List Byte)) : Decidable (ExecFits fails file argv) :=
  inferInstanceAs (Decidable (∀ c ∈ file, _ ∧ _))

instance (file : Option Content) : Decidable (ExecFills fails file) :=
  inferInstanceAs (Decidable (∀ c ∈ file, ∀ sz ∈ (c.loaded fails).2, _))

end Xv6.Vm
