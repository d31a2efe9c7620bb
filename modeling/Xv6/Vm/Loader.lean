import Xv6.Vm.Grow

/-!
# The parts of `exec` with the bytes of memory

The functions that `exec` calls once more, now with the bytes of the pages: `loaduvm` stores what it reads from the
file, `copyout` the strings of the arguments and the words of the stack, and `freevm` fills the pages with junk. Without
the bytes they are those of `Xv6.Vm.Exec` (`erases_loadSegments`, `erases_copyout`, `erases_freevm`).
-/

namespace Xv6.Vm

open Lib

def Ram.store (R : Ram) (f : Frame) (off : ℕ) (bs : List Byte) : Ram where
  mem := { R.mem with stores := f :: R.mem.stores }
  data := Function.update R.data f (overlay (R.data f) off bs.length fun i => bs.getD i 0)

namespace Bytes

/-! ## The program -/

/-- The loop of `loaduvm` from `i` on. -/
def loadFrom (c : Content) (addr offset sz : ℕ) : ℕ → ℕ → Prog Bool
  | 0, _ => throw .fuel
  | fuel + 1, i =>
    if i < sz then do
      let R ← get
      match R.mem.pgdir.walk ((addr + i) % 2 ^ 32) with
      | none => throw .loadExist
      | some e =>
        match c.readi ((offset + i) % 2 ^ 32) (min (sz - i) PGSIZE) with
        | none => return false
        | some bs =>
          if bs = [] then return false
          else
            set (R.store e.frame 0 bs)
            if bs.length = min (sz - i) PGSIZE then loadFrom c addr offset sz fuel ((i + PGSIZE) % 2 ^ 32)
            else return false
    else return true

def loaduvm (c : Content) (addr offset sz : ℕ) : Prog Bool :=
  if addr % PGSIZE ≠ 0 then throw .loadAligned
  else loadFrom c addr offset sz (c.bytes.length / PGSIZE + 2) 0

/-- The loop of `exec` over the program headers. -/
def loadSegments (fails : List Use) (c : Content) : ℕ → ℕ → ℕ → Prog (Option ℕ)
  | 0, _, sz => return some sz
  | n + 1, off, sz =>
    match c.proghdr off with
    | none => return none
    | some ph =>
      if ph.type ≠ ELF_PROG_LOAD then loadSegments fails c n ((off + PHSIZE) % 2 ^ 32) sz
      else if ph.memsz < ph.filesz then return none
      else do
        let sz ← allocuvm fails sz ((ph.vaddr + ph.memsz) % 2 ^ 32)
        if sz = 0 then return none
        else
          let ok ← loaduvm c ph.vaddr ph.off ph.filesz
          if ok then loadSegments fails c n ((off + PHSIZE) % 2 ^ 32) sz
          else return none

/-- The two pages for the stack, of which the first one is inaccessible: the new size. -/
@[irreducible] def stackPages (fails : List Use) (sz : ℕ) : Prog (Option ℕ) := do
  let sz ← allocuvm fails (pgroundup sz) ((pgroundup sz + 2 * PGSIZE) % 2 ^ 32)
  if sz = 0 then return none
  else
    part (clearpteu (sz - 2 * PGSIZE))
    return some sz

def copyoutFrom : ℕ → ℕ → List Byte → Prog Bool
  | 0, _, _ => throw .fuel
  | fuel + 1, va, buf =>
    if 0 < buf.length then do
      match ← part (uva2ka (pgrounddown va)) with
      | none => return false
      | some f =>
        let R ← get
        set (R.store f (va - pgrounddown va) (buf.take (min buf.length (PGSIZE - (va - pgrounddown va)))))
        copyoutFrom fuel ((pgrounddown va + PGSIZE) % 2 ^ 32)
          (buf.drop (min buf.length (PGSIZE - (va - pgrounddown va))))
    else return true

def copyout (va : ℕ) (buf : List Byte) : Prog Bool := copyoutFrom (buf.length / PGSIZE + 3) va buf

def wordBytes (ws : List ℕ) : List Byte := ws.flatMap fun w => (List.range 4).map (byte (BitVec.ofNat 32 w))

/-- The end of `exec`'s work on the stack: the array `ustack` with the three words in front of it. `ptrs` are the
addresses of the arguments. -/
def pushFrame (ptrs : List ℕ) (sp : ℕ) : Prog (Option ℕ) := do
  let argc := ptrs.length
  let ustack := [0xffffffff, argc, (sp + 2 ^ 32 - (argc + 1) * 4) % 2 ^ 32] ++ ptrs ++ [0]
  let sp := (sp + 2 ^ 32 - (3 + argc + 1) * 4) % 2 ^ 32
  let ok ← copyout sp (wordBytes ustack)
  return if ok then some sp else none

/-- The loop of `exec` over the arguments, and what follows it: the stack pointer. -/
def pushArgs : List (List Byte) → List ℕ → ℕ → Prog (Option ℕ)
  | [], ptrs, sp => pushFrame ptrs sp
  | arg :: argv, ptrs, sp =>
    if MAXARG ≤ ptrs.length then return none
    else do
      let sp := pushed sp arg.length
      let ok ← copyout sp (arg ++ [0])
      if ok then pushArgs argv (ptrs ++ [sp]) sp
      else return none

def freevm : Prog Unit := do
  let R ← get
  if R.mem.pgdir.page = none then throw .freevm
  else
    let _ ← deallocuvm KERNBASE 0
    let R ← get
    set { R with mem := { R.mem with pgdir := .empty } }
    R.mem.pgdir.pages.forM fun f => do
      part (kfree f)
      memset f 1

/-! ## Without the bytes -/

variable {β : Type} {fails : List Use} {c : Content}

theorem erases_set {R : Ram} {s : Mem} {f : PUnit → Prog β} {f' : PUnit → Vm.Prog β} (hs : s = R.mem)
    (h : Erases Ram.mem never (f ⟨⟩) (f' ⟨⟩)) : Erases Ram.mem never (set R >>= f) (set s >>= f') := by
  intro t
  rw [hs]
  exact h R

theorem erases_loadFrom (addr offset sz : ℕ) :
    ∀ fuel i, Erases Ram.mem never (loadFrom c addr offset sz fuel i) (Vm.loadFrom c addr offset sz fuel i) := by
  intro fuel
  induction fuel with
  | zero => exact fun _ => .throw _
  | succ fuel ih =>
    intro i
    unfold loadFrom Vm.loadFrom
    split_ifs
    · refine .get_bind fun R => ?_
      cases R.mem.pgdir.walk ((addr + i) % 2 ^ 32) with
      | none => exact .throw _
      | some e =>
        simp only
        cases c.readi ((offset + i) % 2 ^ 32) (min (sz - i) PGSIZE) with
        | none => exact .pure _
        | some bs =>
          simp only
          split_ifs
          · exact .pure _
          · exact erases_set rfl (ih _)
          · exact erases_set rfl (.pure _)
    · exact .pure _

theorem erases_loaduvm (addr offset sz : ℕ) :
    Erases Ram.mem never (loaduvm c addr offset sz) (Vm.loaduvm c addr offset sz) := by
  unfold loaduvm Vm.loaduvm
  split_ifs
  · exact .throw _
  · exact erases_loadFrom _ _ _ _ _

theorem erases_loadSegments :
    ∀ n off sz, Erases Ram.mem never (loadSegments fails c n off sz) (Vm.loadSegments fails c n off sz) := by
  intro n
  induction n with
  | zero => exact fun _ _ => .pure _
  | succ n ih =>
    intro off sz
    unfold loadSegments Vm.loadSegments
    cases c.proghdr off with
    | none => exact .pure _
    | some ph =>
      simp only
      split_ifs
      · exact ih _ _
      · exact .pure _
      · refine (erases_allocuvm _ _ _).bind fun r => ?_
        split_ifs
        · exact .pure _
        · refine (erases_loaduvm _ _ _).bind fun ok => ?_
          split_ifs
          · exact ih _ _
          · exact .pure _

theorem erases_copyoutFrom :
    ∀ fuel va buf, Erases Ram.mem never (copyoutFrom fuel va buf) (Vm.copyoutFrom fuel va buf.length) := by
  intro fuel
  induction fuel with
  | zero => exact fun _ _ => .throw _
  | succ fuel ih =>
    intro va buf
    unfold copyoutFrom Vm.copyoutFrom
    split_ifs
    · refine erases_part_bind fun r => ?_
      cases r with
      | none => exact .pure _
      | some f =>
        refine .get_bind fun R => erases_set rfl ?_
        rw [← List.length_drop]
        exact ih _ _
    · exact .pure _

theorem length_wordBytes (ws : List ℕ) : (wordBytes ws).length = ws.length * 4 := by
  simp [wordBytes, List.length_flatMap]

theorem erases_copyout {va len : ℕ} {buf : List Byte} (h : buf.length = len) :
    Erases Ram.mem never (copyout va buf) (Vm.copyout va len) := by
  rw [← h]
  exact erases_copyoutFrom _ _ _

theorem erases_forM {f : Frame → Prog PUnit} {f' : Frame → Vm.Prog PUnit} (h : ∀ p, Erases Ram.mem never (f p) (f' p)) :
    ∀ l : List Frame, Erases Ram.mem never (l.forM f) (l.forM f')
  | [] => .pure _
  | p :: l => (h p).bind fun _ => erases_forM h l

theorem erases_freevm : Erases Ram.mem never freevm Vm.freevm := by
  unfold freevm Vm.freevm
  refine .get_bind fun R => ?_
  split_ifs
  · exact .throw _
  refine (erases_deallocuvm _ _).bind fun _ => .get_bind fun R => erases_set rfl (erases_forM (fun p => ?_) _)
  have hjunk : Erases Ram.mem never (part (kfree p) >>= fun _ => memset p 1) (kfree p >>= pure) :=
    erases_part_bind fun _ _ => .inl rfl
  rwa [bind_pure] at hjunk

end Bytes

end Xv6.Vm
