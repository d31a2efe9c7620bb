import Xv6.Vm.Page

/-!
# The allocator of the user library

`malloc` and `free` keep the free blocks in a circular list through the static header `base`. A block starts with a
header of eight bytes, the pointer to the next free block and the size in units of eight bytes; the headers are in the
memory of the process, which is modelled byte by byte, and all arithmetic is that of 32 bits.
-/

namespace Xv6.Malloc

open Lib
open Vm (KERNBASE)

/-- The memory of a process, `freep` (0 is the null pointer), the size of the process, the answers that the kernel will give
to `sbrk`, and the memory that `sbrk` has added: addresses and numbers of bytes. -/
structure State where
  mem : ℕ → Byte
  freep : ℕ
  sz : ℕ
  answers : List (Option ℕ)
  regions : List (ℕ × ℕ)

/-- The loops have as many rounds as there are addresses. -/
inductive Stop where
  | loop
deriving DecidableEq

abbrev Prog := StateT State (Except Stop)

/-! ## Headers -/

def State.ptr (s : State) (a : ℕ) : ℕ := (word32 s.mem a).toNat

def State.size (s : State) (a : ℕ) : ℕ := (word32 s.mem (a + 4)).toNat

def State.setPtr (s : State) (a v : ℕ) : State := { s with mem := overlay s.mem a 4 (byte (BitVec.ofNat 32 v)) }

def State.setSize (s : State) (a v : ℕ) : State := { s with mem := overlay s.mem (a + 4) 4 (byte (BitVec.ofNat 32 v)) }

/-- `sizeof(Header)`. -/
def HDR : ℕ := 8

/-- `a + n` for a pointer to a header. -/
def plus (a n : ℕ) : ℕ := (a + HDR * n) % 2 ^ 32

/-! ## `free` -/

/-- The rounds of a loop, at most. -/
def FUEL : ℕ := 2 ^ 33

/-- The loop of `free`: the free block `p` behind which `bp` belongs. -/
def freeFrom (bp : ℕ) : ℕ → ℕ → Prog ℕ
  | 0, _ => throw .loop
  | fuel + 1, p => do
    let s ← get
    if p < bp ∧ bp < s.ptr p then return p
    else if s.ptr p ≤ p ∧ (p < bp ∨ bp < s.ptr p) then return p
    else freeFrom bp fuel (s.ptr p)

/-- The first `if` of `free`: `bp` takes over the block behind it. -/
def State.joinUpper (s : State) (p bp : ℕ) : State :=
  if plus bp (s.size bp) = s.ptr p then
    let t := s.setSize bp (s.size bp + s.size (s.ptr p))
    t.setPtr bp (t.ptr (t.ptr p))
  else s.setPtr bp (s.ptr p)

/-- The second `if` of `free`: `p` takes over `bp`. -/
def State.joinLower (s : State) (p bp : ℕ) : State :=
  if plus p (s.size p) = bp then
    let t := s.setSize p (s.size p + s.size bp)
    t.setPtr p (t.ptr bp)
  else s.setPtr p bp

def free (ap : ℕ) : Prog Unit := do
  let bp := (ap + (2 ^ 32 - HDR)) % 2 ^ 32
  let s ← get
  let p ← freeFrom bp FUEL s.freep
  modify fun s => { (s.joinUpper p bp).joinLower p bp with freep := p }

/-! ## `malloc` -/

section

variable (sbrk : ℕ → Prog (Option ℕ)) (base : ℕ)

def morecore (nu : ℕ) : Prog ℕ := do
  let nu := if nu < 4096 then 4096 else nu
  match ← sbrk (nu * HDR % 2 ^ 32) with
  | none => return 0
  | some p =>
    modify fun s => s.setSize p nu
    free (plus p 1)
    let s ← get
    return s.freep

/-- `malloc` takes the block `p` behind `prevp`, or the end of it. -/
def State.take (s : State) (nunits prevp p : ℕ) : ℕ × State :=
  if s.size p = nunits then (plus p 1, { s.setPtr prevp (s.ptr p) with freep := prevp })
  else
    let t := s.setSize p (s.size p - nunits)
    let q := plus p (t.size p)
    (plus q 1, { t.setSize q nunits with freep := prevp })

/-- The loop of `malloc`. -/
def mallocFrom (nunits : ℕ) : ℕ → ℕ → ℕ → Prog ℕ
  | 0, _, _ => throw .loop
  | fuel + 1, prevp, p => do
    let s ← get
    if nunits ≤ s.size p then
      set (s.take nunits prevp p).2
      return (s.take nunits prevp p).1
    else if p = s.freep then
      let p ← morecore sbrk nunits
      if p = 0 then return 0
      else
        let s ← get
        mallocFrom nunits fuel p (s.ptr p)
    else mallocFrom nunits fuel p (s.ptr p)

/-- The first call makes the list of the free blocks. -/
def State.init (s : State) (base : ℕ) : State :=
  if s.freep = 0 then { (s.setPtr base base).setSize base 0 with freep := base } else s

/-- The size of the request in units, with the header. -/
def units (nbytes : ℕ) : ℕ := (nbytes + HDR - 1) % 2 ^ 32 / HDR + 1

def malloc (nbytes : ℕ) : Prog ℕ := do
  modify fun s => s.init base
  let s ← get
  mallocFrom sbrk (units nbytes) FUEL s.freep (s.ptr s.freep)

end

/-! ## Reading behind writing -/

/-- Two headers that do not overlap. -/
def Apart (a b : ℕ) : Prop := a + HDR ≤ b ∨ b + HDR ≤ a

/-- The same header, or one beside it. -/
def Off (a b : ℕ) : Prop := a = b ∨ Apart a b

variable {s : State} {a b v : ℕ}

theorem word_overlay_self {m : ℕ → Byte} {w : BitVec 32} : word32 (overlay m a 4 (byte w)) a = w :=
  word32_eq fun _ hi => overlay_at hi

theorem word_overlay_ne {m : ℕ → Byte} {f : ℕ → Byte} (h : a + 4 ≤ b ∨ b + 4 ≤ a) :
    word32 (overlay m a 4 f) b = word32 m b :=
  word32_congr fun i hi => overlay_out (by omega)

theorem ptr_setPtr (hv : v < 2 ^ 32) (h : Off a b) : (s.setPtr a v).ptr b = if b = a then v else s.ptr b := by
  rcases h with rfl | h
  · rw [if_pos rfl, State.ptr, State.setPtr, word_overlay_self, BitVec.toNat_ofNat, Nat.mod_eq_of_lt hv]
  · simp only [Apart, HDR] at h
    rw [if_neg (by omega), State.ptr, State.setPtr, word_overlay_ne (by omega)]
    rfl

theorem size_setPtr (h : Off a b) : (s.setPtr a v).size b = s.size b := by
  simp only [Off, Apart, HDR] at h
  rw [State.size, State.setPtr, word_overlay_ne (by omega)]
  rfl

theorem ptr_setSize (h : Off a b) : (s.setSize a v).ptr b = s.ptr b := by
  simp only [Off, Apart, HDR] at h
  rw [State.ptr, State.setSize, word_overlay_ne (by omega)]
  rfl

theorem size_setSize (hv : v < 2 ^ 32) (h : Off a b) : (s.setSize a v).size b = if b = a then v else s.size b := by
  rcases h with rfl | h
  · rw [if_pos rfl, State.size, State.setSize, word_overlay_self, BitVec.toNat_ofNat, Nat.mod_eq_of_lt hv]
  · simp only [Apart, HDR] at h
    rw [if_neg (by omega), State.size, State.setSize, word_overlay_ne (by omega)]
    rfl

theorem ptr_lt (s : State) (a : ℕ) : s.ptr a < 2 ^ 32 := BitVec.isLt _

end Xv6.Malloc
