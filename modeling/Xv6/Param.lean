import Mathlib.Data.BitVec

/-!
# Machine words and the constants of `param.h` and `proc.h`

`int`, `uint` and pointers into user memory are 32-bit words; the comparisons and additions of the modelled code are
those of `BitVec 32`.
-/

namespace Xv6

/-- A 32-bit word: `int` or `uint`. -/
abbrev Word := BitVec 32

abbrev NPROC : ℕ := 64

/-- The number of frames of a pending-signal stack. -/
abbrev MAX_CSTACK_FRAMES : ℕ := 10

/-- The maximum number of blocks that one file-system operation writes. -/
abbrev MAXOPBLOCKS : ℕ := 10

/-- The maximum number of data sectors in the on-disk log. -/
abbrev LOGSIZE : ℕ := MAXOPBLOCKS * 3

/-- The size of the disk block cache. -/
abbrev NBUF : ℕ := MAXOPBLOCKS * 3

/-- The default signal handler, `(void*)-1`. -/
def DEFSIG_HENDLER : Word := 0xFFFFFFFF#32

/-- An entry of the process table: the pointer `&ptable.proc[i]`. -/
abbrev Slot := Fin NPROC

/-- An entry of `cstack.frames`: the pointer `&cstack->frames[i]`. -/
abbrev FrameIx := Fin MAX_CSTACK_FRAMES

instance : NeZero NPROC := ⟨by decide⟩

instance : NeZero MAX_CSTACK_FRAMES := ⟨by decide⟩

instance : NeZero NBUF := ⟨by decide⟩

instance neZeroTwo : NeZero (2 : ℕ) := ⟨by decide⟩

/-- The next entry of an array of length `n`, if the loop over it goes on. -/
def nextIx {n : ℕ} (i : Fin n) : Option (Fin n) := if h : i.val + 1 < n then some ⟨i.val + 1, h⟩ else none

theorem nextIx_eq_some {n : ℕ} {i j : Fin n} : nextIx i = some j ↔ j.val = i.val + 1 := by
  unfold nextIx
  split
  · rename_i h
    rw [Option.some.injEq, Fin.ext_iff]
    exact eq_comm
  · rename_i h
    have := j.isLt
    simp only [reduceCtorEq, false_iff]
    omega

theorem nextIx_eq_none {n : ℕ} {i : Fin n} : nextIx i = none ↔ i.val + 1 = n := by
  unfold nextIx
  have := i.isLt
  split
  · simp only [reduceCtorEq, false_iff]; omega
  · simp only [true_iff]; omega

end Xv6
