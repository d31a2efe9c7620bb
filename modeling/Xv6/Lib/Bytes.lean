import Mathlib.Data.BitVec

/-!
# Memories of bytes

A memory is a function from addresses. `overlay m a n f` is the memory `m` with the `n` cells from `a` on replaced by `f
0, …, f (n - 1)`; a word of two or four bytes is read with its low byte first (`word16`, `word32`), and `byte w i` is
the byte of a word that is stored at distance `i`.
-/

namespace Lib

variable {α : Type*}

/-- The memory `m` with `n` cells from `a` on replaced by those of `f`. -/
def overlay (m : ℕ → α) (a n : ℕ) (f : ℕ → α) : ℕ → α := fun i => if a ≤ i ∧ i < a + n then f (i - a) else m i

section Overlay

variable {m : ℕ → α} {a n i j : ℕ} {f : ℕ → α}

theorem overlay_at (hj : j < n) : overlay m a n f (a + j) = f j := by
  rw [overlay, if_pos (by omega), Nat.add_sub_cancel_left]

theorem overlay_out (h : i < a ∨ a + n ≤ i) : overlay m a n f i = m i := if_neg (by omega)

end Overlay

abbrev Byte := BitVec 8

/-- The byte of a word at distance `i`. -/
def byte {n : ℕ} (w : BitVec n) (i : ℕ) : Byte := w.extractLsb' (8 * i) 8

/-- The word of two bytes at address `a`. -/
def word16 (m : ℕ → Byte) (a : ℕ) : BitVec 16 := m (a + 1) ++ m a

/-- The word of four bytes at address `a`. -/
def word32 (m : ℕ → Byte) (a : ℕ) : BitVec 32 := word16 m (a + 2) ++ word16 m a

section Words

variable {m m' : ℕ → Byte} {a a' : ℕ}

theorem word16_congr (h : ∀ i < 2, m (a + i) = m' (a' + i)) : word16 m a = word16 m' a' := by
  have h0 := h 0 (by omega)
  have h1 := h 1 (by omega)
  rw [Nat.add_zero, Nat.add_zero] at h0
  rw [word16, word16, h0, h1]

theorem word32_congr (h : ∀ i < 4, m (a + i) = m' (a' + i)) : word32 m a = word32 m' a' := by
  have hlow : word16 m a = word16 m' a' := word16_congr fun i hi => h i (by omega)
  have hhigh : word16 m (a + 2) = word16 m' (a' + 2) := word16_congr fun i hi => by
    rw [Nat.add_assoc, Nat.add_assoc]
    exact h (2 + i) (by omega)
  rw [word32, word32, hlow, hhigh]

theorem word16_eq {w : BitVec 16} (h : ∀ i < 2, m (a + i) = byte w i) : word16 m a = w := by
  have h0 := h 0 (by omega)
  have h1 := h 1 (by omega)
  rw [Nat.add_zero] at h0
  rw [word16, h0, h1]
  apply BitVec.eq_of_getLsbD_eq
  intro i hi
  rw [BitVec.getLsbD_append]
  simp only [byte, BitVec.getLsbD_extractLsb']
  by_cases h8 : i < 8
  · simp [h8]
  · have hlt : i - 8 < 8 := by omega
    have hadd : 8 + (i - 8) = i := by omega
    simp [h8, hlt, hadd]

theorem word32_eq {w : BitVec 32} (h : ∀ i < 4, m (a + i) = byte w i) : word32 m a = w := by
  have hlow : word16 m a = w.extractLsb' 0 16 := by
    refine word16_eq fun i hi => ?_
    rw [h i (by omega)]
    apply BitVec.eq_of_getLsbD_eq
    intro j hj
    have : 8 * i + j < 16 := by omega
    simp [byte, hj, this]
  have hhigh : word16 m (a + 2) = w.extractLsb' 16 16 := by
    refine word16_eq fun i hi => ?_
    rw [Nat.add_assoc, h (2 + i) (by omega)]
    apply BitVec.eq_of_getLsbD_eq
    intro j hj
    have h1 : 8 * i + j < 16 := by omega
    have h2 : 8 * (2 + i) + j = 16 + (8 * i + j) := by omega
    simp [byte, hj, h1, h2]
  rw [word32, hlow, hhigh]
  apply BitVec.eq_of_getLsbD_eq
  intro i hi
  rw [BitVec.getLsbD_append]
  simp only [BitVec.getLsbD_extractLsb']
  by_cases h16 : i < 16
  · simp [h16]
  · have hlt : i - 16 < 16 := by omega
    have hadd : 16 + (i - 16) = i := by omega
    simp [h16, hlt, hadd]

end Words

end Lib
