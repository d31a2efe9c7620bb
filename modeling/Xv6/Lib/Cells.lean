import Xv6.Lib.Bytes

/-!
# Lists in a memory

`Cells m a l`: the cells of the memory `m` from `a` on hold the elements of `l`.
-/

namespace Lib

variable {α : Type*} {m m' : ℕ → α} {a : ℕ} {l l' : List α}

/-- The cells from `a` on hold `l`. -/
def Cells (m : ℕ → α) : ℕ → List α → Prop
  | _, [] => True
  | a, x :: l => m a = x ∧ Cells m (a + 1) l

theorem cells_append : Cells m a (l ++ l') ↔ Cells m a l ∧ Cells m (a + l.length) l' := by
  induction l generalizing a with
  | nil => exact (true_and _).symm.to_iff
  | cons x l ih =>
    have hadd : a + 1 + l.length = a + (x :: l).length := by rw [List.length_cons]; omega
    rw [List.cons_append, Cells, Cells, ih, hadd, and_assoc]

theorem Cells.congr (h : Cells m a l) (hm : ∀ i, a ≤ i → i < a + l.length → m' i = m i) : Cells m' a l := by
  induction l generalizing a with
  | nil => trivial
  | cons x l ih =>
    rw [List.length_cons] at hm
    refine ⟨(hm a le_rfl (by omega)).trans h.1, ih h.2 fun i hi hlt => hm i (by omega) (by omega)⟩

theorem Cells.get (h : Cells m a l) {i : ℕ} (hi : i < l.length) : m (a + i) = l[i] := by
  induction l generalizing a i with
  | nil => exact absurd hi (Nat.not_lt_zero _)
  | cons x l ih =>
    cases i with
    | zero => exact h.1
    | succ i =>
      have hadd : a + (i + 1) = a + 1 + i := by omega
      rw [hadd]
      exact ih h.2 (Nat.lt_of_succ_lt_succ hi)

theorem cells_of_get (h : ∀ i (hi : i < l.length), m (a + i) = l[i]) : Cells m a l := by
  induction l generalizing a with
  | nil => trivial
  | cons x l ih =>
    refine ⟨h 0 (Nat.zero_lt_succ _), ih fun i hi => ?_⟩
    have hadd : a + 1 + i = a + (i + 1) := by omega
    rw [hadd]
    exact h (i + 1) (Nat.succ_lt_succ hi)

end Lib
