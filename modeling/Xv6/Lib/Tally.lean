import Mathlib.Algebra.Order.BigOperators.Group.Finset
import Mathlib.Data.Fintype.BigOperators

/-!
# Sums of which one summand changes, and counting pointers

`sum_change` compares two sums that differ in one summand. `refs slot a` is the number of places of a table that hold
the pointer `a`: what a reference count of `a` has to be equal to.
-/

namespace Lib

variable {ι α : Type*}

theorem sum_change [DecidableEq ι] {S : Finset ι} {f g : ι → ℕ} {i : ι} (hi : i ∈ S ∨ f i = g i)
    (h : ∀ j, j ≠ i → g j = f j) : ∑ j ∈ S, g j + f i = ∑ j ∈ S, f j + g i := by
  by_cases hm : i ∈ S
  · rw [← Finset.add_sum_erase _ g hm, ← Finset.add_sum_erase _ f hm]
    have herase : ∑ j ∈ S.erase i, g j = ∑ j ∈ S.erase i, f j :=
      Finset.sum_congr rfl fun j hj => h j (Finset.ne_of_mem_erase hj)
    omega
  · have heq : f i = g i := hi.resolve_left hm
    have hsum : ∑ j ∈ S, g j = ∑ j ∈ S, f j :=
      Finset.sum_congr rfl fun j hj => h j fun he => hm (he ▸ hj)
    omega

variable [Fintype ι] [DecidableEq α]

/-- The number of places that hold the pointer `a`. -/
def refs (slot : ι → Option α) (a : α) : ℕ := ∑ i, if slot i = some a then 1 else 0

/-- **One place changes.** -/
theorem refs_update [DecidableEq ι] (slot : ι → Option α) (i : ι) (v : Option α) (a : α) :
    refs (Function.update slot i v) a + (if slot i = some a then 1 else 0) =
      refs slot a + if v = some a then 1 else 0 := by
  have h := sum_change (S := Finset.univ) (f := fun j => if slot j = some a then 1 else 0)
    (g := fun j => if Function.update slot i v j = some a then 1 else 0) (.inl (Finset.mem_univ i))
    fun j hj => by rw [Function.update_of_ne hj]
  simpa only [refs, Function.update_self] using h

theorem refs_pos {slot : ι → Option α} {a : α} : 0 < refs slot a ↔ ∃ i, slot i = some a := by
  unfold refs
  simp only [Finset.sum_pos_iff, Finset.mem_univ, true_and]
  refine exists_congr fun i => ?_
  split_ifs with h
  · simp [h]
  · simp [h]

theorem refs_inj {slot : ι → Option α} {a : α} {i j : ι} (h : refs slot a ≤ 1) (hi : slot i = some a)
    (hj : slot j = some a) : i = j := by
  rw [refs, ← Finset.card_filter] at h
  exact Finset.card_le_one.mp h i (by simp [hi]) j (by simp [hj])

end Lib
