import Mathlib.Data.List.Basic

/-!
# A map in slots

A list of slots is a finite map when its used slots have different keys: `key x` is the key of a slot, or nothing if the
slot is free. `Distinct key l` says so, `Holds key l c k x` that the slot `k` is the one of the key `c`.
-/

namespace Lib.Slots

variable {α κ : Type*} {key : α → Option κ} {l : List α} {c : κ} {j k : ℕ} {x y : α}

/-- The used slots have different keys. -/
def Distinct (key : α → Option κ) (l : List α) : Prop :=
  ∀ (c : κ) (j k : ℕ) (x y : α), l[j]? = some x → l[k]? = some y → key x = some c → key y = some c → j = k

/-- Slot `k` has the key `c`. -/
def Holds (key : α → Option κ) (l : List α) (c : κ) (k : ℕ) (x : α) : Prop := l[k]? = some x ∧ key x = some c

/-- Write slot `k`; the slot behind the last one is a new one. -/
def put (l : List α) (k : ℕ) (x : α) : List α := if k < l.length then l.set k x else l ++ [x]

theorem getElem?_put (hk : k ≤ l.length) : (put l k x)[j]? = if j = k then some x else l[j]? := by
  unfold put
  split_ifs with hlt hj hj
  · rw [hj, List.getElem?_set_self hlt]
  · rw [List.getElem?_set_ne (Ne.symm hj)]
  · obtain rfl : j = l.length := by omega
    rw [List.getElem?_append_right (Nat.le_refl _), Nat.sub_self]
    rfl
  · by_cases hjl : j < l.length
    · rw [List.getElem?_append_left hjl]
    · rw [List.getElem?_eq_none (by rw [List.length_append, List.length_singleton]; omega),
        List.getElem?_eq_none (by omega)]

theorem Distinct.unique (h : Distinct key l) (hx : Holds key l c j x) (hy : Holds key l c k y) : j = k ∧ x = y := by
  obtain rfl := h c j k x y hx.1 hy.1 hx.2 hy.2
  exact ⟨rfl, Option.some_inj.mp (hx.1.symm.trans hy.1)⟩

theorem holds_put (hk : k ≤ l.length) :
    Holds key (put l k x) c j y ↔ j = k ∧ y = x ∧ key x = some c ∨ j ≠ k ∧ Holds key l c j y := by
  unfold Holds
  rw [getElem?_put hk]
  by_cases hj : j = k
  · rw [if_pos hj, Option.some_inj]
    constructor
    · rintro ⟨rfl, hc⟩
      exact .inl ⟨hj, rfl, hc⟩
    · rintro (⟨-, rfl, hc⟩ | ⟨hne, -⟩)
      · exact ⟨rfl, hc⟩
      · exact absurd hj hne
  · rw [if_neg hj]
    constructor
    · exact fun h => .inr ⟨hj, h⟩
    · rintro (⟨hj', -⟩ | ⟨-, h⟩)
      · exact absurd hj' hj
      · exact h

theorem Distinct.put (h : Distinct key l) (hk : k ≤ l.length)
    (hx : ∀ c j y, key x = some c → Holds key l c j y → j = k) : Distinct key (put l k x) := by
  intro c i j y z hy hz hyc hzc
  rcases (holds_put hk).mp ⟨hy, hyc⟩ with ⟨hi, -, hc⟩ | ⟨hi, hyl⟩
  · rcases (holds_put hk).mp ⟨hz, hzc⟩ with ⟨hj, -⟩ | ⟨hj, hzl⟩
    · rw [hi, hj]
    · exact absurd (hx c j z hc hzl) hj
  · rcases (holds_put hk).mp ⟨hz, hzc⟩ with ⟨hj, -, hc⟩ | ⟨hj, hzl⟩
    · exact absurd (hx c i y hc hyl) hi
    · exact (h.unique hyl hzl).1

end Lib.Slots
