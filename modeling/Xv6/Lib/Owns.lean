import Mathlib.Order.BooleanAlgebra.Set
import Mathlib.Tactic.Common

/-!
# Places that own what they hold

A table has places, and a place is empty (it holds 0) or holds a value. `Owns loc S`: the values held are pairwise
different, and they are the members of `S`.
-/

namespace Lib

open Function (update update_of_ne update_self)

variable {κ β : Type*} [Zero β]

/-- **Ownership**: each member of `S` is held in exactly one place, and nothing else is held. -/
structure Owns (loc : κ → β) (S : Set β) : Prop where
  inj : ∀ p q, loc p ≠ 0 → loc p = loc q → p = q
  mem : ∀ b, b ∈ S ↔ b ≠ 0 ∧ ∃ p, loc p = b

namespace Owns

variable {loc : κ → β} {S : Set β} {p q : κ} {b : β}

theorem held (h : Owns loc S) (hp : loc p ≠ 0) : loc p ∈ S := (h.mem _).mpr ⟨hp, p, rfl⟩

theorem existsUnique (h : Owns loc S) (hb : b ∈ S) : ∃! p, loc p = b := by
  obtain ⟨hb0, p, rfl⟩ := (h.mem b).mp hb
  exact ⟨p, rfl, fun q hq => (h.inj p q hb0 hq.symm).symm⟩

variable [DecidableEq κ]

theorem take (h : Owns loc S) (hp : loc p = 0) (hb0 : b ≠ 0) (hb : b ∉ S) :
    Owns (update loc p b) (insert b S) where
  inj r q hr hrq := by
    have hfree : ∀ q, loc q ≠ b := fun q hq => hb ((h.mem b).mpr ⟨hb0, q, hq⟩)
    by_cases hrp : r = p
    · by_cases hqp : q = p
      · rw [hrp, hqp]
      · rw [hrp, update_self, update_of_ne hqp] at hrq
        exact absurd hrq.symm (hfree q)
    · rw [update_of_ne hrp] at hr hrq
      by_cases hqp : q = p
      · rw [hqp, update_self] at hrq
        exact absurd hrq (hfree r)
      · rw [update_of_ne hqp] at hrq
        exact h.inj r q hr hrq
  mem c := by
    rw [Set.mem_insert_iff, h.mem]
    constructor
    · rintro (rfl | ⟨hc0, q, rfl⟩)
      · exact ⟨hb0, p, update_self ..⟩
      · have hqp : q ≠ p := fun hqp => hc0 (by rw [hqp, hp])
        exact ⟨hc0, q, update_of_ne hqp ..⟩
    · rintro ⟨hc0, q, rfl⟩
      by_cases hqp : q = p
      · exact .inl (by rw [hqp, update_self])
      · rw [update_of_ne hqp] at hc0 ⊢
        exact .inr ⟨hc0, q, rfl⟩

end Owns

end Lib
