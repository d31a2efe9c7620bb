import Xv6.Lib.Transition

/-!
# Taking and giving back

A resource that is busy from the step that takes it on, until a step gives it back, and that is only taken when it is
not busy: on every path there is a step that gives it back between any two that take it (`Path.given_between`).
-/

namespace Lib

variable {σ α : Type*} {step : σ → α → Option σ} {ok : σ → α → Prop} {s t u : σ} {a : α} {tr xs ys zs : List (σ × α)}
  {x y : σ × α}

theorem Path.upto (h : Path step ok s tr t) (htr : tr = xs ++ (u, a) :: ys) :
    Path step ok s xs u ∧ ok u a ∧ ∃ v, step u a = some v := by
  induction h generalizing ys with
  | nil => simp at htr
  | @snoc tr v w b hp hok hstep ih =>
    rcases List.eq_nil_or_concat ys with rfl | ⟨zs, z, rfl⟩
    · obtain ⟨rfl, hb⟩ := List.append_inj' htr rfl
      cases hb
      exact ⟨hp, hok, w, hstep⟩
    · rw [List.concat_eq_append, ← List.cons_append, ← List.append_assoc] at htr
      exact ih (List.append_inj' htr rfl).1

variable {busy : σ → Prop} {take give : σ × α → Prop}

theorem Path.busy_after (h : Path step ok s tr t)
    (htake : ∀ s a s', ok s a → step s a = some s' → take (s, a) → ¬ busy s ∧ busy s')
    (hkeep : ∀ s a s', ok s a → step s a = some s' → busy s → ¬ give (s, a) → busy s')
    (htr : tr = xs ++ x :: ys) (hx : take x) (hno : ∀ z ∈ ys, ¬ give z) : busy t := by
  induction h generalizing ys with
  | nil => simp at htr
  | @snoc tr v w b _ hok hstep ih =>
    rcases List.eq_nil_or_concat ys with rfl | ⟨zs, z, rfl⟩
    · obtain ⟨-, hb⟩ := List.append_inj' htr rfl
      cases hb
      exact (htake v b w hok hstep hx).2
    · rw [List.concat_eq_append, ← List.cons_append, ← List.append_assoc] at htr
      obtain ⟨hpre, hb⟩ := List.append_inj' htr rfl
      cases hb
      have hbusy := ih hpre fun z hz => hno z (by simp [hz])
      exact hkeep v b w hok hstep hbusy (hno _ (by simp))

theorem Path.given_between (h : Path step ok s tr t)
    (htake : ∀ s a s', ok s a → step s a = some s' → take (s, a) → ¬ busy s ∧ busy s')
    (hkeep : ∀ s a s', ok s a → step s a = some s' → busy s → ¬ give (s, a) → busy s')
    (htr : tr = xs ++ x :: (ys ++ y :: zs)) (hx : take x) (hy : take y) : ∃ z ∈ ys, give z := by
  by_contra hno
  simp only [not_exists, not_and] at hno
  obtain ⟨hpath, hok, w, hstep⟩ := h.upto (by simp [htr] : tr = (xs ++ x :: ys) ++ (y.1, y.2) :: zs)
  exact (htake y.1 y.2 w hok hstep hy).1 (hpath.busy_after htake hkeep rfl hx hno)

end Lib
