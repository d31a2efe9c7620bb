import Mathlib.Data.List.Nodup

/-!
# Linearizability by linearization points

A history is the list of the calls and returns of a concurrent object, each call with its number. A *linearization* of a
history (`Linearization`) is an order of operations, with their results, such that

- every operation of the order was called, and every operation that returned is in it, with that result;
- an operation that returned before another was called comes before it in the order (`realTime`);
- executed one after the other by the sequential specification, the operations give their results (`legal`).
-/

namespace Lib

variable {S O R : Type*}

/-- Calls and returns, with the number of the operation. -/
inductive HEvent (O R : Type*)
  | call (n : ℕ) (o : O)
  | ret (n : ℕ) (r : R)

/-- Sequential execution of operations with given results. -/
inductive Exec (spec : S → O → R → S → Prop) (s : S) : List (ℕ × O × R) → S → Prop
  | nil : Exec spec s [] s
  | snoc {l : List (ℕ × O × R)} {t u : S} {n : ℕ} {o : O} {r : R} :
      Exec spec s l t → spec t o r u → Exec spec s (l ++ [(n, o, r)]) u

/-- `x` occurs before `y`. -/
def Earlier {α : Type*} (l : List α) (x y : α) : Prop := [x, y].Sublist l

theorem earlier_snoc {α : Type*} {l : List α} {x y z : α} :
    Earlier (l ++ [z]) x y ↔ Earlier l x y ∨ (x ∈ l ∧ y = z) := by
  unfold Earlier
  constructor
  · intro h
    obtain ⟨l₁, l₂, e, h₁, h₂⟩ := List.sublist_append_iff.mp h
    rcases List.eq_nil_or_concat l₂ with rfl | ⟨m, w, rfl⟩
    · left; rw [e, List.append_nil]; exact h₁
    · right
      rw [List.concat_eq_append] at e h₂
      have hm : m = [] := by
        have := h₂.length_le
        simp at this
        exact this
      subst hm
      have hw : w = z := by simpa using h₂
      have e' : [x] ++ [y] = l₁ ++ [w] := by simpa using e
      obtain ⟨e₁, e₂⟩ := List.append_inj' e' rfl
      exact ⟨h₁.subset (by rw [← e₁]; simp), by simpa [hw] using e₂⟩
  · rintro (h | ⟨hx, rfl⟩)
    · exact h.trans (List.sublist_append_left _ _)
    · exact (List.singleton_sublist.mpr hx).append (List.Sublist.refl [y])

theorem Earlier.mem_left {α : Type*} {l : List α} {x y : α} (h : Earlier l x y) : x ∈ l :=
  h.subset (by simp)

/-- `order` is a linearization of the history `h` from the object's state `s₀` to `s`. -/
structure Linearization (spec : S → O → R → S → Prop) (s₀ : S) (h : List (HEvent O R))
    (order : List (ℕ × O × R)) (s : S) : Prop where
  nodup : (order.map (·.1)).Nodup
  called : ∀ e ∈ order, HEvent.call e.1 e.2.1 ∈ h
  returned : ∀ n r, HEvent.ret n r ∈ h → ∃ o, (n, o, r) ∈ order
  realTime : ∀ a b r o, Earlier h (.ret a r) (.call b o) → b ∈ order.map (·.1) → Earlier (order.map (·.1)) a b
  legal : Exec spec s₀ order s

namespace Linearization

variable {spec : S → O → R → S → Prop} {s₀ s s' : S} {h : List (HEvent O R)} {order : List (ℕ × O × R)}
  {n : ℕ} {o : O} {r : R}

theorem empty (spec : S → O → R → S → Prop) (s₀ : S) : Linearization spec s₀ [] [] s₀ where
  nodup := by simp
  called := by simp
  returned := by simp
  realTime := by simp
  legal := .nil

theorem call (hl : Linearization spec s₀ h order s) (hn : ∀ o, HEvent.call n o ∉ h) :
    Linearization spec s₀ (h ++ [.call n o]) order s where
  nodup := hl.nodup
  called := fun e he => List.mem_append_left _ (hl.called e he)
  returned := fun m r hm => hl.returned m r (by simpa using hm)
  realTime := by
    intro a b r' o' hp hb
    rcases earlier_snoc.mp hp with hp | ⟨_, e⟩
    · exact hl.realTime a b r' o' hp hb
    · -- the new call is not in the order yet
      obtain ⟨rfl, -⟩ : b = n ∧ o' = o := by simpa using e
      obtain ⟨x, hx, rfl⟩ := List.mem_map.mp hb
      exact absurd (hl.called x hx) (hn _)
  legal := hl.legal

theorem point (hl : Linearization spec s₀ h order s) (hc : HEvent.call n o ∈ h) (hn : n ∉ order.map (·.1))
    (hs : spec s o r s') : Linearization spec s₀ h (order ++ [(n, o, r)]) s' where
  nodup := by
    rw [List.map_append, List.nodup_append]
    refine ⟨hl.nodup, by simp, ?_⟩
    rintro a ha b hb rfl
    rw [List.map_cons, List.map_nil, List.mem_singleton] at hb
    obtain rfl : a = n := hb
    exact hn ha
  called := by
    intro e he
    rcases List.mem_append.mp he with he | he
    · exact hl.called e he
    · rw [List.mem_singleton.mp he]; exact hc
  returned := by
    intro m r' hm
    obtain ⟨o', ho⟩ := hl.returned m r' hm
    exact ⟨o', List.mem_append_left _ ho⟩
  realTime := by
    intro a b r' o' hp hb
    rw [List.map_append, List.map_cons, List.map_nil, earlier_snoc]
    obtain ⟨oa, ha⟩ := hl.returned a r' hp.mem_left
    by_cases hb' : b ∈ order.map (·.1)
    · exact Or.inl (hl.realTime a b r' o' hp hb')
    · refine Or.inr ⟨List.mem_map.mpr ⟨_, ha, rfl⟩, ?_⟩
      simpa [hb'] using hb
  legal := .snoc hl.legal hs

theorem ret (hl : Linearization spec s₀ h order s) (ho : (n, o, r) ∈ order) :
    Linearization spec s₀ (h ++ [.ret n r]) order s where
  nodup := hl.nodup
  called := fun e he => List.mem_append_left _ (hl.called e he)
  returned := by
    intro m r' hm
    rcases List.mem_append.mp hm with hm | hm
    · exact hl.returned m r' hm
    · obtain ⟨rfl, rfl⟩ : m = n ∧ r' = r := by simpa using hm
      exact ⟨o, ho⟩
  realTime := by
    intro a b r' o' hp hb
    rcases earlier_snoc.mp hp with hp | ⟨_, e⟩
    · exact hl.realTime a b r' o' hp hb
    · simp at e
  legal := hl.legal

end Linearization

end Lib
