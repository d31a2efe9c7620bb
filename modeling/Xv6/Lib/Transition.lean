import Mathlib.Tactic.Common

/-!
# Transition systems with labels, and guarded paths

A system is a partial step function `step : σ → α → Option σ`: in state `s` the label `a` is enabled when `step s a` is
a state. A path records every state it leaves together with the label taken there, so that what a step did can be read
off the path (`Path`).

- `Path.inv`: an invariant of guarded steps holds at the end of every guarded path;
- `Path.inv_trace`: the same for an invariant that also reads the trace;
- `path_of_run`, `exists_path`: evaluating a list of labels gives a path;
- `Finishes`: a function given by its control points, executed to its end without interruption.
-/

namespace Lib

variable {σ α β : Type*}

/-- The guard that every step satisfies. -/
def free (_ : σ) (_ : α) : Prop := True

/-- `Path step ok s tr t`: the guarded steps recorded in `tr` lead from `s` to `t`. -/
inductive Path (step : σ → α → Option σ) (ok : σ → α → Prop) (s : σ) : List (σ × α) → σ → Prop
  | nil : Path step ok s [] s
  | snoc {tr : List (σ × α)} {t u : σ} {a : α} :
      Path step ok s tr t → ok t a → step t a = some u → Path step ok s (tr ++ [(t, a)]) u

variable {step : σ → α → Option σ} {ok ok' : σ → α → Prop} {s t u : σ} {tr tr' : List (σ × α)}

theorem Path.mono (h : Path step ok s tr t) (hok : ∀ s a, ok s a → ok' s a) : Path step ok' s tr t := by
  induction h with
  | nil => exact .nil
  | snoc _ ha hs ih => exact .snoc ih (hok _ _ ha) hs

theorem Path.append (h : Path step ok s tr t) (h' : Path step ok t tr' u) : Path step ok s (tr ++ tr') u := by
  induction h' with
  | nil => simpa using h
  | snoc _ ha hs ih => rw [← List.append_assoc]; exact .snoc ih ha hs

/-- **Invariants.** What holds at the start and is kept by guarded steps holds at the end. -/
theorem Path.inv {I : σ → Prop} (h : Path step ok s tr t) (h0 : I s)
    (hstep : ∀ s a s', I s → ok s a → step s a = some s' → I s') : I t := by
  induction h with
  | nil => exact h0
  | snoc _ ha hs ih => exact hstep _ _ _ ih ha hs

/-- An invariant may be used as a guard. -/
theorem Path.and_inv {I : σ → Prop} (h : Path step ok s tr t) (h0 : I s)
    (hstep : ∀ s a s', I s → ok s a → step s a = some s' → I s') : Path step (fun s a => ok s a ∧ I s) s tr t := by
  induction h with
  | nil => exact .nil
  | snoc hp ha hs ih => exact .snoc ih ⟨ha, hp.inv h0 hstep⟩ hs

theorem Path.inv_trace {I : List (σ × α) → σ → Prop} (h : Path step ok s tr t) (h0 : I [] s)
    (hstep : ∀ tr s a s', I tr s → ok s a → step s a = some s' → I (tr ++ [(s, a)]) s') : I tr t := by
  induction h with
  | nil => exact h0
  | snoc _ ha hs ih => exact hstep _ _ _ _ ih ha hs

theorem Path.mem {a : α} (h : Path step ok s tr t) (hm : (u, a) ∈ tr) : ∃ tr', Path step ok s tr' u := by
  induction h with
  | nil => simp at hm
  | @snoc tr t v b hp _ _ ih =>
    obtain hm | hm := List.mem_append.mp hm
    · exact ih hm
    · obtain ⟨rfl, -⟩ : u = t ∧ a = b := by simpa using hm
      exact ⟨tr, hp⟩

/-! ## Evaluation -/

instance (s : σ) (a : α) : Decidable (free s a) := .isTrue trivial

/-- The steps that the guard lets through. -/
def guarded (step : σ → α → Option σ) (ok : σ → α → Prop) [∀ s a, Decidable (ok s a)] (s : σ) (a : α) : Option σ :=
  if ok s a then step s a else none

/-- Take the labels one after the other. -/
def run (step : σ → α → Option σ) : σ → List α → Option σ
  | s, [] => some s
  | s, a :: as => (step s a).bind fun t => run step t as

/-- The states that `run` leaves, with the labels taken there. -/
def trace (step : σ → α → Option σ) : σ → List α → List (σ × α)
  | _, [] => []
  | s, a :: as =>
    match step s a with
    | some t => (s, a) :: trace step t as
    | none => []

theorem path_of_run [∀ s a, Decidable (ok s a)] {as : List α} (h : run (guarded step ok) s as = some t) :
    Path step ok s (trace (guarded step ok) s as) t := by
  induction as generalizing s with
  | nil =>
    simp only [run, Option.some.injEq] at h
    exact h ▸ .nil
  | cons a as ih =>
    simp only [run, Option.bind_eq_some_iff] at h
    obtain ⟨v, hv, h⟩ := h
    have hsplit : ok s a ∧ step s a = some v := by simpa [guarded] using hv
    have hone : Path step ok s [(s, a)] v := .snoc .nil hsplit.1 hsplit.2
    simp only [trace, hv]
    exact hone.append (ih h)

theorem exists_path (step : σ → α → Option σ) (ok : σ → α → Prop) [∀ s a, Decidable (ok s a)] (s : σ) (as : List α)
    (P : σ → Prop) [DecidablePred P]
    (h : (run (guarded step ok) s as).any (fun t => decide (P t)) = true) :
    ∃ t, Path step ok s (trace (guarded step ok) s as) t ∧ P t := by
  cases hr : run (guarded step ok) s as with
  | none => simp [hr] at h
  | some t => exact ⟨t, path_of_run hr, by simpa [hr] using h⟩

/-! ## Uninterrupted execution -/

/-- `Finishes step s p s' r`: executed alone from the control point `p` in the state `s`, a function given by its
control points returns `r` and leaves the state `s'`. -/
inductive Finishes {π ρ : Type*} (step : σ → π → σ × (π ⊕ ρ)) : σ → π → σ → ρ → Prop
  | ret {s s' : σ} {p : π} {r : ρ} : step s p = (s', .inr r) → Finishes step s p s' r
  | next {s s' s'' : σ} {p p' : π} {r : ρ} :
      step s p = (s', .inl p') → Finishes step s' p' s'' r → Finishes step s p s'' r

end Lib
