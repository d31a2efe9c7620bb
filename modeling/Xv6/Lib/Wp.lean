import Mathlib.Tactic.Common

/-!
# Weakest preconditions of programs with a state and an error

A program of type `StateT σ (Except ε) α` run from `s` either returns a value and a state or stops with an error. `wp m
Q E s` says that a return meets `Q` and an error meets `E`.
-/

namespace Lib

variable {σ ε α β : Type} {m : StateT σ (Except ε) α} {f : α → StateT σ (Except ε) β} {Q Q' : α → σ → Prop}
  {R : β → σ → Prop} {E E' : ε → Prop} {s t : σ}

/-- **Weakest precondition**: what has to hold of `s` for `m` to end in `Q`, or to stop in `E`. -/
def wp (m : StateT σ (Except ε) α) (Q : α → σ → Prop) (E : ε → Prop) (s : σ) : Prop :=
  match m s with
  | .ok (a, t) => Q a t
  | .error e => E e

theorem wp.ok {a : α} (h : wp m Q E s) (hm : m s = .ok (a, t)) : Q a t := by
  simpa only [wp, hm] using h

theorem wp_of_ok {a : α} (hm : m s = .ok (a, t)) : wp m Q E s ↔ Q a t := by
  simp only [wp, hm]

theorem wp_congr {m' : StateT σ (Except ε) α} (h : m s = m' s) : wp m Q E s ↔ wp m' Q E s := by
  simp only [wp, h]

theorem bind_of_ok {a : α} (hm : m s = .ok (a, t)) : (m >>= f) s = f a t := by
  show StateT.bind m f s = f a t
  rw [StateT.bind, hm]
  rfl

/-- There is nothing to show of no result. -/
theorem forall_mem_none {P : α → Prop} : ∀ a ∈ (none : Option α), P a := nofun

theorem of_toOption {r : Except ε α} {a : α} (h : r.toOption = some a) : r = .ok a := by
  cases r with
  | error e => cases h
  | ok b =>
    cases h
    rfl

/-- What `decide` finds out about a run, as a run. -/
theorem returns_of_toOption (h : ∃ x ∈ (m s).toOption, Q x.1 x.2) : ∃ a t, m s = .ok (a, t) ∧ Q a t := by
  obtain ⟨⟨a, t⟩, hx, hq⟩ := h
  exact ⟨a, t, of_toOption hx, hq⟩

theorem wp.error {e : ε} (h : wp m Q E s) (hm : m s = .error e) : E e := by
  simpa only [wp, hm] using h

/-- A precondition is what holds of the one run that the program has. -/
theorem wp_intro (hok : ∀ a t, m s = .ok (a, t) → Q a t) (herr : ∀ e, m s = .error e → E e) : wp m Q E s := by
  cases hm : m s with
  | error e =>
    simp only [wp, hm]
    exact herr e hm
  | ok r =>
    simp only [wp, hm]
    exact hok r.1 r.2 hm

/-- **Total correctness**: a program that cannot stop returns. -/
theorem wp.returns (h : wp m Q (fun _ => False) s) : ∃ a t, m s = .ok (a, t) ∧ Q a t := by
  cases hm : m s with
  | error e => exact (h.error hm).elim
  | ok r => exact ⟨r.1, r.2, rfl, h.ok hm⟩

/-- The same for a program that may stop, in a run in which it does not. -/
theorem wp.returns_of_ne (h : wp m Q E s) (hne : ∀ e, E e → m s ≠ .error e) : ∃ a t, m s = .ok (a, t) ∧ Q a t := by
  cases hm : m s with
  | error e => exact absurd hm (hne e (h.error hm))
  | ok r => exact ⟨r.1, r.2, rfl, h.ok hm⟩

theorem wp.eq_ok {a : α} (h : wp m (fun b u => b = a ∧ u = t) (fun _ => False) s) : m s = .ok (a, t) := by
  obtain ⟨b, u, hm, rfl, rfl⟩ := h.returns
  exact hm

theorem wp.eq_error {e : ε} (h : wp m (fun _ _ => False) (· = e) s) : m s = .error e := by
  cases hm : m s with
  | error e' => exact congrArg Except.error (h.error hm)
  | ok r => exact (h.ok hm).elim

/-- **Consequence**: weaker conditions on the end. -/
theorem wp.imp (h : wp m Q E s) (hQ : ∀ a t, Q a t → Q' a t) (hE : ∀ e, E e → E' e) : wp m Q' E' s := by
  unfold wp at h ⊢
  split
  · rename_i hm
    rw [hm] at h
    exact hQ _ _ h
  · rename_i hm
    rw [hm] at h
    exact hE _ h

theorem wp.mono (h : wp m Q E s) (hQ : ∀ a t, Q a t → Q' a t) : wp m Q' E s := h.imp hQ fun _ he => he

/-- Two facts about one run. -/
theorem wp.and (h : wp m Q E s) (h' : wp m Q' E' s) : wp m (fun a t => Q a t ∧ Q' a t) (fun e => E e ∧ E' e) s := by
  unfold wp at h h' ⊢
  split
  · rename_i hm
    rw [hm] at h h'
    exact ⟨h, h'⟩
  · rename_i hm
    rw [hm] at h h'
    exact ⟨h, h'⟩

theorem wp.both (h : wp m Q E s) (h' : wp m Q' E' s) : wp m (fun a t => Q a t ∧ Q' a t) E s :=
  (h.and h').imp (fun _ _ hq => hq) fun _ he => he.1

theorem wp_pure {a : α} : wp (pure a : StateT σ (Except ε) α) Q E s ↔ Q a s := Iff.rfl

/-- **Sequence**: the rest of a program starts where the first part ends. -/
theorem wp_bind : wp (m >>= f) R E s ↔ wp m (fun a t => wp (f a) R E t) E s := by
  show wp (StateT.bind m f) R E s ↔ _
  unfold wp StateT.bind
  cases hm : m s with
  | error e => simp only [bind, Except.bind]
  | ok r => simp only [bind, Except.bind]

theorem wp_get {Q : σ → σ → Prop} : wp (get : StateT σ (Except ε) σ) Q E s ↔ Q s s := Iff.rfl

theorem wp_set {Q : PUnit → σ → Prop} : wp (set t : StateT σ (Except ε) PUnit) Q E s ↔ Q ⟨⟩ t := Iff.rfl

theorem wp_modify {g : σ → σ} {Q : PUnit → σ → Prop} :
    wp (modify g : StateT σ (Except ε) PUnit) Q E s ↔ Q ⟨⟩ (g s) := Iff.rfl

theorem wp_throw {e : ε} : wp (throw e : StateT σ (Except ε) α) Q E s ↔ E e := Iff.rfl

/-- **Loops.** What one round keeps of the elements still to come holds when the loop is over. -/
theorem wp_forM {γ : Type} {body : γ → StateT σ (Except ε) PUnit} {I : List γ → σ → Prop}
    (hbody : ∀ x xs s, I (x :: xs) s → wp (body x) (fun _ t => I xs t) E s) :
    ∀ (xs : List γ) (s : σ), I xs s → wp (xs.forM body) (fun _ t => I [] t) E s
  | [], _, h => h
  | x :: xs, s, h => by
    -- the loop over `x :: xs` is by definition the body at `x` and then the loop over `xs`
    show wp (body x >>= fun _ => xs.forM body) _ E s
    rw [wp_bind]
    exact (hbody x xs s h).mono fun _ t ht => wp_forM hbody xs t ht

end Lib
