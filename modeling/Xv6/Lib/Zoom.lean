import Xv6.Lib.Wp

/-!
# Programs on a part of a larger state

A program with the state `σ` runs on a larger state `τ` through two functions: `view` gives the part that it works on
and `put` stores the part back (`zoom`). A program on the larger state `Erases` to one on the part when the two return
the same value, end in states with the same part and stop with the same errors; so what the larger state has besides the
part is only an account of what happens. It may also have errors of its own (`stops`), where the account forbids to go
on.
-/

namespace Lib

variable {σ τ ε α β : Type} {view : τ → σ} {put : τ → σ → τ}

/-- The program `m` on the part `view` of a larger state. -/
def zoom (view : τ → σ) (put : τ → σ → τ) (m : StateT σ (Except ε) α) : StateT τ (Except ε) α := fun t =>
  match m (view t) with
  | .ok (a, s) => .ok (a, put t s)
  | .error e => .error e

theorem wp_zoom {m : StateT σ (Except ε) α} {Q : α → τ → Prop} {E : ε → Prop} {t : τ} :
    wp (zoom view put m) Q E t ↔ wp m (fun a s => Q a (put t s)) E (view t) := by
  unfold wp zoom
  cases m (view t) with
  | error e => rfl
  | ok r => rfl

/-- The program `m` on a part of a larger state, in a language with more errors. -/
def embed {ε' : Type} (view : τ → σ) (put : τ → σ → τ) (inj : ε → ε') (m : StateT σ (Except ε) α) :
    StateT τ (Except ε') α := fun t =>
  match m (view t) with
  | .ok (a, s) => .ok (a, put t s)
  | .error e => .error (inj e)

theorem wp_embed {ε' : Type} {inj : ε → ε'} {m : StateT σ (Except ε) α} {Q : α → τ → Prop} {E : ε' → Prop} {t : τ} :
    wp (embed view put inj m) Q E t ↔ wp m (fun a s => Q a (put t s)) (fun e => E (inj e)) (view t) := by
  unfold wp embed
  cases m (view t) with
  | error e => rfl
  | ok r => rfl

/-- No error. -/
abbrev never : ε → Prop := fun _ => False

/-- **Erasure**: without the rest of the state, `m` is `m'`, except that it may stop for a reason of its own. -/
def Erases (view : τ → σ) (stops : ε → Prop) (m : StateT τ (Except ε) α) (m' : StateT σ (Except ε) α) : Prop :=
  ∀ t, (m t).map (fun r => (r.1, view r.2)) = m' (view t) ∨ ∃ e, stops e ∧ m t = .error e

namespace Erases

variable {stops : ε → Prop} {m : StateT τ (Except ε) α} {m' : StateT σ (Except ε) α} {f : α → StateT τ (Except ε) β}
  {f' : α → StateT σ (Except ε) β}

theorem wp (h : Erases view stops m m') {Q : α → σ → Prop} {E : ε → Prop} {t : τ} (hE : ∀ e, stops e → E e)
    (hw : Lib.wp m' Q E (view t)) : Lib.wp m (fun a u => Q a (view u)) E t := by
  unfold Lib.wp at hw ⊢
  rcases h t with ht | ⟨e, he, hm⟩
  · rw [← ht] at hw
    cases hm : m t with
    | error e =>
      rw [hm] at hw
      exact hw
    | ok r =>
      rw [hm] at hw
      exact hw
  · rw [hm]
    exact hE e he

theorem pure (a : α) : Erases view stops (pure a : StateT τ (Except ε) α) (pure a) := fun _ => .inl rfl

theorem throw (e : ε) : Erases view stops (throw e : StateT τ (Except ε) α) (throw e) := fun _ => .inl rfl

theorem bind (h : Erases view stops m m') (hf : ∀ a, Erases view stops (f a) (f' a)) :
    Erases view stops (m >>= f) (m' >>= f') := by
  intro t
  show Except.map _ (StateT.bind m f t) = StateT.bind m' f' (view t) ∨ ∃ e, stops e ∧ StateT.bind m f t = .error e
  unfold StateT.bind
  rcases h t with ht | ⟨e, he, hm⟩
  · rw [← ht]
    cases hm : m t with
    | error e => exact .inl rfl
    | ok r => exact hf r.1 r.2
  · exact .inr ⟨e, he, by rw [hm]; rfl⟩

theorem get_bind {f : τ → StateT τ (Except ε) β} {f' : σ → StateT σ (Except ε) β}
    (h : ∀ t, Erases view stops (f t) (f' (view t))) : Erases view stops (get >>= f) (get >>= f') :=
  fun t => h t t

theorem zoom (h : ∀ t s, view (put t s) = s) : Erases view stops (zoom view put m') m' := by
  intro t
  unfold Lib.zoom
  cases hm : m' (view t) with
  | error e => exact .inl rfl
  | ok r =>
    refine .inl ?_
    show Except.ok (r.1, view (put t r.2)) = _
    rw [h]

theorem silent {g : PUnit → StateT τ (Except ε) β} {g' : StateT σ (Except ε) β} {change : τ → τ}
    (h : ∀ t, view (change t) = view t) (hg : Erases view stops (g ⟨⟩) g') :
    Erases view stops (modify change >>= g) g' := by
  intro t
  rw [← h t]
  exact hg (change t)

end Erases

end Lib
