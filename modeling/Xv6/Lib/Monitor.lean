import Xv6.Lib.Transition

/-!
# Objects behind a lock

Threads work on an object that has one lock. A control point `π` of a thread says whether the thread holds the lock
there (`locks`); a step from a control point without the lock to one with it is an `acquire`, which waits until the lock
is free, and a step the other way is a `release`.
-/

namespace Lib.Monitor

open Function (update update_of_ne update_self)

variable {P σ π α : Type*}

/-- An object, its lock and the threads. -/
structure State (P σ π : Type*) where
  obj : σ
  lock : Option P
  thread : P → π

variable [DecidableEq P] (act : σ → π → α → Option (σ × π)) (locks : π → Bool)

/-- One step of the thread `p`, with `acquire` and `release`. -/
def step (s : State P σ π) (l : P × α) : Option (State P σ π) :=
  (act s.obj (s.thread l.1) l.2).bind fun x =>
    if locks (s.thread l.1) = locks x.2 then some ⟨x.1, s.lock, update s.thread l.1 x.2⟩
    else if locks x.2 = true then
      if s.lock = none then some ⟨x.1, some l.1, update s.thread l.1 x.2⟩ else none
    else some ⟨x.1, none, update s.thread l.1 x.2⟩

/-- The lock is held by the thread that is at a control point with the lock. -/
def Locked (s : State P σ π) : Prop := ∀ p, locks (s.thread p) = true ↔ s.lock = some p

variable {act locks} {s s' : State P σ π} {p q : P} {a : α}

theorem step_inv (hl : Locked locks s) (h : step act locks s (p, a) = some s') :
    ∃ o t, act s.obj (s.thread p) a = some (o, t) ∧ s'.obj = o ∧ s'.thread = update s.thread p t ∧
      Locked locks s' ∧ ∀ q, q ≠ p → locks (s.thread q) = true → locks (s.thread p) = false ∧ locks t = false := by
  simp only [step, Option.bind_eq_some_iff] at h
  obtain ⟨⟨o, t⟩, hact, h⟩ := h
  refine ⟨o, t, hact, ?_⟩
  have hother : ∀ q, q ≠ p → locks (s.thread q) = true → locks (s.thread p) = false := by
    intro q hq hlq
    have hlock := (hl q).mp hlq
    by_contra hp
    have := (hl p).mp (by simpa using hp)
    rw [hlock, Option.some.injEq] at this
    exact hq this
  have hself : ∀ (lk : Option P), (lk = some p ↔ locks t = true) →
      (∀ q, q ≠ p → (locks (s.thread q) = true ↔ lk = some q)) →
      Locked locks ⟨o, lk, update s.thread p t⟩ := by
    intro lk hp hne q
    obtain rfl | hq := eq_or_ne q p
    · simpa using hp.symm
    · simpa [update_of_ne hq] using hne q hq
  simp only at h
  split at h
  · next heq =>
    obtain rfl := by simpa using h
    refine ⟨rfl, rfl, hself _ ?_ fun q _ => hl q, fun q hq hlq => ?_⟩
    · rw [← heq]
      exact (hl p).symm
    · exact ⟨hother q hq hlq, heq ▸ hother q hq hlq⟩
  · next hne =>
    split at h
    · next ht =>
      split at h
      · next hfree =>
        obtain rfl := by simpa using h
        have hnone : ∀ q, locks (s.thread q) = false := by
          intro q
          by_contra hq
          have := (hl q).mp (by simpa using hq)
          simp [hfree] at this
        refine ⟨rfl, rfl, hself _ (by simp [ht]) fun q hq => ?_, fun q _ hlq => ?_⟩
        · simp [hnone q, hq.symm]
        · simp [hnone q] at hlq
      · simp at h
    · next ht =>
      obtain rfl := by simpa using h
      have hp : locks (s.thread p) = true := by
        cases hlp : locks (s.thread p) <;> simp_all
      refine ⟨rfl, rfl, hself _ (by simpa using ht) fun q hq => ?_, fun q hq hlq => ?_⟩
      · have hlq : locks (s.thread q) = false := by
          by_contra hlq
          have := hother q hq (by simpa using hlq)
          simp [hp] at this
        simp [hlq]
      · have := hother q hq hlq
        simp [hp] at this

/-! ## Invariants -/

/-- The invariant of the object, the assertions of the threads and what holds between two of them. -/
structure Sound (locks : π → Bool) (I : σ → Prop) (A : σ → π → Prop) (D : π → π → Prop) (s : State P σ π) : Prop where
  locked : Locked locks s
  obj : I s.obj
  thread : ∀ p, A s.obj (s.thread p)
  apart : ∀ {p q}, p ≠ q → D (s.thread p) (s.thread q)

variable {I : σ → Prop} {A : σ → π → Prop} {D : π → π → Prop} {ok : State P σ π → P × α → Prop}

theorem step_lock (h : step act locks s (p, a) = some s') :
    ∃ t, act s.obj (s.thread p) a = some (s'.obj, t) ∧ (locks (s.thread p) = locks t → s'.lock = s.lock) ∧
      (locks (s.thread p) = false → locks t = true → s.lock = none) := by
  simp only [step, Option.bind_eq_some_iff] at h
  obtain ⟨⟨o, t⟩, hact, h⟩ := h
  simp only at h
  split_ifs at h with heq ht hfree
  · obtain rfl := by simpa using h
    exact ⟨t, hact, fun _ => rfl, fun hp htrue => by simp [hp, htrue] at heq⟩
  · obtain rfl := by simpa using h
    exact ⟨t, hact, fun he => absurd he heq, fun _ _ => hfree⟩
  · obtain rfl := by simpa using h
    exact ⟨t, hact, fun he => absurd he heq, fun _ htrue => absurd htrue ht⟩

/-- `Sound`, with an invariant `R` of the object that holds whenever the lock is free. -/
structure Guarded (locks : π → Bool) (I R : σ → Prop) (A : σ → π → Prop) (D : π → π → Prop) (s : State P σ π) : Prop
    extends Sound locks I A D s where
  free : s.lock = none → R s.obj

variable {R : σ → Prop}

/-- **The rule for objects behind a lock.** A thread that takes the lock finds the object as `R` says, and has made it
so again when it gives the lock back. -/
theorem guarded_of_path {s₀ : State P σ π} {tr : List (State P σ π × P × α)}
    (h : Path (step act locks) ok s₀ tr s) (h₀ : Guarded locks I R A D s₀) (hsymm : ∀ {t u}, D t u → D u t)
    (own : ∀ {s : State P σ π} {p a o t}, Sound locks I A D s → ok s (p, a) →
      act s.obj (s.thread p) a = some (o, t) → (locks (s.thread p) = false → locks t = true → R s.obj) →
      I o ∧ A o t ∧ (locks t = false → (locks (s.thread p) = false → R s.obj) → R o))
    (frame : ∀ {s : State P σ π} {p a o t q}, Sound locks I A D s → ok s (p, a) →
      act s.obj (s.thread p) a = some (o, t) → (locks (s.thread p) = false → locks t = true → R s.obj) → q ≠ p →
      (locks (s.thread q) = true → locks (s.thread p) = false ∧ locks t = false) →
      A o (s.thread q) ∧ D t (s.thread q)) : Guarded locks I R A D s := by
  refine h.inv h₀ ?_
  rintro s ⟨p, a⟩ ⟨o', lk, th⟩ hs hok hst
  obtain ⟨t', hact', hsame, htake⟩ := step_lock hst
  obtain ⟨o, t, hact, rfl, rfl, hl, hex⟩ := step_inv hs.locked hst
  obtain rfl : t' = t := by simpa [hact'] using hact
  have hfree : locks (s.thread p) = false → locks t' = true → R s.obj := fun hp ht => hs.free (htake hp ht)
  obtain ⟨hI, hA, hR⟩ := own hs.toSound hok hact hfree
  have hfr : ∀ q, q ≠ p → A o' (s.thread q) ∧ D t' (s.thread q) := fun q hq =>
    frame hs.toSound hok hact hfree hq (hex q hq)
  refine ⟨⟨hl, hI, fun q => ?_, fun {q r} hqr => ?_⟩, fun hnone => ?_⟩
  · obtain rfl | hq := eq_or_ne q p
    · simpa using hA
    · simpa [update_of_ne hq] using (hfr q hq).1
  · simp only
    obtain rfl | hq := eq_or_ne q p
    · rw [update_self, update_of_ne hqr.symm]
      exact (hfr r hqr.symm).2
    · obtain rfl | hr := eq_or_ne r p
      · rw [update_self, update_of_ne hq]
        exact hsymm (hfr q hq).2
      · rw [update_of_ne hq, update_of_ne hr]
        exact hs.apart hqr
  · have ht : locks t' = false := by
      have := (hl p).not.mpr (by rw [show lk = none from hnone]; simp)
      simpa using this
    exact hR ht fun hp => hs.free ((hsame (hp.trans ht.symm)).symm.trans hnone)

theorem sound_of_path {s₀ : State P σ π} {tr : List (State P σ π × P × α)}
    (h : Path (step act locks) ok s₀ tr s) (h₀ : Sound locks I A D s₀) (hsymm : ∀ {t u}, D t u → D u t)
    (own : ∀ {s : State P σ π} {p a o t}, Sound locks I A D s → ok s (p, a) →
      act s.obj (s.thread p) a = some (o, t) → I o ∧ A o t)
    (frame : ∀ {s : State P σ π} {p a o t q}, Sound locks I A D s → ok s (p, a) →
      act s.obj (s.thread p) a = some (o, t) → q ≠ p →
      (locks (s.thread q) = true → locks (s.thread p) = false ∧ locks t = false) →
      A o (s.thread q) ∧ D t (s.thread q)) : Sound locks I A D s := by
  have h₀ : Guarded locks I (fun _ => True) A D s₀ := ⟨h₀, fun _ => trivial⟩
  refine (guarded_of_path h h₀ hsymm (fun hs hok hact _ => ?_) fun hs hok hact _ hq hx => frame hs hok hact hq hx).toSound
  obtain ⟨hI, hA⟩ := own hs hok hact
  exact ⟨hI, hA, fun _ _ => trivial⟩

end Lib.Monitor
