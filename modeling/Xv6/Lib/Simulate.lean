import Xv6.Lib.Wp

/-!
# Two programs side by side

`Simulates S R m m'`: started in states that are related by `S`, the programs `m` and `m'` both return, with values that
are related by `R` and again in states that are related by `S`, or both stop with the same error. The rules follow the
text of the two programs.
-/

namespace Lib

variable {σ τ ε α β γ δ : Type} {S : σ → τ → Prop} {R : α → β → Prop} {T : γ → δ → Prop}
  {m : StateT σ (Except ε) α} {m' : StateT τ (Except ε) β} {f : α → StateT σ (Except ε) γ}
  {f' : β → StateT τ (Except ε) δ}

/-- **Simulation** of a program by another one that does the same, on another state. -/
def Simulates (S : σ → τ → Prop) (R : α → β → Prop) (m : StateT σ (Except ε) α) (m' : StateT τ (Except ε) β) : Prop :=
  ∀ s t, S s t → wp m (fun a s' => ∃ b t', m' t = .ok (b, t') ∧ S s' t' ∧ R a b) (fun e => m' t = .error e) s

namespace Simulates

theorem pure {a : α} {b : β} (h : R a b) :
    Simulates S R (Pure.pure a : StateT σ (Except ε) α) (Pure.pure b : StateT τ (Except ε) β) :=
  fun _ t hs => ⟨b, t, rfl, hs, h⟩

theorem throw {e : ε} :
    Simulates S R (MonadExcept.throw e : StateT σ (Except ε) α) (MonadExcept.throw e : StateT τ (Except ε) β) :=
  fun _ _ _ => rfl

theorem bind (h : Simulates S R m m') (hf : ∀ a b, R a b → Simulates S T (f a) (f' b)) :
    Simulates S T (m >>= f) (m' >>= f') := by
  intro s t hst
  rw [wp_bind]
  refine (h s t hst).imp ?_ ?_
  · rintro a s' ⟨b, t', hm', hst', hab⟩
    refine (hf a b hab s' t' hst').imp ?_ ?_
    · rintro c s'' ⟨d, t'', hd, hrest⟩
      exact ⟨d, t'', (bind_of_ok hm').trans hd, hrest⟩
    · exact fun e he => (bind_of_ok hm').trans he
  · intro e he
    show StateT.bind m' f' t = _
    rw [StateT.bind, he]
    rfl

theorem ite {c : Prop} [Decidable c] {n : StateT σ (Except ε) α} {n' : StateT τ (Except ε) β}
    (h : c → Simulates S R m m') (hn : ¬ c → Simulates S R n n') :
    Simulates S R (if c then m else n) (if c then m' else n') := by
  by_cases hc : c
  · rw [if_pos hc, if_pos hc]
    exact h hc
  · rw [if_neg hc, if_neg hc]
    exact hn hc

/-- Both programs make the same test. -/
theorem test {c : StateT σ (Except ε) Bool} {c' : StateT τ (Except ε) Bool} {n : StateT σ (Except ε) α}
    {n' : StateT τ (Except ε) β} (hc : Simulates S Eq c c') (h : Simulates S R m m') (hn : Simulates S R n n') :
    Simulates S R (c >>= fun b => if b = true then m else n) (c' >>= fun b => if b = true then m' else n') := by
  refine hc.bind fun b b' hb => ?_
  subst hb
  exact .ite (fun _ => h) fun _ => hn

end Simulates

end Lib
