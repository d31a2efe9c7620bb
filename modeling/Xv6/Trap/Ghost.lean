import Xv6.Trap.Machine

/-!
# Invariants of processes and of the records kept about them

A `Ghost` keeps a record of each process along a run: it changes when the process moves, and `fork` writes that of the
new process. What every step of one process keeps, and `fork` establishes stage by stage for the process it makes
(`Ghost.Kept`), holds of every process after every run (`Ghost.invariant`).
-/

namespace Xv6.Trap

open Lib

/-! ## `fork` and the new process -/

@[simp] theorem Task.fix_ctl_ne_fork (t : Task) (pc : FixTf) (c : Slot) (f : ForkAt) : (t.fix pc).ctl ≠ .fork c f := by
  unfold Task.fix
  split <;> simp

theorem ExecAt.step_ctl_ne_fork (t : Task) (img : Image) (pc : ExecAt) (c : Slot) (f : ForkAt) :
    (pc.step t img).ctl ≠ .fork c f := by
  cases pc <;> simp [ExecAt.step]

theorem dispatch_ne_fork (n : Word) (c : Slot) (f : ForkAt) : dispatch n ≠ .fork c f := by
  unfold dispatch
  split <;> simp

theorem Moves.fork_before {t t' : Task} {a : Act} {c : Slot} {f : ForkAt} (h : Moves t a t')
    (hf : t'.ctl = .fork c f) : t.ctl = .fork c f := by
  cases h with
  | run hc => exact hf
  | trap hc => exact absurd hf (dispatch_ne_fork _ c f)
  | intr hl => rwa [fixTf_ctl] at hf
  | pend => exact hf
  | poke hc => exact hf
  | grow hc => exact hf
  | commit hc => exact absurd hf (ExecAt.step_ctl_ne_fork _ _ _ c f)
  | fix hc => exact absurd hf (Task.fix_ctl_ne_fork _ _ c f)
  | sigsetFail | sigset | sigret | restored | exec | ret | done | exit => simp at hf

theorem Moves.live_before {t t' : Task} {a : Act} (hm : Moves t a t') (hl : t'.ctl.live = true) :
    t.ctl.live = true := by
  cases hm with
  | pend => exact hl
  | intr h => exact h
  | exit h => exact h
  | run h | trap h | poke h | grow h | sigsetFail h | sigset h | sigret h | restored h | exec h | commit h | ret h
    | done h | fix h => simp [h, Ctl.live]

theorem Moves.of_embryo {t t' : Task} {a : Act} (h : Moves t a t') (hc : t.ctl = .embryo) :
    ∃ cs, a = .pend cs ∧ t' = { t with pending := cs } := by
  cases h with
  | pend => exact ⟨_, rfl, rfl⟩
  | intr hl => simp [hc, Ctl.live] at hl
  | exit hl => simp [hc, Ctl.live] at hl
  | run h | trap h | poke h | grow h | sigsetFail h | sigset h | sigret h | restored h | exec h | commit h | ret h
    | done h | fix h => simp [hc] at h

/-- The process that `fork` is making is its own. -/
structure Born (s : State) : Prop where
  embryo : ∀ q c f, (s q).ctl = .fork c f → (s c).ctl = .embryo
  unique : ∀ q q' c f f', (s q).ctl = .fork c f → (s q').ctl = .fork c f' → q = q'

theorem Born.ne {s : State} (hb : Born s) {q c : Slot} {f : ForkAt} (h : (s q).ctl = .fork c f) : q ≠ c := by
  rintro rfl
  simpa [h] using hb.embryo q q f h

theorem boot_ne_fork (q c : Slot) (f : ForkAt) : (boot q).ctl ≠ .fork c f := by
  simp only [boot]
  split <;> simp

theorem born_boot : Born boot :=
  ⟨fun q c f hq => absurd hq (boot_ne_fork q c f), fun q _ c f _ hq _ => absurd hq (boot_ne_fork q c f)⟩

theorem ForkAt.after_eq_fork {f f' : ForkAt} {c c' : Slot} {pid : Word} (h : f.after c pid = .fork c' f') :
    c' = c ∧ f.next = some f' := by
  unfold ForkAt.after at h
  split at h
  · rename_i g hg
    obtain ⟨rfl, rfl⟩ : c = c' ∧ g = f' := by simpa using h
    exact ⟨rfl, hg⟩
  · simp at h

theorem ForkAt.after_cases (f : ForkAt) (c : Slot) (pid : Word) :
    (∃ c' f', f.after c pid = .fork c' f') ∨ ∃ v, f.after c pid = .done v := by
  unfold ForkAt.after
  split
  · exact .inl ⟨_, _, rfl⟩
  · exact .inr ⟨_, rfl⟩

theorem ForkAt.step_ctl {f : ForkAt} {t np : Task} (h : f ≠ .run) : (f.step t np).ctl = np.ctl := by
  cases f <;> first | rfl | exact absurd rfl h

theorem Born.update {s s' : State} {q c : Slot} (hb : Born s) (hother : ∀ r, r ≠ q → r ≠ c → s' r = s r)
    (hfree : ∀ r f, r ≠ q → (s r).ctl ≠ .fork c f) (hq : (s q).ctl ≠ .embryo) (hc : ∀ c' f, (s' c).ctl ≠ .fork c' f)
    (hq' : ∀ c' f, (s' q).ctl = .fork c' f → c' = c ∧ (s' c).ctl = .embryo) : Born s' := by
  have before : ∀ r c' f, r ≠ q → (s' r).ctl = .fork c' f → (s r).ctl = .fork c' f ∧ c' ≠ c := by
    intro r c' f hr h
    have hrc : r ≠ c := fun e => hc c' f (e ▸ h)
    rw [hother r hr hrc] at h
    exact ⟨h, fun e => hfree r f hr (e ▸ h)⟩
  constructor
  · intro r c' f h
    by_cases hr : r = q
    · subst hr
      obtain ⟨rfl, he⟩ := hq' c' f h
      exact he
    · obtain ⟨h, hne⟩ := before r c' f hr h
      have he := hb.embryo r c' f h
      rw [hother c' (fun e => hq (e ▸ he)) hne]
      exact he
  · intro r r' c' f f' h h'
    by_cases hr : r = q
    · by_cases hr' : r' = q
      · exact hr.trans hr'.symm
      · subst hr
        exact absurd (hq' c' f h).1 (before r' c' f' hr' h').2
    · obtain ⟨h, hne⟩ := before r c' f hr h
      by_cases hr' : r' = q
      · subst hr'
        exact absurd (hq' c' f' h').1 hne
      · exact hb.unique r r' c' f f' h (before r' c' f' hr' h').1

theorem update₂_other {s : State} {q c r : Slot} {t t' : Task} (hq : r ≠ q) (hc : r ≠ c) :
    Function.update (Function.update s c t) q t' r = s r := by
  rw [Function.update_of_ne hq, Function.update_of_ne hc]

theorem update₂_child {s : State} {q c : Slot} {t t' : Task} (h : q ≠ c) :
    Function.update (Function.update s c t) q t' c = t := by
  rw [Function.update_of_ne h.symm, Function.update_self]

theorem forall_update {P : Slot → Task → Prop} {s : State} {q : Slot} {t : Task} (h : ∀ r, r ≠ q → P r (s r))
    (hq : P q t) : ∀ r, P r (Function.update s q t r) := by
  intro r
  by_cases e : r = q
  · subst e
    rwa [Function.update_self]
  · rw [Function.update_of_ne e]
    exact h r e

theorem forall_update₂ {P : Slot → Task → Prop} {s : State} {q c : Slot} {t t' : Task}
    (h : ∀ r, r ≠ q → r ≠ c → P r (s r)) (hc : P c t) (hq : P q t') :
    ∀ r, P r (Function.update (Function.update s c t) q t' r) := by
  refine forall_update (fun r hr => ?_) hq
  by_cases e : r = c
  · subst e
    rwa [Function.update_self]
  · rw [Function.update_of_ne e]
    exact h r hr e

theorem Born.step {s s' : State} {l : Label} (hb : Born s) (h : Steps s l s') : Born s' := by
  cases h with
  | @own q a t hm =>
    -- a process enters `fork` in the step `alloc` only, and an embryo stays one
    have before : ∀ r c f, (Function.update s q t r).ctl = .fork c f → (s r).ctl = .fork c f := by
      intro r c f hr
      by_cases e : r = q
      · subst e
        rw [Function.update_self] at hr
        exact hm.fork_before hr
      · rwa [Function.update_of_ne e] at hr
    refine ⟨fun r c f hr => ?_, fun r r' c f f' hr hr' => hb.unique r r' c f f' (before _ _ _ hr) (before _ _ _ hr')⟩
    have hc := hb.embryo r c f (before r c f hr)
    by_cases e : c = q
    · subst e
      obtain ⟨cs, rfl, rfl⟩ := hm.of_embryo hc
      rw [Function.update_self]
      exact hc
    · rwa [Function.update_of_ne e]
  | @alloc q c hq hc =>
    have hne : q ≠ c := fun e => by simp [← e, hq] at hc
    refine hb.update (q := q) (c := c) (fun r => update₂_other) (fun r f _ hr => ?_) (by simp [hq]) ?_ ?_
    · have := hb.embryo r c f hr
      simp [hc] at this
    · intro c' f
      rw [update₂_child hne]
      simp [Task.alloc]
    · intro c' f hf
      rw [Function.update_self] at hf
      rw [update₂_child hne]
      obtain ⟨rfl, -⟩ : c = c' ∧ _ := by simpa using hf
      exact ⟨rfl, rfl⟩
  | @copy q c f₀ pid hq =>
    have hne := hb.ne hq
    have hc := hb.embryo q c f₀ hq
    refine hb.update (q := q) (c := c) (fun r => update₂_other)
      (fun r f hr h => hr (hb.unique r q c f f₀ h hq)) (by simp [hq]) ?_ ?_
    · intro c' f
      rw [update₂_child hne]
      cases f₀ <;> simp [ForkAt.step, hc]
    · intro c' f hf
      rw [Function.update_self] at hf
      rw [update₂_child hne]
      obtain ⟨rfl, hn⟩ := ForkAt.after_eq_fork hf
      refine ⟨rfl, ?_⟩
      rw [ForkAt.step_ctl fun e => by simp [e, ForkAt.next] at hn]
      exact hc
  | @nomem q c hq =>
    have hne := hb.ne hq
    refine hb.update (q := q) (c := c) (fun r => update₂_other)
      (fun r f hr h => hr (hb.unique r q c f .vm h hq)) (by simp [hq]) ?_ ?_
    · intro c' f
      rw [update₂_child hne]
      simp
    · intro c' f hf
      rw [Function.update_self] at hf
      simp at hf

/-! ## Records -/

variable {γ : Type}

/-- A record of each process: how its own steps change it, and what a statement of `fork` makes of the records of the
parent and of the new process. -/
structure Ghost (γ : Type) where
  own : Task → γ → Act → γ
  copy : ForkAt → γ → γ → γ

/-- The process that `fork` is making, and the stage. -/
def Ctl.making : Ctl → Option (Slot × ForkAt)
  | .fork c f => some (c, f)
  | _ => none

/-- The records after a step. -/
def Ghost.next (G : Ghost γ) (g : Slot → γ) (s : State) : Label → Slot → γ
  | .own q a => Function.update g q (G.own (s q) (g q) a)
  | .copy q _ =>
    match (s q).ctl.making with
    | some (c, f) => Function.update g c (G.copy f (g q) (g c))
    | none => g
  | .alloc _ _ | .nomem _ => g

/-- The records after a run, all equal to `g₀` at its start. -/
def Ghost.after (G : Ghost γ) (g₀ : γ) (tr : List (State × Label)) : Slot → γ :=
  tr.foldl (fun g e => G.next g e.1 e.2) fun _ => g₀

theorem Ghost.after_snoc (G : Ghost γ) (g₀ : γ) (tr : List (State × Label)) (s : State) (l : Label) :
    G.after g₀ (tr ++ [(s, l)]) = G.next (G.after g₀ tr) s l := by
  simp [Ghost.after]

/-- What is to be shown of a property `P` of a process and its record, and of a property `K` of a process that `fork` is
making: each step keeps them. -/
structure Ghost.Kept (G : Ghost γ) (ok : State → Label → Prop) (P : γ → Task → Prop) (K : ForkAt → γ → Task → Prop) :
    Prop where
  own : ∀ s q a t g, ok s (.own q a) → Moves (s q) a t → P g (s q) → P (G.own (s q) g a) t
  pend : ∀ f g t cs, K f g t → K f (G.own t g (.pend cs)) { t with pending := cs }
  alloc : ∀ g t, t.ctl = .unused → P g t → P g t.alloc ∧ K .vm g t.alloc
  enter : ∀ g t c, t.ctl = .call SYS_fork → P g t → P g { t with ctl := .fork c .vm }
  /-- A statement of `fork` in the parent. -/
  parent : ∀ g t c f pid, t.ctl = .fork c f → P g t → P g { t with ctl := f.after c pid }
  /-- A statement of `fork` in the new process. -/
  child : ∀ s q pid g np g' c f, ok s (.copy q pid) → (s q).ctl = .fork c f → np.ctl = .embryo → P g (s q) →
    P g' np → K f g' np →
    P (G.copy f g g') (f.step (s q) np) ∧ ∀ f', f.next = some f' → K f' (G.copy f g g') (f.step (s q) np)
  fail : ∀ g t c, t.ctl = .fork c .vm → P g t → P g { t with ctl := .done (-1) }
  free : ∀ g t, t.ctl = .embryo → P g t → P g { t with ctl := .unused }

structure Ghost.Inv (P : γ → Task → Prop) (K : ForkAt → γ → Task → Prop) (g : Slot → γ) (s : State) : Prop where
  born : Born s
  task : ∀ q, P (g q) (s q)
  child : ∀ q c f, (s q).ctl = .fork c f → K f (g c) (s c)

variable {G : Ghost γ} {ok : State → Label → Prop} {P : γ → Task → Prop} {K : ForkAt → γ → Task → Prop}
  {g : Slot → γ} {s s' : State} {l : Label}

theorem Ghost.Inv.own {q : Slot} {a : Act} {t : Task} (hk : G.Kept ok P K) (hi : Ghost.Inv P K g s)
    (hok : ok s (.own q a)) (hm : Moves (s q) a t) :
    Ghost.Inv P K (G.next g s (.own q a)) (Function.update s q t) := by
  refine ⟨hi.born.step (.own hm), fun r => ?_, fun r c f hr => ?_⟩
  · by_cases e : r = q
    · subst e
      simp only [Ghost.next, Function.update_self]
      exact hk.own s r a t (g r) hok hm (hi.task r)
    · simp only [Ghost.next, Function.update_of_ne e]
      exact hi.task r
  · have hr' : (s r).ctl = .fork c f := by
      by_cases e : r = q
      · subst e
        rw [Function.update_self] at hr
        exact hm.fork_before hr
      · rwa [Function.update_of_ne e] at hr
    by_cases e : c = q
    · subst e
      obtain ⟨cs, rfl, rfl⟩ := hm.of_embryo (hi.born.embryo r c f hr')
      simp only [Ghost.next, Function.update_self]
      exact hk.pend f (g c) (s c) cs (hi.child r c f hr')
    · simp only [Ghost.next, Function.update_of_ne e]
      exact hi.child r c f hr'

theorem Ghost.Inv.alloc {q c : Slot} (hk : G.Kept ok P K) (hi : Ghost.Inv P K g s) (hq : (s q).ctl = .call SYS_fork)
    (hc : (s c).ctl = .unused) :
    Ghost.Inv P K g (Function.update (Function.update s c (s c).alloc) q { s q with ctl := .fork c .vm }) := by
  have hne : q ≠ c := fun e => by simp [← e, hq] at hc
  obtain ⟨hp, hkc⟩ := hk.alloc (g c) (s c) hc (hi.task c)
  refine ⟨hi.born.step (.alloc hq hc), ?_, fun r c' f hr => ?_⟩
  · exact forall_update₂ (P := fun r => P (g r)) (fun r _ _ => hi.task r) hp (hk.enter _ _ c hq (hi.task q))
  · by_cases e : r = q
    · subst e
      rw [Function.update_self] at hr
      obtain ⟨rfl, rfl⟩ : c = c' ∧ ForkAt.vm = f := by simpa using hr
      rwa [update₂_child hne]
    · have hrc : r ≠ c := fun e' => by subst e'; rw [update₂_child hne] at hr; simp [Task.alloc] at hr
      rw [update₂_other e hrc] at hr
      have he := hi.born.embryo r c' f hr
      have hcq : c' ≠ q := fun e' => by simp [e', hq] at he
      have hcc : c' ≠ c := fun e' => by simp [e', hc] at he
      rw [update₂_other hcq hcc]
      exact hi.child r c' f hr

theorem Ghost.Inv.copy {q c : Slot} {f : ForkAt} {pid : Word} (hk : G.Kept ok P K) (hi : Ghost.Inv P K g s)
    (hok : ok s (.copy q pid)) (hq : (s q).ctl = .fork c f) :
    Ghost.Inv P K (G.next g s (.copy q pid))
      (Function.update (Function.update s c (f.step (s q) (s c))) q { s q with ctl := f.after c pid }) := by
  have hne := hi.born.ne hq
  have hemb := hi.born.embryo q c f hq
  have hg : G.next g s (.copy q pid) = Function.update g c (G.copy f (g q) (g c)) := by
    simp [Ghost.next, hq, Ctl.making]
  obtain ⟨hp, hkc⟩ := hk.child s q pid (g q) (s c) (g c) c f hok hq hemb (hi.task q) (hi.task c) (hi.child q c f hq)
  rw [hg]
  refine ⟨hi.born.step (.copy hq), ?_, fun r c' f' hr => ?_⟩
  · refine forall_update₂ (P := fun r => P (Function.update g c (G.copy f (g q) (g c)) r)) ?_ ?_ ?_
    · intro r _ hr
      rw [Function.update_of_ne hr]
      exact hi.task r
    · rwa [Function.update_self]
    · rw [Function.update_of_ne hne]
      exact hk.parent (g q) (s q) c f pid hq (hi.task q)
  · by_cases e : r = q
    · subst e
      rw [Function.update_self] at hr
      obtain ⟨rfl, hn⟩ := ForkAt.after_eq_fork hr
      rw [update₂_child hne, Function.update_self]
      exact hkc f' hn
    · have hrc : r ≠ c := fun e' => by
        subst e'
        rw [update₂_child hne] at hr
        cases f <;> simp [ForkAt.step, hemb] at hr
      rw [update₂_other e hrc] at hr
      have he := hi.born.embryo r c' f' hr
      have hcq : c' ≠ q := fun e' => by simp [e', hq] at he
      have hcc : c' ≠ c := fun e' => e (hi.born.unique r q c' f' f hr (e' ▸ hq))
      rw [update₂_other hcq hcc, Function.update_of_ne hcc]
      exact hi.child r c' f' hr

theorem Ghost.Inv.nomem {q c : Slot} (hk : G.Kept ok P K) (hi : Ghost.Inv P K g s) (hq : (s q).ctl = .fork c .vm) :
    Ghost.Inv P K g
      (Function.update (Function.update s c { s c with ctl := .unused }) q { s q with ctl := .done (-1) }) := by
  have hne := hi.born.ne hq
  refine ⟨hi.born.step (.nomem hq), ?_, fun r c' f hr => ?_⟩
  · exact forall_update₂ (P := fun r => P (g r)) (fun r _ _ => hi.task r)
      (hk.free _ _ (hi.born.embryo q c .vm hq) (hi.task c)) (hk.fail _ _ c hq (hi.task q))
  · have e : r ≠ q := fun e => by subst e; simp at hr
    have hrc : r ≠ c := fun e' => by subst e'; rw [update₂_child hne] at hr; simp at hr
    rw [update₂_other e hrc] at hr
    have he := hi.born.embryo r c' f hr
    have hcq : c' ≠ q := fun e' => by simp [e', hq] at he
    have hcc : c' ≠ c := fun e' => e (hi.born.unique r q c' f .vm hr (e' ▸ hq))
    rw [update₂_other hcq hcc]
    exact hi.child r c' f hr

theorem Ghost.Inv.step (hk : G.Kept ok P K) (hi : Ghost.Inv P K g s) (hok : ok s l) (h : Steps s l s') :
    Ghost.Inv P K (G.next g s l) s' := by
  cases h with
  | own hm => exact hi.own hk hok hm
  | alloc hq hc => exact hi.alloc hk hq hc
  | copy hq => exact hi.copy hk hok hq
  | nomem hq => exact hi.nomem hk hq

/-- **Invariants of processes and their records**, after every guarded run from `boot`. -/
theorem Ghost.invariant (g₀ : γ) {tr : List (State × Label)} (hk : G.Kept ok P K) (h0 : ∀ q, P g₀ (boot q))
    (h : Path Trap.step ok boot tr s) (q : Slot) : P (G.after g₀ tr q) (s q) := by
  have hi : Ghost.Inv P K (G.after g₀ tr) s := by
    refine h.inv_trace (I := fun tr s => Ghost.Inv P K (G.after g₀ tr) s) ?_ fun tr s l s' hi hok hs => ?_
    · exact ⟨born_boot, h0, fun q c f hq => absurd hq (boot_ne_fork q c f)⟩
    · rw [Ghost.after_snoc]
      exact hi.step hk hok (step_steps hs)
  exact hi.task q

end Xv6.Trap
