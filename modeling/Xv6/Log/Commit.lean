import Xv6.Log.Group

/-!
# Group commit

`commit` runs without `log.lock`. What protects it is the flag `log.committing`, which is set only when the last open
operation has ended and which keeps `begin_op` from admitting another one (`Grouped`).
-/

namespace Xv6.Log

variable {T : Type*}

/-! ## One thread moves -/

section Moved

variable {s s' : State T} {q : T} {pc' : Pc}

/-- The thread `q` goes to `pc'` and no other thread moves. -/
structure Moved (s s' : State T) (q : T) (pc' : Pc) : Prop where
  self : s'.pc q = pc'
  other : ∀ r, r ≠ q → s'.pc r = s.pc r

theorem Moved.of_thread [DecidableEq T] {own : List ℕ} (h : s'.thread = Function.update s.thread q ⟨pc', own⟩) :
    Moved s s' q pc' :=
  ⟨by simp [State.pc, h], fun r hr => by simp [State.pc, h, hr]⟩

theorem Moved.forall_iff (h : Moved s s' q pc') {p : T → Pc → Prop} :
    (∀ r, p r (s'.pc r)) ↔ p q pc' ∧ ∀ r, r ≠ q → p r (s.pc r) := by
  constructor
  · intro hp
    exact ⟨h.self ▸ hp q, fun r hr => h.other r hr ▸ hp r⟩
  · rintro ⟨hq, hr⟩ r
    by_cases he : r = q
    · rw [he, h.self]
      exact hq
    · rw [h.other r he]
      exact hr r he

theorem Moved.same (h : Moved s s' q pc') {p : Pc → Bool} (hp : p pc' = p (s.pc q)) (r : T) :
    p (s'.pc r) = p (s.pc r) := by
  by_cases he : r = q
  · rw [he, h.self, hp]
  · rw [h.other r he]

end Moved

section Statements

variable {q : T} {L L' : Vars T} {pc pc' : Pc}

theorem Effect.open_before (he : Effect q L pc L' pc') (ho : pc'.isOpen = true) : pc.isOpen = true ∨ pc = .beginAdd := by
  cases he with
  | move lh _ h => exact .inl (h ▸ ho)
  | acquire _ _ _ h => exact .inl (h ▸ ho)
  | release _ _ h => exact .inl (h ▸ ho)
  | opens => exact .inr rfl
  | outside => exact .inl rfl
  | closes | set | unset | committing => simp [Pc.isOpen] at ho

theorem Effect.open_after (he : Effect q L pc L' pc') (ho : pc.isOpen = true) : pc'.isOpen = true ∨ pc = .endDec := by
  cases he with
  | move lh _ h => exact .inl (h ▸ ho)
  | acquire _ _ _ h => exact .inl (h ▸ ho)
  | release _ _ h => exact .inl (h ▸ ho)
  | closes => exact .inr rfl
  | outside => exact .inl rfl
  | opens | set | unset | committing => simp [Pc.isOpen] at ho

theorem Effect.full (he : Effect q L pc L' (.panic .tooBig)) : L.Full := by
  cases he with
  | move lh _ _ _ _ _ h => exact (h _ rfl).2
  | acquire _ _ _ _ _ _ h => exact absurd rfl (h _)
  | release _ _ _ _ _ h => exact absurd rfl (h _)

theorem Effect.committer_before (he : Effect q L pc L' pc') (hc : pc'.committer = true) :
    pc.committer = true ∨ pc = .endSet := by
  cases he with
  | move lh _ _ h => exact .inl (h ▸ hc)
  | acquire _ _ _ _ h => exact .inl (h ▸ hc)
  | release _ _ _ h => exact .inl (h ▸ hc)
  | set => exact .inr rfl
  | opens | closes | unset | outside | committing => simp [Pc.committer, Pc.inCommit] at hc

end Statements

/-! ## Counter, flag and lock -/

section Counting

variable [Fintype T]

/-- The number of open operations. -/
def State.opened (s : State T) : ℕ := Finset.card {q | (s.pc q).isOpen}

theorem opened_eq_sum (s : State T) : s.opened = ∑ q, (s.pc q).isOpen.toNat := by
  rw [State.opened, Finset.card_filter]
  exact Finset.sum_congr rfl fun q _ => by cases (s.pc q).isOpen <;> rfl

theorem opened_eq_zero {s : State T} : s.opened = 0 ↔ ∀ q, (s.pc q).isOpen = false := by
  simp [State.opened, Finset.filter_eq_empty_iff]

/-- The lock, the counter and the flag say what the threads are doing. -/
structure Grouped (s : State T) : Prop where
  lock : ∀ q, (s.pc q).locked = true ↔ s.log.lock = some q
  count : s.log.outstanding = s.opened
  flag : s.log.committing = true ↔ ∃ q, (s.pc q).committer = true
  one : ∀ q r, (s.pc q).committer = true → (s.pc r).committer = true → q = r
  apart : ∀ q r, (s.pc q).committer = true → (s.pc r).isOpen = false
  calm : ∀ q, (s.pc q).calm = true → s.log.committing = false
  last : ∀ q, s.pc q = .endSet → s.log.outstanding = 0
  panic : ∀ q m, s.pc q = .panic m → m = .tooBig

theorem Grouped.boot (start size : ℕ) : Grouped (boot start size : State T) where
  lock q := by simp [Log.boot, State.pc, Pc.locked]
  count := by simp [State.opened, Log.boot, State.pc, Pc.isOpen]
  flag := by simp [Log.boot, State.pc, Pc.committer, Pc.inCommit]
  one q r h := by simp [Log.boot, State.pc, Pc.committer, Pc.inCommit] at h
  apart q r _ := rfl
  calm q _ := rfl
  last q _ := rfl
  panic q m h := by simp [Log.boot, State.pc] at h

variable {s s' : State T} {q r : T} {pc' : Pc}

theorem Pc.locked_of_calm {pc : Pc} (h : pc.calm = true) : pc.locked = true := by
  cases pc <;> simp [Pc.calm] at h <;> rfl

theorem Grouped.holder (hg : Grouped s) (hq : (s.pc q).locked = true) (hr : (s.pc r).locked = true) : r = q := by
  have h := (hg.lock q).mp hq
  rw [(hg.lock r).mp hr, Option.some.injEq] at h
  exact h

theorem Grouped.quiet (hg : Grouped s) (hq : (s.pc q).isOpen = true) : s.log.committing = false := by
  by_contra hc
  obtain ⟨r, hr⟩ := hg.flag.mp (Bool.not_eq_false _ ▸ hc)
  simp [hg.apart r q hr] at hq

theorem Grouped.no_committer (hg : Grouped s) (hc : s.log.committing = false) (r : T) :
    (s.pc r).committer = false := by
  by_contra hr
  simp [hg.flag.mpr ⟨r, by simpa using hr⟩] at hc

theorem Grouped.step_lock (hg : Grouped s) (hm : Moved s s' q pc') (he : Effect q s.log (s.pc q) s'.log pc') :
    ∀ r, (s'.pc r).locked = true ↔ s'.log.lock = some r := by
  have hq := hg.lock q
  have hl := hg.lock
  rw [hm.forall_iff (p := fun r pc => pc.locked = true ↔ s'.log.lock = some r)]
  generalize s.pc q = pc at he hq
  generalize s'.log = L' at he ⊢
  cases he with
  | move lh h => exact ⟨h ▸ hq, fun r _ => hl r⟩
  | acquire hnone _ h =>
    refine ⟨by simp [h], fun r hr => ?_⟩
    simp [hl r, hnone, Ne.symm hr]
  | release h h' =>
    refine ⟨by simp [h'], fun r hr => ?_⟩
    simp [hl r, hq.mp h, Ne.symm hr]
  | opens | closes | set | unset | outside | committing => exact ⟨hq, fun r _ => hl r⟩

theorem sum_change [DecidableEq T] {f g : T → ℕ} (h : ∀ r, r ≠ q → g r = f r) :
    ∑ r, g r + f q = ∑ r, f r + g q := by
  rw [← Finset.add_sum_erase _ g (Finset.mem_univ q), ← Finset.add_sum_erase _ f (Finset.mem_univ q)]
  have herase : ∑ r ∈ Finset.univ.erase q, g r = ∑ r ∈ Finset.univ.erase q, f r :=
    Finset.sum_congr rfl fun r hr => h r (Finset.ne_of_mem_erase hr)
  omega

theorem Moved.opened [DecidableEq T] (h : Moved s s' q pc') :
    s'.opened + (s.pc q).isOpen.toNat = s.opened + pc'.isOpen.toNat := by
  rw [opened_eq_sum, opened_eq_sum, ← h.self]
  exact sum_change (f := fun r => (s.pc r).isOpen.toNat) (g := fun r => (s'.pc r).isOpen.toNat)
    fun r hr => by rw [h.other r hr]

theorem Grouped.step_count [DecidableEq T] (hg : Grouped s) (hm : Moved s s' q pc')
    (he : Effect q s.log (s.pc q) s'.log pc') : s'.log.outstanding = s'.opened := by
  have hc := hg.count
  have ho := hm.opened
  generalize s.pc q = pc at he ho
  generalize s'.log = L' at he ⊢
  cases he with
  | move lh _ h =>
    rw [h] at ho
    simp only
    omega
  | acquire _ _ _ h =>
    rw [h] at ho
    simp only
    omega
  | release _ _ h =>
    rw [h] at ho
    simp only
    omega
  | opens | closes | set | unset | outside | committing => simp [Pc.isOpen] at ho ⊢; omega

theorem Grouped.step_flag (hg : Grouped s) (hm : Moved s s' q pc') (he : Effect q s.log (s.pc q) s'.log pc') :
    s'.log.committing = true ↔ ∃ r, (s'.pc r).committer = true := by
  have hf := hg.flag
  have same : pc'.committer = (s.pc q).committer →
      ((∃ r, (s'.pc r).committer = true) ↔ ∃ r, (s.pc r).committer = true) :=
    fun h => exists_congr fun r => by rw [hm.same h r]
  have hone := hg.one q
  have hself := hm.self
  generalize s.pc q = pc at he same hone
  generalize s'.log = L' at he ⊢
  cases he with
  | move lh _ _ h => rw [same h]; exact hf
  | acquire _ _ _ _ h => rw [same h]; exact hf
  | release _ _ _ h => rw [same h]; exact hf
  | opens | closes | outside | committing => rw [same rfl]; exact hf
  | set => exact iff_of_true rfl ⟨q, by rw [hself]; rfl⟩
  | unset =>
    refine iff_of_false (by simp) ?_
    rintro ⟨r, hr⟩
    by_cases hrq : r = q
    · rw [hrq, hself] at hr
      simp [Pc.committer, Pc.inCommit] at hr
    · exact hrq (hone r rfl (hm.other r hrq ▸ hr)).symm

theorem Grouped.step_one (hg : Grouped s) (hm : Moved s s' q pc') (he : Effect q s.log (s.pc q) s'.log pc') :
    ∀ p r, (s'.pc p).committer = true → (s'.pc r).committer = true → p = r := by
  have before (r : T) (hr : (s'.pc r).committer = true) : (s.pc r).committer = true ∨ r = q ∧ s.pc q = .endSet := by
    by_cases hrq : r = q
    · rw [hrq] at hr ⊢
      exact (he.committer_before (hm.self ▸ hr)).imp_right fun h => ⟨rfl, h⟩
    · exact .inl (hm.other r hrq ▸ hr)
  -- a new committer is the only one: the flag was clear
  have alone (h : s.pc q = .endSet) (r : T) : (s.pc r).committer = false :=
    hg.no_committer (hg.calm q (by rw [h]; rfl)) r
  intro p r hp hr
  rcases before p hp with hp | ⟨rfl, h⟩ <;> rcases before r hr with hr | ⟨rfl, h'⟩
  · exact hg.one p r hp hr
  · simp [alone h' p] at hp
  · simp [alone h r] at hr
  · rfl

theorem Grouped.step_apart (hg : Grouped s) (hm : Moved s s' q pc') (he : Effect q s.log (s.pc q) s'.log pc') :
    ∀ p r, (s'.pc p).committer = true → (s'.pc r).isOpen = false := by
  intro p r hp
  by_contra hr
  rw [Bool.not_eq_false] at hr
  have hp' : (s.pc p).committer = true ∨ s.pc p = .endSet := by
    by_cases hpq : p = q
    · rw [hpq] at hp ⊢
      exact he.committer_before (hm.self ▸ hp)
    · exact .inl (hm.other p hpq ▸ hp)
  have hr' : (s.pc r).isOpen = true ∨ s.pc r = .beginAdd := by
    by_cases hrq : r = q
    · rw [hrq] at hr ⊢
      exact he.open_before (hm.self ▸ hr)
    · exact .inl (hm.other r hrq ▸ hr)
  rcases hp' with hp' | hp' <;> rcases hr' with hr' | hr'
  · simp [hg.apart p r hp'] at hr'
  · have := hg.no_committer (hg.calm r (by rw [hr']; rfl)) p
    simp [this] at hp'
  · have h0 : s.opened = 0 := by
      have := hg.count
      rw [hg.last p hp'] at this
      omega
    simp [opened_eq_zero.mp h0 r] at hr'
  · -- both would hold the lock
    have hrp : r = p := hg.holder (by rw [hp']; rfl) (by rw [hr']; rfl)
    rw [hrp, hp'] at hr'
    cases hr'

theorem Grouped.step_calm (hg : Grouped s) (hm : Moved s s' q pc') (he : Effect q s.log (s.pc q) s'.log pc') :
    ∀ r, (s'.pc r).calm = true → s'.log.committing = false := by
  have hcalm := hg.calm
  have hquiet := hg.quiet (q := q)
  have hhold := fun r => hg.holder (q := q) (r := r)
  have hq := hg.calm q
  rw [hm.forall_iff (p := fun r pc => pc.calm = true → s'.log.committing = false)]
  generalize s.pc q = pc at he hquiet hhold hq
  generalize s'.log = L' at he ⊢
  cases he with
  | move lh _ _ _ h => exact ⟨fun hc => (h hc).elim hq id, fun r _ => hcalm r⟩
  | acquire _ _ _ _ _ h => exact ⟨by simp [h], fun r _ => hcalm r⟩
  | release _ _ _ _ h => exact ⟨by simp [h], fun r _ => hcalm r⟩
  | opens | outside | committing => exact ⟨by simp [Pc.calm], fun r _ => hcalm r⟩
  | closes => exact ⟨fun _ => hquiet rfl, fun r _ => hcalm r⟩
  | set => exact ⟨by simp [Pc.calm], fun r hr hc => absurd (hhold r rfl (Pc.locked_of_calm hc)) hr⟩
  | unset => exact ⟨fun _ => rfl, fun _ _ _ => rfl⟩

theorem Grouped.step_last (hg : Grouped s) (hm : Moved s s' q pc') (he : Effect q s.log (s.pc q) s'.log pc') :
    ∀ r, s'.pc r = .endSet → s'.log.outstanding = 0 := by
  have hlast := hg.last
  have hhold := fun r => hg.holder (q := q) (r := r)
  have hset (r : T) (h : s.pc r = .endSet) : (s.pc r).locked = true := by rw [h]; rfl
  rw [hm.forall_iff (p := fun r pc => pc = .endSet → s'.log.outstanding = 0)]
  generalize s.pc q = pc at he hhold
  generalize s'.log = L' at he ⊢
  cases he with
  | move lh _ _ _ _ h => exact ⟨h, fun r _ => hlast r⟩
  | acquire _ _ _ _ _ h => exact ⟨fun hp => by simp [hp, Pc.calm] at h, fun r _ => hlast r⟩
  | release _ _ _ _ h => exact ⟨fun hp => by simp [hp, Pc.calm] at h, fun r _ => hlast r⟩
  | set | unset | outside | committing => exact ⟨by simp, fun r _ => hlast r⟩
  | opens | closes => exact ⟨by simp, fun r hr hp => absurd (hhold r rfl (hset r hp)) hr⟩

theorem Grouped.step_panic (hg : Grouped s) (hm : Moved s s' q pc') (he : Effect q s.log (s.pc q) s'.log pc') :
    ∀ r m, s'.pc r = .panic m → m = .tooBig := by
  have hpanic := hg.panic
  have hopen : (s.pc q).isOpen = true → s.log.outstanding ≠ 0 := fun ho h0 => by
    rw [hg.count, Int.natCast_eq_zero] at h0
    simp [opened_eq_zero.mp h0 q] at ho
  have hcount := hg.count
  have hq := hg.calm q
  rw [hm.forall_iff (p := fun r pc => ∀ m, pc = .panic m → m = .tooBig)]
  refine ⟨?_, fun r _ => hpanic r⟩
  generalize s.pc q = pc at he hopen hq
  generalize s'.log = L' at he
  cases he with
  | move lh _ _ _ _ _ h => exact fun m hp => (h m hp).1
  | acquire _ _ _ _ _ _ h => exact fun m hp => absurd hp (h m)
  | release _ _ _ _ _ h => exact fun m hp => absurd hp (h m)
  | opens | closes | set | unset => simp
  | outside ho => have := hopen rfl; omega
  | committing hc => simp [hq rfl] at hc

theorem Grouped.step [DecidableEq T] {l : Label T} (hg : Grouped s) (h : step s l = some s') : Grouped s' := by
  obtain ⟨q, pc', own, he, ht⟩ := step_effect h
  have hm := Moved.of_thread ht
  exact ⟨hg.step_lock hm he, hg.step_count hm he, hg.step_flag hm he, hg.step_one hm he, hg.step_apart hm he,
    hg.step_calm hm he, hg.step_last hm he, hg.step_panic hm he⟩

end Counting

/-! ## The contents of the header -/

/-- What a thread in `log_write` knows of the header. -/
def Pc.Sound (lh : Logheader) : Pc → Prop
  | .logScan b i => lh.Scanned b i
  | .logStore b i => lh.Found b i
  | .logCount b i => lh.Stored b i
  | _ => True

theorem Pc.sound_of_unlocked {pc : Pc} {lh : Logheader} (h : pc.locked = false) : pc.Sound lh := by
  cases pc <;> trivial

theorem Pc.sound_of_closed {pc : Pc} {lh : Logheader} (h : pc.isOpen = false) : pc.Sound lh := by
  cases pc <;> trivial

section Contents

variable [DecidableEq T]

theorem Pc.Sound.step {q : T} {L L' : Vars T} {pc pc' : Pc} (hs : pc.Sound L.lh)
    (h : pc.step q L = some (L', pc')) : pc'.Sound L'.lh := by
  cases pc with
  | logAcquire b =>
    obtain ⟨-, rfl, rfl⟩ := by simpa [Pc.step] using h
    exact Logheader.scanned_zero
  | logScan b i =>
    obtain ⟨rfl, rfl⟩ := by simpa [Pc.step] using h
    split_ifs with hi hb
    · exact ⟨hs, fun _ => hb⟩
    · exact Logheader.Scanned.succ hs hi hb
    · exact ⟨hs, fun h => absurd h hi⟩
  | logStore b i =>
    obtain ⟨rfl, rfl⟩ := by simpa [Pc.step] using h
    exact Logheader.Found.stored hs
  | idle | active | panic => simp [Pc.step] at h
  | beginTest =>
    simp only [Pc.step] at h
    split_ifs at h <;> obtain ⟨rfl, rfl⟩ := by simpa using h
    all_goals trivial
  | beginAcquire | endAcquire | doneAcquire =>
    obtain ⟨-, rfl, rfl⟩ := by simpa [Pc.step] using h
    trivial
  | beginAdd | beginRelease | logCount | logRelease | endDec | endSet | writeHead | clear | eraseHead | doneClear
  | doneRelease =>
    obtain ⟨rfl, rfl⟩ := by simpa [Pc.step] using h
    trivial
  | logFull | logSize | logOutstanding | endCheck | endTest | endRelease | commit | writeLog | installTrans =>
    obtain ⟨rfl, rfl⟩ := by simpa [Pc.step] using h
    split_ifs <;> trivial

/-- The sectors logged since the last commit: by the operations that have not ended, and by those that have. -/
structure Ledger (T : Type*) where
  running : T → List ℕ
  ended : List ℕ

/-- `b` has been logged since the last commit. -/
def Ledger.Mem (A : Ledger T) (b : ℕ) : Prop := b ∈ A.ended ∨ ∃ q, b ∈ A.running q

def Ledger.log (A : Ledger T) (q : T) (b : ℕ) : Ledger T :=
  { A with running := Function.update A.running q (b :: A.running q) }

def Ledger.finish (A : Ledger T) (q : T) : Ledger T := ⟨Function.update A.running q [], A.running q ++ A.ended⟩

theorem Ledger.mem_log {A : Ledger T} {q : T} {b c : ℕ} : (A.log q c).Mem b ↔ b = c ∨ A.Mem b := by
  simp only [Ledger.Mem, Ledger.log]
  constructor
  · rintro (hb | ⟨r, hb⟩)
    · exact .inr (.inl hb)
    · by_cases hrq : r = q
      · subst hrq
        exact (List.mem_cons.mp (by simpa using hb)).imp_right fun h => .inr ⟨r, h⟩
      · exact .inr (.inr ⟨r, by simpa [hrq] using hb⟩)
  · rintro (rfl | hb | ⟨r, hb⟩)
    · exact .inr ⟨q, by simp⟩
    · exact .inl hb
    · refine .inr ⟨r, ?_⟩
      by_cases hrq : r = q
      · subst hrq
        simp [hb]
      · simp [hrq, hb]

theorem Ledger.mem_finish {A : Ledger T} {q : T} {b : ℕ} : (A.finish q).Mem b ↔ A.Mem b := by
  simp only [Ledger.Mem, Ledger.finish, List.mem_append]
  constructor
  · rintro ((hb | hb) | ⟨r, hb⟩)
    · exact .inr ⟨q, hb⟩
    · exact .inl hb
    · by_cases hrq : r = q
      · subst hrq
        simp at hb
      · exact .inr ⟨r, by simpa [hrq] using hb⟩
  · rintro (hb | ⟨r, hb⟩)
    · exact .inl (.inr hb)
    · by_cases hrq : r = q
      · exact .inl (.inl (hrq ▸ hb))
      · exact .inr ⟨r, by simpa [hrq] using hb⟩

/-- A step of the run in the ledger: `log_write` logs a sector, `end_op` ends an operation, `commit` is over when it
clears the header. -/
def Ledger.next (A : Ledger T) (s : State T) : Label T → Ledger T
  | .step q =>
    match s.pc q with
    | .logCount b _ => A.log q b
    | .endDec => A.finish q
    | .clear => { A with ended := [] }
    | _ => A
  | .beginOp _ | .logWrite _ _ | .endOp _ => A

theorem Ledger.running_next_ne {A : Ledger T} {s : State T} {q r : T} (h : r ≠ q) :
    (A.next s (.step q)).running r = A.running r := by
  simp only [Ledger.next]
  split <;> simp [Ledger.log, Ledger.finish, h]

theorem Ledger.running_next {A : Ledger T} {s : State T} {q : T} (h : (A.next s (.step q)).running q ≠ []) :
    s.pc q ≠ .endDec ∧ (A.running q ≠ [] ∨ (s.pc q).isOpen = true) := by
  cases hp : s.pc q with
  | endDec => simp [Ledger.next, hp, Ledger.finish] at h
  | logCount b i => exact ⟨by simp, .inr rfl⟩
  | _ => exact ⟨by simp, .inl (by simpa only [Ledger.next, hp] using h)⟩

def ledger (tr : List (State T × Label T)) : Ledger T := tr.foldl (fun A x => A.next x.1 x.2) ⟨fun _ => [], []⟩

theorem ledger_snoc (tr : List (State T × Label T)) (s : State T) (l : Label T) :
    ledger (tr ++ [(s, l)]) = (ledger tr).next s l := by
  simp [ledger]

end Contents

/-- The header holds what has been logged since the last commit. -/
structure Recorded (A : Ledger T) (s : State T) : Prop where
  sound : ∀ q, (s.pc q).Sound s.log.lh
  mem : ∀ b, b ∈ s.log.lh.sectors ↔ A.Mem b
  running : ∀ q, A.running q ≠ [] → (s.pc q).isOpen = true

theorem Recorded.boot (start size : ℕ) : Recorded ⟨fun _ => [], []⟩ (boot start size : State T) where
  sound q := trivial
  mem b := by simp [Log.boot, Ledger.Mem]
  running q h := absurd rfl h

section Run

variable [Fintype T] {A : Ledger T} {s s' : State T} {q : T} {l : Label T}

theorem Recorded.of_committer (hr : Recorded A s) (hg : Grouped s) (hq : (s.pc q).committer = true) (r : T) :
    A.running r = [] := by
  by_contra h
  have ho := hr.running r h
  simp [hg.apart q r hq] at ho

theorem Recorded.sound_other (hr : Recorded A s) (hg : Grouped s) {r : T} (hrq : r ≠ q) :
    (s.pc r).Sound ((s.pc q).header s.log.lh) := by
  have hlock (h : (s.pc q).locked = true) (lh : Logheader) : (s.pc r).Sound lh := by
    apply Pc.sound_of_unlocked
    by_contra hl
    exact hrq (hg.holder h (by simpa using hl))
  have hs := hr.sound r
  cases hp : s.pc q with
  | logStore b i => exact hlock (by rw [hp]; rfl) _
  | logCount b i => exact hlock (by rw [hp]; rfl) _
  | clear => exact Pc.sound_of_closed (hg.apart q r (by rw [hp]; rfl))
  | _ => exact hs

variable [DecidableEq T]

theorem Recorded.mem_next (hr : Recorded A s) (hg : Grouped s) (b : ℕ) :
    b ∈ ((s.pc q).header s.log.lh).sectors ↔ (A.next s (.step q)).Mem b := by
  have hs := hr.sound q
  have hnone := hr.of_committer hg (q := q)
  have hm := hr.mem b
  cases hp : s.pc q with
  | logStore c i =>
    rw [hp] at hs
    simpa only [Ledger.next, hp, Pc.header, Logheader.Found.sectors_store hs] using hm
  | logCount c i =>
    rw [hp] at hs
    simp only [Ledger.next, hp, Pc.header, Logheader.Stored.mem_count hs, Ledger.mem_log, hm]
  | endDec => simpa only [Ledger.next, hp, Pc.header, Ledger.mem_finish] using hm
  | clear => simp [Ledger.next, hp, Pc.header, Ledger.Mem, hnone (by rw [hp]; rfl)]
  | _ => simpa only [Ledger.next, hp, Pc.header] using hm

omit [Fintype T] in
theorem Recorded.call {pc pc' : Pc} (hr : Recorded A s) (h : s.call q pc pc' = some s')
    (hs : ∀ lh, pc'.Sound lh) (ho : pc'.isOpen = pc.isOpen) : Recorded A s' := by
  obtain ⟨rfl, rfl⟩ := by simpa [State.call] using h
  have hm : Moved s { s with thread := Function.update s.thread q ⟨pc', (s.thread q).own⟩ } q pc' := .of_thread rfl
  refine ⟨?_, hr.mem, ?_⟩
  · rw [hm.forall_iff (p := fun _ pc => pc.Sound s.log.lh)]
    exact ⟨hs _, fun r _ => hr.sound r⟩
  · intro r hrun
    rw [hm.same ho r]
    exact hr.running r hrun

theorem Recorded.step (hr : Recorded A s) (hg : Grouped s) (h : step s l = some s') : Recorded (A.next s l) s' := by
  cases l with
  | beginOp q => exact hr.call h (fun _ => trivial) rfl
  | logWrite q b => exact hr.call h (fun _ => trivial) rfl
  | endOp q => exact hr.call h (fun _ => trivial) rfl
  | step q =>
    simp only [Log.step, Option.map_eq_some_iff] at h
    obtain ⟨⟨L, pc'⟩, hp, hs'⟩ := h
    have hm : Moved s s' q pc' := .of_thread (by rw [← hs'])
    obtain rfl : s'.log = L := by rw [← hs']
    have hlh := Pc.step_lh hp
    refine ⟨?_, fun b => ?_, fun r hrun => ?_⟩
    · rw [hm.forall_iff (p := fun _ pc => pc.Sound s'.log.lh)]
      exact ⟨(hr.sound q).step hp, fun r hrq => hlh ▸ hr.sound_other hg hrq⟩
    · exact hlh ▸ hr.mem_next hg b
    · by_cases hrq : r = q
      · subst hrq
        obtain ⟨hend, hrun⟩ := Ledger.running_next hrun
        have ho : (s.pc r).isOpen = true := hrun.elim (hr.running r) id
        rw [hm.self]
        exact ((Pc.step_effect hp).open_after ho).resolve_right hend
      · rw [hm.other r hrq]
        exact hr.running r (Ledger.running_next_ne hrq ▸ hrun)

theorem grouped_of_path {start size : ℕ} {ok : State T → Label T → Prop} {tr : List (State T × Label T)}
    (h : Lib.Path step ok (boot start size) tr s) : Grouped s ∧ Recorded (ledger tr) s :=
  h.inv_trace (I := fun tr s => Grouped s ∧ Recorded (ledger tr) s) ⟨.boot _ _, .boot _ _⟩
    fun tr s l _ ⟨hg, hr⟩ _ hs => ⟨hg.step hs, ledger_snoc tr s l ▸ hr.step hg hs⟩

/-- **Group commit never commits half an operation.** In every interleaving of `begin_op`, `log_write` and `end_op` by
any number of threads: `log.outstanding` is the number of open operations, of which none is still in its `begin_op`
when the lock is free; it is zero while `log.committing` is set; no operation is open, so no `log_write` under way,
while `commit` runs; the panics about operations that are not bracketed are not reached; and a running commit holds
exactly the sectors logged since the last one, all by operations that have ended. -/
theorem commits_whole_operations {start size : ℕ} {tr : List (State T × Label T)}
    (h : Lib.Path step Lib.free (boot start size) tr s) :
    s.log.outstanding = s.opened ∧ (s.log.lock = none → ∀ q, s.pc q ≠ .beginRelease) ∧
      (s.log.committing = true → s.log.outstanding = 0) ∧
      (∀ q r, (s.pc q).inCommit = true → (s.pc r).isOpen = false) ∧
      (∀ q, s.pc q ≠ .panic .logCommitting ∧ s.pc q ≠ .panic .outsideTrans) ∧
      ∀ q, (s.pc q).inCommit = true →
        (∀ b, b ∈ s.log.lh.sectors ↔ b ∈ (ledger tr).ended) ∧ ∀ r, (ledger tr).running r = [] := by
  obtain ⟨hg, hr⟩ := grouped_of_path h
  have hcom (q : T) (hq : (s.pc q).inCommit = true) : (s.pc q).committer = true := by simp [Pc.committer, hq]
  refine ⟨hg.count, fun hl q hq => ?_, fun hc => ?_, fun q r hq => hg.apart q r (hcom q hq),
    fun q => ⟨fun hp => ?_, fun hp => ?_⟩, fun q hq => ⟨fun b => ?_, hr.of_committer hg (hcom q hq)⟩⟩
  · have hlock := (hg.lock q).mp (by rw [hq]; rfl)
    simp [hl] at hlock
  · obtain ⟨q, hq⟩ := hg.flag.mp hc
    rw [hg.count, opened_eq_zero.mpr fun r => hg.apart q r hq]
    rfl
  · cases hg.panic q _ hp
  · cases hg.panic q _ hp
  · simp [hr.mem b, Ledger.Mem, hr.of_committer hg (hcom q hq)]

/-- Two operations, of which one logs the sectors 60 and 61 and the other 61, end one after the other. -/
def twoOps : List (Label Bool) :=
  [[.beginOp true], .replicate 4 (.step true), [.beginOp false], .replicate 4 (.step false),
    [.logWrite true 60], .replicate 8 (.step true), [.logWrite true 61], .replicate 9 (.step true),
    [.logWrite false 61], .replicate 9 (.step false), [.endOp true], .replicate 5 (.step true),
    [.endOp false], .replicate 6 (.step false)].flatten

theorem commits_whole_operations_two :
    ∃ tr s, Lib.Path step Lib.free (boot 994 LOGSIZE : State Bool) tr s ∧ (s.pc false).inCommit = true ∧
      s.log.lh.sectors = [60, 61] ∧ (∀ b, b ∈ s.log.lh.sectors ↔ b ∈ (ledger tr).ended) ∧
      s.log.outstanding = s.opened := by
  obtain ⟨s, hp, hc, hs⟩ := Lib.exists_path step Lib.free (boot 994 LOGSIZE : State Bool) twoOps
    (fun s => (s.pc false).inCommit = true ∧ s.log.lh.sectors = [60, 61]) (by decide +kernel)
  obtain ⟨hcount, -, -, -, -, hcommit⟩ := commits_whole_operations hp
  exact ⟨_, s, hp, hc, hs, (hcommit false hc).1, hcount⟩

end Run

/-! ## Waiting for the log -/

/-- The thread has an open operation, or is on its way to the commit that empties the header. -/
def Pc.owes : Pc → Bool
  | .endCheck | .endTest | .endSet | .endRelease true | .commit | .writeLog _ | .writeHead | .installTrans _ | .clear => true
  | pc => pc.isOpen

section Waiting

variable [DecidableEq T] {s s' : State T} {q : T} {L L' : Vars T} {pc pc' : Pc} {l : Label T}

theorem Pc.step_owes (h : pc.step q L = some (L', pc')) (ho : pc.owes = true) :
    pc'.owes = true ∨ L'.lh.n = 0 ∨ pc = .endTest ∧ L.outstanding ≠ 0 ∨ pc = .endCheck ∧ L.committing = true := by
  cases pc
  case endRelease b => cases b <;> grind [Pc.step, owes, isOpen]
  all_goals grind [Pc.step, owes, isOpen]

theorem Pc.header_of_not_owes {lh : Logheader} (h : pc.owes = false) : pc.header lh = lh := by
  cases pc <;> first | rfl | cases h

theorem Pc.owes_of_isOpen (h : pc.isOpen = true) : pc.owes = true := by
  unfold owes
  split <;> first | rfl | exact h

theorem owes_step [Fintype T] (hg : Grouped s) (hs : 0 < s.log.lh.n → ∃ r, (s.pc r).owes = true)
    (h : step s l = some s') (hn : 0 < s'.log.lh.n) : ∃ r, (s'.pc r).owes = true := by
  have call {pc pc' : Pc} {q : T} (h : s.call q pc pc' = some s') (ho : pc'.owes = pc.owes) :
      ∃ r, (s'.pc r).owes = true := by
    obtain ⟨rfl, rfl⟩ := by simpa [State.call] using h
    obtain ⟨r, hr⟩ := hs hn
    exact ⟨r, by rwa [(Moved.of_thread rfl).same ho r]⟩
  cases l with
  | beginOp q | logWrite q b | endOp q => exact call h rfl
  | step q =>
    simp only [Log.step, Option.map_eq_some_iff] at h
    obtain ⟨⟨L, pc'⟩, hp, hs'⟩ := h
    have hm : Moved s s' q pc' := .of_thread (by rw [← hs'])
    obtain rfl : s'.log = L := by rw [← hs']
    have other {r : T} (hr : (s.pc r).owes = true) (hrq : r ≠ q) : ∃ r, (s'.pc r).owes = true :=
      ⟨r, hm.other r hrq ▸ hr⟩
    by_cases hq : (s.pc q).owes = true
    · rcases Pc.step_owes hp hq with ho | h0 | ⟨hpc, hout⟩ | ⟨hpc, hc⟩
      · exact ⟨q, hm.self ▸ ho⟩
      · exact absurd h0 hn.ne'
      · -- `end_op` leaves the commit to another operation, which is open
        obtain ⟨r, hr⟩ : ∃ r, (s.pc r).isOpen = true := by
          by_contra hno
          rw [hg.count, opened_eq_zero.mpr fun r => by simpa using not_exists.mp hno r] at hout
          exact hout rfl
        exact other (Pc.owes_of_isOpen hr) fun e => by simp [e, hpc, Pc.isOpen] at hr
      · simp [hg.calm q (by rw [hpc]; rfl)] at hc
    · rw [Pc.step_lh hp, Pc.header_of_not_owes (by simpa using hq)] at hn
      obtain ⟨r, hr⟩ := hs hn
      exact other hr fun e => hq (e ▸ hr)

/-- **Nothing logged is forgotten, and nobody waits for nothing.** In every interleaving, as long as the header has
entries some thread has an open operation or is on its way to the commit that empties it; and `begin_op` goes to sleep
only while another thread has an open operation or is committing. -/
theorem begin_op_waits_for_another [Fintype T] {start size : ℕ} {tr : List (State T × Label T)}
    (h : Lib.Path step Lib.free (boot start size) tr s) :
    (0 < s.log.lh.n → ∃ r, (s.pc r).owes = true) ∧
      ∀ q, s.pc q = .beginTest → ∀ s', step s (.step q) = some s' → s'.pc q = .beginAcquire →
        ∃ r, (s.pc r).isOpen = true ∨ (s.pc r).committer = true := by
  obtain ⟨hg, hn⟩ : Grouped s ∧ (0 < s.log.lh.n → ∃ r, (s.pc r).owes = true) :=
    h.inv (I := fun s => Grouped s ∧ (0 < s.log.lh.n → ∃ r, (s.pc r).owes = true))
      ⟨.boot _ _, fun h => by simp [boot, Logheader.empty] at h⟩
      fun s l _ hi _ hs => ⟨hi.1.step hs, owes_step hi.1 hi.2 hs⟩
  refine ⟨hn, fun q hq s' hs hback => ?_⟩
  by_contra hno
  simp only [not_exists, not_or, Bool.not_eq_true] at hno
  have hzero : s.log.lh.n = 0 := by
    by_contra h0
    obtain ⟨r, hr⟩ := hn (Nat.pos_of_ne_zero h0)
    -- the thread would hold the lock, which `q` holds
    have hlock : (s.pc r).locked = true := by
      have hno := hno r
      generalize s.pc r = pc at hno hr
      cases pc <;> grind [Pc.owes, Pc.locked, Pc.isOpen, Pc.committer, Pc.inCommit]
    have hrq : r = q := hg.holder (by rw [hq]; rfl) hlock
    rw [hrq, hq] at hr
    cases hr
  have hout : s.log.outstanding = 0 := by rw [hg.count, opened_eq_zero.mpr fun r => (hno r).1]; rfl
  have hcom : s.log.committing = false := by
    by_contra hc
    obtain ⟨r, hr⟩ := hg.flag.mp (by simpa using hc)
    simp [(hno r).2] at hr
  obtain rfl := by simpa [step, hq, Pc.step, hcom, hout, hzero] using hs
  simp [State.pc] at hback

/-- Three operations are open, and a fourth thread has to wait. -/
theorem begin_op_waits_for_another_three : ∃ tr s s', Lib.Path step Lib.free (boot 994 LOGSIZE : State (Fin 4)) tr s ∧
    step s (.step 3) = some s' ∧ s'.pc 3 = .beginAcquire ∧ ∃ r, (s.pc r).isOpen = true ∨ (s.pc r).committer = true := by
  obtain ⟨s, hp, hq, hs⟩ := Lib.exists_path step Lib.free (boot 994 LOGSIZE : State (Fin 4))
    (([0, 1, 2].flatMap fun q => .beginOp q :: .replicate 4 (.step q)) ++ [.beginOp 3, .step 3])
    (fun s => s.pc 3 = .beginTest ∧ ∃ t ∈ step s (.step 3), t.pc 3 = .beginAcquire) (by decide +kernel)
  obtain ⟨t, ht, hback⟩ := hs
  exact ⟨_, s, t, hp, ht, hback, (begin_op_waits_for_another hp).2 3 hq t ht hback⟩

end Waiting

end Xv6.Log
