import Xv6.Signal.Cstack

/-!
# Who owns a frame of a pending-signal stack

The frames of a stack are shared by any number of pushes and one consumer. `View` is a stack together with the calls in
progress on it; `CstackInv v L` says that `L` is the list from the head, and that every other used frame belongs to the
push that claimed it or to the consumer that popped it.
-/

namespace Xv6

open Function (update update_of_ne update_self)

/-- A stack and the calls in progress on it, for callers `κ` of `push`. -/
structure View (κ : Type*) where
  cs : Cstack
  pusher : κ → Option (Record × Push)
  popper : Option Pop
  /-- Frames that `pop` returned and that are still marked used. -/
  popped : FrameIx → Prop

/-- The invariant of a stack with many pushers and one consumer; `L` is the list from `head`. -/
structure CstackInv {κ : Type*} (v : View κ) (L : List FrameIx) : Prop where
  chain : Lib.Chain v.cs.next v.cs.head L
  nodup : L.Nodup
  usedList : ∀ i ∈ L, v.cs.used i = true
  usedPopped : ∀ i, v.popped i → v.cs.used i = true ∧ i ∉ L
  claimed : ∀ k r pc i, v.pusher k = some (r, pc) → pc.claims = some i →
    v.cs.used i = true ∧ i ∉ L ∧ ¬ v.popped i
  claimInj : ∀ k k' r r' pc pc' i, v.pusher k = some (r, pc) → v.pusher k' = some (r', pc') →
    pc.claims = some i → pc'.claims = some i → k = k'
  written : ∀ k r pc, v.pusher k = some (r, pc) → pc.Written v.cs r
  popNext : ∀ i, v.popper = some (.loadNext i) → i ∈ L
  popCas : ∀ i n, v.popper = some (.casHead i n) → i ∈ L ∧ v.cs.next i = n

namespace CstackInv

variable {κ : Type*} [DecidableEq κ] {v : View κ} {L : List FrameIx} {k : κ} {r : Record} {pc : Push} {i : FrameIx}

omit [DecidableEq κ] in
theorem empty : CstackInv (⟨Cstack.empty, fun _ => none, none, fun _ => False⟩ : View κ) [] where
  chain := rfl
  nodup := List.nodup_nil
  usedList := by simp
  usedPopped := by simp
  claimed := by simp
  claimInj := by simp
  written := by simp
  popNext := by simp
  popCas := by simp

theorem pushWrite (h : CstackInv v L) (hk : v.pusher k = some (r, pc)) (hi : pc.claims = some i) {cs' : Cstack}
    {pc' : Push} (hu : cs'.used = v.cs.used) (hh : cs'.head = v.cs.head)
    (hne : ∀ j, j ≠ i → cs'.record j = v.cs.record j ∧ cs'.next j = v.cs.next j)
    (hi' : pc'.claims = some i) (hw : pc'.Written cs' r) :
    CstackInv { v with cs := cs', pusher := update v.pusher k (some (r, pc')) } L := by
  obtain ⟨hui, hiL, hip⟩ := h.claimed k r pc i hk hi
  have hpush : ∀ k₁ r₁ pc₁, update v.pusher k (some (r, pc')) k₁ = some (r₁, pc₁) →
      (k₁ = k ∧ r₁ = r ∧ pc₁ = pc') ∨ (k₁ ≠ k ∧ v.pusher k₁ = some (r₁, pc₁)) := by
    intro k₁ r₁ pc₁ e
    by_cases hk₁ : k₁ = k
    · subst hk₁
      simp only [update_self, Option.some.injEq, Prod.mk.injEq] at e
      exact Or.inl ⟨rfl, e.1.symm, e.2.symm⟩
    · exact Or.inr ⟨hk₁, by rwa [update_of_ne hk₁] at e⟩
  -- the frame of another push is not `i`
  have hother : ∀ k₁ r₁ pc₁ j, k₁ ≠ k → v.pusher k₁ = some (r₁, pc₁) → pc₁.claims = some j → j ≠ i := by
    rintro k₁ r₁ pc₁ j hk₁ e hj rfl
    exact hk₁ (h.claimInj _ _ _ _ _ _ _ e hk hj hi)
  constructor
  · show Lib.Chain cs'.next cs'.head L
    rw [hh]
    exact h.chain.congr fun j hj => (hne j fun e => hiL (e ▸ hj)).2
  · exact h.nodup
  · show ∀ j ∈ L, cs'.used j = true
    rw [hu]; exact h.usedList
  · show ∀ j, v.popped j → cs'.used j = true ∧ j ∉ L
    rw [hu]; exact h.usedPopped
  · intro k₁ r₁ pc₁ j e hj
    show cs'.used j = true ∧ j ∉ L ∧ ¬ v.popped j
    rw [hu]
    rcases hpush _ _ _ e with ⟨-, -, rfl⟩ | ⟨-, e⟩
    · rw [hi', Option.some.injEq] at hj
      subst hj; exact ⟨hui, hiL, hip⟩
    · exact h.claimed _ _ _ _ e hj
  · intro k₁ k₂ r₁ r₂ pc₁ pc₂ j e₁ e₂ hj₁ hj₂
    rcases hpush _ _ _ e₁ with ⟨hk₁, -, hp₁⟩ | ⟨hk₁, e₁'⟩ <;> rcases hpush _ _ _ e₂ with ⟨hk₂, -, hp₂⟩ | ⟨hk₂, e₂'⟩
    · rw [hk₁, hk₂]
    · rw [hp₁, hi', Option.some.injEq] at hj₁
      exact absurd hj₁.symm (hother _ _ _ _ hk₂ e₂' hj₂)
    · rw [hp₂, hi', Option.some.injEq] at hj₂
      exact absurd hj₂.symm (hother _ _ _ _ hk₁ e₁' hj₁)
    · exact h.claimInj _ _ _ _ _ _ _ e₁' e₂' hj₁ hj₂
  · intro k₁ r₁ pc₁ e
    rcases hpush _ _ _ e with ⟨-, rfl, rfl⟩ | ⟨hk₁, e⟩
    · exact hw
    · exact (h.written _ _ _ e).congr fun j hj => hne j (hother _ _ _ _ hk₁ e hj)
  · exact h.popNext
  · intro j n e
    obtain ⟨hj, hn⟩ := h.popCas j n e
    exact ⟨hj, (hne j fun e => hiL (e ▸ hj)).2.trans hn⟩

theorem setPusher (h : CstackInv v L) {x : Option (Record × Push)} (hx : ∀ r pc, x = some (r, pc) → ∃ i, pc = .scan i) :
    CstackInv { v with pusher := update v.pusher k x } L := by
  have hpush : ∀ k₁ r₁ pc₁ j, update v.pusher k x k₁ = some (r₁, pc₁) → pc₁.claims = some j →
      v.pusher k₁ = some (r₁, pc₁) := by
    intro k₁ r₁ pc₁ j e hj
    by_cases hk₁ : k₁ = k
    · subst hk₁
      rw [update_self] at e
      obtain ⟨m, rfl⟩ := hx _ _ e
      simp [Push.claims] at hj
    · rwa [update_of_ne hk₁] at e
  refine ⟨h.chain, h.nodup, h.usedList, h.usedPopped, ?_, ?_, ?_, h.popNext, h.popCas⟩
  · intro k₁ r₁ pc₁ j e hj
    exact h.claimed _ _ _ _ (hpush _ _ _ _ e hj) hj
  · intro k₁ k₂ r₁ r₂ pc₁ pc₂ j e₁ e₂ hj₁ hj₂
    exact h.claimInj _ _ _ _ _ _ _ (hpush _ _ _ _ e₁ hj₁) (hpush _ _ _ _ e₂ hj₂) hj₁ hj₂
  · intro k₁ r₁ pc₁ e
    by_cases hk₁ : k₁ = k
    · subst hk₁
      obtain ⟨m, rfl⟩ := hx r₁ pc₁ (by simpa using e)
      exact trivial
    · exact h.written k₁ r₁ pc₁ (by simpa [update_of_ne hk₁] using e)

theorem pushClaim (h : CstackInv v L) (hu : v.cs.used i = false) :
    CstackInv { v with
      cs := { v.cs with used := update v.cs.used i true }
      pusher := update v.pusher k (some (r, .sender i)) } L := by
  have hiL : i ∉ L := fun hi => by simp [h.usedList i hi] at hu
  have hip : ¬ v.popped i := fun hi => by simp [(h.usedPopped i hi).1] at hu
  have hic : ∀ k₁ r₁ pc₁, v.pusher k₁ = some (r₁, pc₁) → pc₁.claims ≠ some i := fun k₁ r₁ pc₁ e hc => by
    simp [(h.claimed _ _ _ _ e hc).1] at hu
  have hused : ∀ j, v.cs.used j = true → update v.cs.used i true j = true := by
    intro j hj
    by_cases e : j = i
    · rw [e, update_self]
    · rwa [update_of_ne e]
  have hpush : ∀ k₁ r₁ pc₁ j, update v.pusher k (some (r, .sender i)) k₁ = some (r₁, pc₁) →
      pc₁.claims = some j → (k₁ = k ∧ j = i) ∨ (v.pusher k₁ = some (r₁, pc₁) ∧ j ≠ i) := by
    intro k₁ r₁ pc₁ j e hj
    by_cases hk₁ : k₁ = k
    · subst hk₁
      simp only [update_self, Option.some.injEq, Prod.mk.injEq] at e
      obtain ⟨-, rfl⟩ := e
      exact Or.inl ⟨rfl, by simpa [Push.claims] using hj.symm⟩
    · rw [update_of_ne hk₁] at e
      refine Or.inr ⟨e, ?_⟩
      rintro rfl
      exact hic _ _ _ e hj
  refine ⟨h.chain, h.nodup, fun j hj => hused j (h.usedList j hj),
    fun j hj => ⟨hused j (h.usedPopped j hj).1, (h.usedPopped j hj).2⟩, ?_, ?_, ?_, h.popNext, h.popCas⟩
  · intro k₁ r₁ pc₁ j e hj
    rcases hpush _ _ _ _ e hj with ⟨-, rfl⟩ | ⟨e, -⟩
    · exact ⟨update_self _ _ _, hiL, hip⟩
    · obtain ⟨h₁, h₂⟩ := h.claimed _ _ _ _ e hj
      exact ⟨hused j h₁, h₂⟩
  · intro k₁ k₂ r₁ r₂ pc₁ pc₂ j e₁ e₂ hj₁ hj₂
    rcases hpush _ _ _ _ e₁ hj₁ with ⟨hk₁, hji⟩ | ⟨e₁, hji⟩
    · rcases hpush _ _ _ _ e₂ hj₂ with ⟨hk₂, -⟩ | ⟨-, hji'⟩
      · rw [hk₁, hk₂]
      · exact absurd hji hji'
    · rcases hpush _ _ _ _ e₂ hj₂ with ⟨-, hji'⟩ | ⟨e₂, -⟩
      · exact absurd hji' hji
      · exact h.claimInj _ _ _ _ _ _ _ e₁ e₂ hj₁ hj₂
  · intro k₁ r₁ pc₁ e
    by_cases hk₁ : k₁ = k
    · subst hk₁
      simp only [update_self, Option.some.injEq, Prod.mk.injEq] at e
      obtain ⟨-, rfl⟩ := e
      exact trivial
    · refine (h.written k₁ r₁ pc₁ ?_).congr fun j _ => ⟨rfl, rfl⟩
      simpa [update_of_ne hk₁] using e

theorem pushLink (h : CstackInv v L) (hk : v.pusher k = some (r, .casHead i v.cs.head)) :
    CstackInv { v with
      cs := { v.cs with head := some i }
      pusher := update v.pusher k none } (i :: L) := by
  obtain ⟨hui, hiL, hip⟩ := h.claimed _ _ _ i hk rfl
  obtain ⟨-, hn⟩ := h.written _ _ _ hk
  have hpush : ∀ k₁ r₁ pc₁, update v.pusher k none k₁ = some (r₁, pc₁) →
      k₁ ≠ k ∧ v.pusher k₁ = some (r₁, pc₁) := by
    intro k₁ r₁ pc₁ e
    by_cases hk₁ : k₁ = k
    · subst hk₁; simp at e
    · exact ⟨hk₁, by rwa [update_of_ne hk₁] at e⟩
  constructor
  · exact h.chain.push hn
  · exact List.nodup_cons.mpr ⟨hiL, h.nodup⟩
  · intro j hj
    rcases List.mem_cons.mp hj with rfl | hj
    · exact hui
    · exact h.usedList j hj
  · intro j hj
    obtain ⟨hu, hjL⟩ := h.usedPopped j hj
    refine ⟨hu, ?_⟩
    rw [List.mem_cons, not_or]
    exact ⟨fun e => hip (e ▸ hj), hjL⟩
  · intro k₁ r₁ pc₁ j e hj
    obtain ⟨hk₁, e'⟩ := hpush _ _ _ e
    obtain ⟨h₁, h₂, h₃⟩ := h.claimed _ _ _ _ e' hj
    refine ⟨h₁, ?_, h₃⟩
    rw [List.mem_cons, not_or]
    refine ⟨fun hji => ?_, h₂⟩
    rw [hji] at hj
    exact hk₁ (h.claimInj _ _ _ _ _ _ _ e' hk hj rfl)
  · intro k₁ k₂ r₁ r₂ pc₁ pc₂ j e₁ e₂ hj₁ hj₂
    exact h.claimInj _ _ _ _ _ _ _ (hpush _ _ _ e₁).2 (hpush _ _ _ e₂).2 hj₁ hj₂
  · intro k₁ r₁ pc₁ e
    exact (h.written _ _ _ (hpush _ _ _ e).2).congr fun j _ => ⟨rfl, rfl⟩
  · exact fun j hj => List.mem_cons_of_mem _ (h.popNext j hj)
  · exact fun j n hj => ⟨List.mem_cons_of_mem _ (h.popCas j n hj).1, (h.popCas j n hj).2⟩

/-- **One step of a push.** A step that goes on keeps the list; a push that succeeds puts its record in front of the
list; a push that fails changes nothing. -/
theorem pushStep (h : CstackInv v L) (hk : v.pusher k = some (r, pc)) :
    match pc.step v.cs r with
    | (cs', .inl pc') => CstackInv { v with cs := cs', pusher := update v.pusher k (some (r, pc')) } L
    | (cs', .inr true) => ∃ i, CstackInv { v with cs := cs', pusher := update v.pusher k none } (i :: L) ∧
        cs'.record = v.cs.record ∧ v.cs.record i = r
    | (cs', .inr false) => CstackInv { v with pusher := update v.pusher k none } L ∧ cs' = v.cs := by
  have hwr := h.written _ _ _ hk
  cases pc with
  | scan i =>
    cases hu : v.cs.used i with
    | true =>
      cases hn : nextIx i with
      | some j =>
        have hs : Push.step v.cs r (.scan i) = (v.cs, .inl (.scan j)) := by simp [Push.step, hu, hn]
        rw [hs]
        exact h.setPusher fun r' pc' e => ⟨j, by simpa using (congrArg (·.map Prod.snd) e).symm⟩
      | none =>
        have hs : Push.step v.cs r (.scan i) = (v.cs, .inr false) := by simp [Push.step, hu, hn]
        rw [hs]
        exact ⟨h.setPusher fun r' pc' e => by simp at e, rfl⟩
    | false =>
      have hs : Push.step v.cs r (.scan i) =
          ({ v.cs with used := update v.cs.used i true }, .inl (.sender i)) := by simp [Push.step, hu]
      rw [hs]
      exact h.pushClaim hu
  | sender i =>
    refine h.pushWrite hk rfl rfl rfl (fun j hj => ⟨?_, rfl⟩) rfl (update_self _ _ _)
    simp [Cstack.record, update_of_ne hj]
  | recepient i =>
    refine h.pushWrite hk rfl rfl rfl (fun j hj => ⟨?_, rfl⟩) rfl ⟨hwr, update_self _ _ _⟩
    simp [Cstack.record, update_of_ne hj]
  | value i =>
    refine h.pushWrite hk rfl rfl rfl (fun j hj => ⟨?_, rfl⟩) rfl ?_
    · simp [Cstack.record, update_of_ne hj]
    · simp [Push.Written, Cstack.record, hwr.1, hwr.2]
  | loadHead i => exact h.pushWrite hk rfl rfl rfl (fun j hj => ⟨rfl, rfl⟩) rfl hwr
  | storeNext i n =>
    exact h.pushWrite hk rfl rfl rfl (fun j hj => ⟨rfl, update_of_ne hj _ _⟩) rfl hwr
  | loadNext i => exact h.pushWrite hk rfl rfl rfl (fun j hj => ⟨rfl, rfl⟩) rfl ⟨hwr, rfl⟩
  | casHead i n =>
    by_cases hh : v.cs.head = n
    · subst hh
      have hs : Push.step v.cs r (.casHead i v.cs.head) = ({ v.cs with head := some i }, .inr true) := by
        simp [Push.step]
      rw [hs]
      exact ⟨i, h.pushLink hk, rfl, hwr.1⟩
    · have hs : Push.step v.cs r (.casHead i n) = (v.cs, .inl (.loadHead i)) := by simp [Push.step, hh]
      rw [hs]
      exact h.pushWrite hk rfl rfl rfl (fun j hj => ⟨rfl, rfl⟩) rfl hwr.1

/-! ## The consumer -/

omit [DecidableEq κ] in
theorem setPopper (h : CstackInv v L) {x : Option Pop} (hx : x = none ∨ x = some .loadHead) :
    CstackInv { v with popper := x } L := by
  refine ⟨h.chain, h.nodup, h.usedList, h.usedPopped, h.claimed, h.claimInj, h.written, ?_, ?_⟩
  · rintro j (rfl : x = _); simp at hx
  · rintro j n (rfl : x = _); simp at hx

omit [DecidableEq κ] in
/-- **One step of a pop.** A step that goes on keeps the list, a pop that returns 0 has found it empty, and a pop
that returns a frame has taken the first one. -/
theorem popStep (h : CstackInv v L) {p : Pop} (hp : v.popper = some p) :
    match p.step v.cs with
    | (cs', .inl p') => CstackInv { v with popper := some p' } L ∧ cs' = v.cs
    | (cs', .inr none) => CstackInv { v with popper := none } L ∧ L = [] ∧ cs' = v.cs
    | (cs', .inr (some i)) => ∃ L', L = i :: L' ∧ cs'.record = v.cs.record ∧ ¬ v.popped i ∧
        CstackInv { v with cs := cs', popper := none, popped := fun j => j = i ∨ v.popped j } L' := by
  cases p with
  | loadHead =>
    cases hh : v.cs.head with
    | none =>
      have hs : Pop.step v.cs .loadHead = (v.cs, .inr none) := by simp [Pop.step, hh]
      rw [hs]
      exact ⟨h.setPopper (Or.inl rfl), Lib.Chain.of_none (hh ▸ h.chain), rfl⟩
    | some i =>
      have hs : Pop.step v.cs .loadHead = (v.cs, .inl (.loadNext i)) := by simp [Pop.step, hh]
      rw [hs]
      obtain ⟨L', rfl, -⟩ := Lib.Chain.of_some (hh ▸ h.chain)
      refine ⟨⟨h.chain, h.nodup, h.usedList, h.usedPopped, h.claimed, h.claimInj, h.written, ?_, ?_⟩, rfl⟩
      · intro j e
        obtain rfl : i = j := by simpa using e
        exact List.mem_cons_self
      · intro j n e
        simp at e
  | loadNext i =>
    refine ⟨⟨h.chain, h.nodup, h.usedList, h.usedPopped, h.claimed, h.claimInj, h.written, ?_, ?_⟩, rfl⟩
    · intro j e
      simp at e
    · intro j n e
      obtain ⟨rfl, rfl⟩ : i = j ∧ v.cs.next i = n := by simpa using e
      exact ⟨h.popNext i hp, rfl⟩
  | casHead i n =>
    by_cases hh : v.cs.head = some i
    · have hs : Pop.step v.cs (.casHead i n) = ({ v.cs with head := n }, .inr (some i)) := by simp [Pop.step, hh]
      rw [hs]
      obtain ⟨L', rfl, hc⟩ := Lib.Chain.of_some (hh ▸ h.chain)
      have hn : v.cs.next i = n := (h.popCas i n hp).2
      obtain ⟨hiL, hnd⟩ := List.nodup_cons.mp h.nodup
      have hip : ¬ v.popped i := fun hi => (h.usedPopped i hi).2 List.mem_cons_self
      refine ⟨L', rfl, rfl, hip, ?_⟩
      constructor
      · exact hn ▸ hc
      · exact hnd
      · exact fun j hj => h.usedList j (List.mem_cons_of_mem _ hj)
      · rintro j (rfl | hj)
        · exact ⟨h.usedList j List.mem_cons_self, hiL⟩
        · exact ⟨(h.usedPopped j hj).1, fun hjL => (h.usedPopped j hj).2 (List.mem_cons_of_mem _ hjL)⟩
      · intro k₁ r₁ pc₁ j e hj
        obtain ⟨h₁, h₂, h₃⟩ := h.claimed _ _ _ _ e hj
        rw [List.mem_cons, not_or] at h₂
        exact ⟨h₁, h₂.2, not_or.mpr ⟨h₂.1, h₃⟩⟩
      · exact h.claimInj
      · exact fun k₁ r₁ pc₁ e => (h.written _ _ _ e).congr fun j _ => ⟨rfl, rfl⟩
      · intro j e
        simp at e
      · intro j m e
        simp at e
    · have hs : Pop.step v.cs (.casHead i n) = (v.cs, .inl .loadHead) := by simp [Pop.step, hh]
      rw [hs]
      exact ⟨h.setPopper (Or.inr rfl), rfl⟩

omit [DecidableEq κ] in
theorem release (h : CstackInv v L) (hi : v.popped i) :
    CstackInv { v with
      cs := { v.cs with used := update v.cs.used i false }
      popped := fun j => v.popped j ∧ j ≠ i } L := by
  obtain ⟨-, hiL⟩ := h.usedPopped i hi
  have hused : ∀ j, j ≠ i → v.cs.used j = true → update v.cs.used i false j = true := by
    intro j hj hu
    rwa [update_of_ne hj]
  constructor
  · exact h.chain
  · exact h.nodup
  · intro j hj
    exact hused j (fun e => hiL (e ▸ hj)) (h.usedList j hj)
  · rintro j ⟨hj, hji⟩
    exact ⟨hused j hji (h.usedPopped j hj).1, (h.usedPopped j hj).2⟩
  · intro k₁ r₁ pc₁ j e hj
    obtain ⟨h₁, h₂, h₃⟩ := h.claimed _ _ _ _ e hj
    exact ⟨hused j (fun e => h₃ (e ▸ hi)) h₁, h₂, fun hp => h₃ hp.1⟩
  · exact h.claimInj
  · exact fun k₁ r₁ pc₁ e => (h.written _ _ _ e).congr fun j _ => ⟨rfl, rfl⟩
  · exact h.popNext
  · exact h.popCas

end CstackInv

end Xv6
