import Xv6.Lib.Linearizable
import Xv6.Signal.Owners

/-!
# The pending-signal stack is a linearizable LIFO stack

Any number of callers `κ` run `push`, one consumer runs `pop`, and the consumer may clear `used` of a frame that `pop`
has returned to it. `Client.step` interleaves their atomic steps.

- `Client.Inv` and `step_inv`: the run so far has a linearization that ends in the records of the list from `head`.
-/

namespace Xv6

open Lib
open Function (update update_eq_self update_of_ne)

/-- A stack, the calls in progress on it, and the numbers of these calls. -/
structure Client (κ : Type*) where
  cs : Cstack
  pusher : κ → Option (Record × Push)
  popper : Option Pop
  /-- Frames that `pop` returned and that the consumer has not given back. -/
  popped : FrameIx → Bool
  /-- How many calls were made; the number of the next one. -/
  calls : ℕ
  /-- The number of the last call of each caller; `none` is the consumer. -/
  no : Option κ → ℕ

/-- What a client can do next. -/
inductive ClientAct (κ : Type*)
  | callPush (k : κ) (r : Record)
  | push (k : κ)
  | callPop
  | pop
  | release (i : FrameIx)

inductive StackOp
  | push (r : Record)
  | pop
  deriving DecidableEq

inductive StackRes
  | pushed (b : Bool)
  | popped (r : Option Record)
  deriving DecidableEq

/-- The sequential specification. -/
def Lifo : List Record → StackOp → StackRes → List Record → Prop
  | s, .push r, .pushed true, s' => s' = r :: s
  | s, .push _, .pushed false, s' => s' = s
  | s, .pop, .popped (some r), s' => s = r :: s'
  | s, .pop, .popped none, s' => s = [] ∧ s' = []
  | _, _, _, _ => False

namespace Client

variable {κ : Type*}

/-- The empty stack, before any call. -/
def init : Client κ := ⟨Cstack.empty, fun _ => none, none, fun _ => false, 0, fun _ => 0⟩

def view (s : Client κ) : View κ := ⟨s.cs, s.pusher, s.popper, fun i => s.popped i = true⟩

/-- One atomic step of a caller or of the consumer. -/
def step [DecidableEq κ] (s : Client κ) : ClientAct κ → Option (Client κ)
  | .callPush k r =>
    match s.pusher k with
    | some _ => none
    | none => some { s with
        pusher := update s.pusher k (some (r, .scan 0))
        calls := s.calls + 1
        no := update s.no (some k) s.calls }
  | .push k =>
    match s.pusher k with
    | none => none
    | some (r, pc) =>
      match pc.step s.cs r with
      | (cs', .inl pc') => some { s with cs := cs', pusher := update s.pusher k (some (r, pc')) }
      | (cs', .inr _) => some { s with cs := cs', pusher := update s.pusher k none }
  | .callPop =>
    match s.popper with
    | some _ => none
    | none => some { s with
        popper := some .loadHead
        calls := s.calls + 1
        no := update s.no none s.calls }
  | .pop =>
    match s.popper with
    | none => none
    | some p =>
      match p.step s.cs with
      | (cs', .inl p') => some { s with cs := cs', popper := some p' }
      | (cs', .inr none) => some { s with cs := cs', popper := none }
      | (cs', .inr (some i)) => some { s with
          cs := cs', popper := none, popped := update s.popped i true }
  | .release i =>
    if s.popped i then
      some { s with
        cs := { s.cs with used := update s.cs.used i false }
        popped := update s.popped i false }
    else none

/-- The call or return that a step makes. -/
def event (s : Client κ) : ClientAct κ → Option (HEvent StackOp StackRes)
  | .callPush _ r => some (.call s.calls (.push r))
  | .push k =>
    match s.pusher k with
    | none => none
    | some (r, pc) =>
      match (pc.step s.cs r).2 with
      | .inl _ => none
      | .inr b => some (.ret (s.no (some k)) (.pushed b))
  | .callPop => some (.call s.calls .pop)
  | .pop =>
    match s.popper with
    | none => none
    | some p =>
      match (p.step s.cs).2 with
      | .inl _ => none
      | .inr o => some (.ret (s.no none) (.popped (o.map s.cs.record)))
  | .release _ => none

def hist (tr : List (Client κ × ClientAct κ)) : List (HEvent StackOp StackRes) :=
  tr.filterMap fun e => event e.1 e.2

theorem hist_snoc (tr : List (Client κ × ClientAct κ)) (s : Client κ) (a : ClientAct κ) :
    hist (tr ++ [(s, a)]) = hist tr ++ (event s a).toList := by
  unfold hist
  rw [List.filterMap_append]
  cases h : event s a <;> simp [h]

/-! ## The invariant of runs -/

/-- The operation that a caller, or the consumer (`none`), is in. -/
def active (s : Client κ) : Option κ → Option StackOp
  | some k => (s.pusher k).map fun x => .push x.1
  | none => s.popper.map fun _ => .pop

/-- The calls in progress were made, have numbers of their own, and are not yet in the order. -/
structure Pending (s : Client κ) (h : List (HEvent StackOp StackRes)) (ids : List ℕ) : Prop where
  numbers : ∀ n o, HEvent.call n o ∈ h → n < s.calls
  called : ∀ c o, s.active c = some o → HEvent.call (s.no c) o ∈ h ∧ s.no c ∉ ids
  inj : ∀ c c' o o', s.active c = some o → s.active c' = some o' → s.no c = s.no c' → c = c'

/-- **The invariant.** The run has a linearization ending in the records of the list from the head. -/
def Inv (tr : List (Client κ × ClientAct κ)) (s : Client κ) : Prop :=
  ∃ L order, CstackInv s.view L ∧ Linearization Lifo [] (hist tr) order (L.map s.cs.record) ∧
    Pending s (hist tr) (order.map (·.1))

theorem init_inv : Inv [] (init : Client κ) := by
  refine ⟨[], [], ?_, Linearization.empty _ _, ?_⟩
  · have h : CstackInv (⟨Cstack.empty, fun _ => none, none, fun _ => False⟩ : View κ) [] := .empty
    simpa [view, init] using h
  · have hact : ∀ c, (init : Client κ).active c = none := fun c => by cases c <;> rfl
    constructor <;> simp [hact, hist]

theorem Pending.next {s s' : Client κ} {h es : List (HEvent StackOp StackRes)} {ids new : List ℕ}
    (hp : Pending s h ids) (hc : s'.calls = s.calls) (hn : s'.no = s.no)
    (hact : ∀ c o, s'.active c = some o → s.active c = some o ∧ s.no c ∉ new)
    (hes : ∀ n o, HEvent.call n o ∉ es) : Pending s' (h ++ es) (ids ++ new) := by
  constructor
  · intro n o hmem
    rw [hc]
    rcases List.mem_append.mp hmem with hmem | hmem
    · exact hp.numbers n o hmem
    · exact absurd hmem (hes n o)
  · intro c o e
    obtain ⟨h₁, h₂⟩ := hp.called c o (hact c o e).1
    rw [hn]
    refine ⟨List.mem_append_left _ h₁, ?_⟩
    rw [List.mem_append, not_or]
    exact ⟨h₂, (hact c o e).2⟩
  · intro c c' o o' e e' hno
    rw [hn] at hno
    exact hp.inj c c' o o' (hact c o e).1 (hact c' o' e').1 hno

theorem Pending.call [DecidableEq κ] {s s' : Client κ} {h : List (HEvent StackOp StackRes)} {ids : List ℕ}
    {c : Option κ} {o : StackOp} (hp : Pending s h ids) (hids : ∀ n ∈ ids, n < s.calls)
    (hc : s'.calls = s.calls + 1) (hn : s'.no = update s.no c s.calls)
    (hact : s'.active = update s.active c (some o)) : Pending s' (h ++ [.call s.calls o]) ids := by
  have hlt : ∀ c₁ o₁, s.active c₁ = some o₁ → s.no c₁ < s.calls := fun c₁ o₁ e =>
    hp.numbers _ _ (hp.called c₁ o₁ e).1
  have hother : ∀ c₁, c₁ ≠ c → s'.active c₁ = s.active c₁ ∧ s'.no c₁ = s.no c₁ := fun c₁ hc₁ => by
    simp [hact, hn, hc₁]
  have hself : s'.active c = some o ∧ s'.no c = s.calls := by simp [hact, hn]
  constructor
  · intro n o₁ hmem
    rw [hc]
    rcases List.mem_append.mp hmem with hmem | hmem
    · exact Nat.lt_succ_of_lt (hp.numbers n o₁ hmem)
    · obtain ⟨rfl, -⟩ : n = s.calls ∧ o₁ = o := by simpa using hmem
      exact Nat.lt_succ_self _
  · intro c₁ o₁ e
    by_cases hc₁ : c₁ = c
    · subst hc₁
      obtain rfl : o = o₁ := by simpa [hself.1] using e
      rw [hself.2]
      exact ⟨List.mem_append_right _ (by simp), fun hmem => Nat.lt_irrefl _ (hids _ hmem)⟩
    · rw [(hother c₁ hc₁).1] at e
      rw [(hother c₁ hc₁).2]
      obtain ⟨h₁, h₂⟩ := hp.called c₁ o₁ e
      exact ⟨List.mem_append_left _ h₁, h₂⟩
  · intro c₁ c₂ o₁ o₂ e₁ e₂ hno
    by_cases hc₁ : c₁ = c <;> by_cases hc₂ : c₂ = c
    · rw [hc₁, hc₂]
    · rw [(hother c₂ hc₂).1] at e₂
      rw [hc₁, hself.2, (hother c₂ hc₂).2] at hno
      exact absurd (hlt c₂ o₂ e₂) (by omega)
    · rw [(hother c₁ hc₁).1] at e₁
      rw [hc₂, hself.2, (hother c₁ hc₁).2] at hno
      exact absurd (hlt c₁ o₁ e₁) (by omega)
    · rw [(hother c₁ hc₁).1] at e₁
      rw [(hother c₂ hc₂).1] at e₂
      rw [(hother c₁ hc₁).2, (hother c₂ hc₂).2] at hno
      exact hp.inj c₁ c₂ o₁ o₂ e₁ e₂ hno

section Steps

variable {s s' : Client κ} {tr : List (Client κ × ClientAct κ)} {a : ClientAct κ}

theorem inv_call [DecidableEq κ] {c : Option κ} {o : StackOp} (hI : Inv tr s) (he : event s a = some (.call s.calls o))
    (hcs : s'.cs = s.cs) (hinv : ∀ L, CstackInv s.view L → CstackInv s'.view L) (hc : s'.calls = s.calls + 1)
    (hn : s'.no = update s.no c s.calls) (hact : s'.active = update s.active c (some o)) :
    Inv (tr ++ [(s, a)]) s' := by
  obtain ⟨L, order, hL, hl, hp⟩ := hI
  have hids : ∀ n ∈ order.map (·.1), n < s.calls := by
    intro n hn
    obtain ⟨e, he, rfl⟩ := List.mem_map.mp hn
    exact hp.numbers _ _ (hl.called e he)
  refine ⟨L, order, hinv L hL, ?_, ?_⟩ <;> rw [hist_snoc, he, Option.toList_some]
  · rw [hcs]
    exact hl.call fun o' ho' => Nat.lt_irrefl _ (hp.numbers _ _ ho')
  · exact hp.call hids hc hn hact

theorem inv_silent (hI : Inv tr s) (he : event s a = none)
    (hinv : ∀ L, CstackInv s.view L → CstackInv s'.view L ∧ ∀ i ∈ L, s'.cs.record i = s.cs.record i)
    (hc : s'.calls = s.calls) (hn : s'.no = s.no) (hact : s'.active = s.active) : Inv (tr ++ [(s, a)]) s' := by
  obtain ⟨L, order, hL, hl, hp⟩ := hI
  obtain ⟨hL', hrec⟩ := hinv L hL
  refine ⟨L, order, hL', ?_, ?_⟩ <;> rw [hist_snoc, he, Option.toList_none]
  · rw [List.append_nil, List.map_congr_left hrec]
    exact hl
  · have h : Pending s' (hist tr ++ []) (order.map (·.1) ++ []) :=
      hp.next hc hn (fun c o e => ⟨hact ▸ e, by simp⟩) (by simp)
    simpa using h

theorem inv_effect [DecidableEq κ] {c : Option κ} {o : StackOp} {r : StackRes} (hI : Inv tr s)
    (he : event s a = some (.ret (s.no c) r)) (ho : s.active c = some o)
    (hinv : ∀ L, CstackInv s.view L →
      ∃ L', CstackInv s'.view L' ∧ Lifo (L.map s.cs.record) o r (L'.map s'.cs.record))
    (hc : s'.calls = s.calls) (hn : s'.no = s.no) (hact : s'.active = update s.active c none) :
    Inv (tr ++ [(s, a)]) s' := by
  obtain ⟨L, order, hL, hl, hp⟩ := hI
  obtain ⟨L', hL', hspec⟩ := hinv L hL
  obtain ⟨hcall, hnew⟩ := hp.called c o ho
  refine ⟨L', order ++ [(s.no c, o, r)], hL', ?_, ?_⟩ <;> rw [hist_snoc, he, Option.toList_some]
  · exact (hl.point hcall hnew hspec).ret (o := o) (List.mem_append_right _ (by simp))
  · rw [List.map_append]
    refine hp.next hc hn ?_ (by simp)
    intro c₁ o₁ e
    by_cases hc₁ : c₁ = c
    · subst hc₁
      simp [hact] at e
    · rw [hact, update_of_ne hc₁] at e
      refine ⟨e, ?_⟩
      rw [List.map_cons, List.map_nil, List.mem_singleton]
      exact fun hno => hc₁ (hp.inj c₁ c o₁ o e ho hno)

variable [DecidableEq κ]

theorem active_update_pusher (s : Client κ) (cs : Cstack) (k : κ) (x : Option (Record × Push)) (n : ℕ)
    (no : Option κ → ℕ) :
    active { s with cs := cs, pusher := update s.pusher k x, calls := n, no := no } =
      update s.active (some k) (x.map fun y => .push y.1) := by
  funext c
  cases c with
  | none => simp [active]
  | some k₁ =>
    by_cases hk : k₁ = k
    · subst hk; simp [active]
    · simp [active, hk]

theorem active_update_popper (s : Client κ) (cs : Cstack) (x : Option Pop) (f : FrameIx → Bool) (n : ℕ)
    (no : Option κ → ℕ) :
    active { s with cs := cs, popper := x, popped := f, calls := n, no := no } =
      update s.active none (x.map fun _ => .pop) := by
  funext c
  cases c <;> simp [active]

theorem step_inv (hI : Inv tr s) (hs : step s a = some s') : Inv (tr ++ [(s, a)]) s' := by
  cases a with
  | callPush k r =>
    cases hk : s.pusher k with
    | some x => simp [step, hk] at hs
    | none =>
      obtain rfl : _ = s' := by simpa [step, hk] using hs
      refine inv_call hI rfl rfl (fun L hL => ?_) rfl rfl (active_update_pusher s s.cs k _ _ _)
      exact hL.setPusher fun r' pc' e => ⟨0, by simpa using (congrArg (·.map Prod.snd) e).symm⟩
  | push k =>
    cases hk : s.pusher k with
    | none => simp [step, hk] at hs
    | some x =>
      obtain ⟨r, pc⟩ := x
      have hact : s.active (some k) = some (.push r) := by simp [active, hk]
      have hpush := fun L (hL : CstackInv s.view L) => hL.pushStep hk
      simp only [view] at hpush
      rcases hstep : pc.step s.cs r with ⟨cs', pc' | b⟩
      · obtain rfl : _ = s' := by simpa [step, hk, hstep] using hs
        refine inv_silent hI (by simp [event, hk, hstep]) (fun L hL => ?_) rfl rfl ?_
        · have h := hpush L hL
          rw [hstep] at h
          refine ⟨h, fun i hi => ?_⟩
          have hrec : (pc.step s.cs r).1.record i = s.cs.record i :=
            Push.step_record fun hc => (hL.claimed k r pc i hk hc).2.1 hi
          rwa [hstep] at hrec
        · rw [active_update_pusher s cs' k _ s.calls s.no, Option.map_some, ← hact, update_eq_self]
      · obtain rfl : _ = s' := by simpa [step, hk, hstep] using hs
        refine inv_effect hI (c := some k) (r := .pushed b) (by simp [event, hk, hstep]) hact (fun L hL => ?_) rfl rfl
          (active_update_pusher s cs' k none s.calls s.no)
        have h := hpush L hL
        cases b with
        | true =>
          simp only [hstep] at h
          obtain ⟨i, hL', hrec, hi⟩ := h
          exact ⟨i :: L, hL', by simp [Lifo, hrec, hi]⟩
        | false =>
          simp only [hstep] at h
          obtain ⟨hL', rfl⟩ := h
          exact ⟨L, hL', rfl⟩
  | callPop =>
    cases hp : s.popper with
    | some x => simp [step, hp] at hs
    | none =>
      obtain rfl : _ = s' := by simpa [step, hp] using hs
      refine inv_call hI rfl rfl (fun L hL => ?_) rfl rfl (active_update_popper s s.cs _ s.popped _ _)
      exact hL.setPopper (Or.inr rfl)
  | pop =>
    cases hp : s.popper with
    | none => simp [step, hp] at hs
    | some p =>
      have hact : s.active none = some .pop := by simp [active, hp]
      have hpop := fun L (hL : CstackInv s.view L) => hL.popStep hp
      simp only [view] at hpop
      rcases hstep : p.step s.cs with ⟨cs', p' | o⟩
      · obtain rfl : _ = s' := by simpa [step, hp, hstep] using hs
        refine inv_silent hI (by simp [event, hp, hstep]) (fun L hL => ?_) rfl rfl ?_
        · have h := hpop L hL
          simp only [hstep] at h
          obtain ⟨hL', rfl⟩ := h
          exact ⟨hL', fun _ _ => rfl⟩
        · rw [active_update_popper s cs' _ s.popped s.calls s.no, Option.map_some, ← hact, update_eq_self]
      · cases o with
        | none =>
          obtain rfl : _ = s' := by simpa [step, hp, hstep] using hs
          refine inv_effect hI (c := none) (o := .pop) (r := .popped none) (by simp [event, hp, hstep]) hact
            (fun L hL => ?_) rfl rfl (active_update_popper s cs' none s.popped s.calls s.no)
          have h := hpop L hL
          simp only [hstep] at h
          obtain ⟨hL', rfl, rfl⟩ := h
          exact ⟨[], hL', rfl, rfl⟩
        | some i =>
          obtain rfl : _ = s' := by simpa [step, hp, hstep] using hs
          refine inv_effect hI (c := none) (o := .pop) (r := .popped (some (s.cs.record i)))
            (by simp [event, hp, hstep]) hact (fun L hL => ?_) rfl rfl
            (active_update_popper s cs' none _ s.calls s.no)
          have h := hpop L hL
          simp only [hstep] at h
          obtain ⟨L', rfl, hrec, -, hL'⟩ := h
          refine ⟨L', ?_, by simp [Lifo, hrec]⟩
          have hpd : (fun j => update s.popped i true j = true) = fun j => j = i ∨ s.popped j = true := by
            funext j
            by_cases hj : j = i <;> simp [hj]
          simpa [view, hpd] using hL'
  | release i =>
    by_cases hi : s.popped i = true
    · obtain rfl : _ = s' := by simpa [step, hi] using hs
      refine inv_silent hI rfl (fun L hL => ⟨?_, fun _ _ => rfl⟩) rfl rfl rfl
      have hpd : (fun j => update s.popped i false j = true) = fun j => s.popped j = true ∧ j ≠ i := by
        funext j
        by_cases hj : j = i <;> simp [hj]
      simpa [view, hpd] using hL.release hi
    · simp [step, hi] at hs

theorem popped_record {L : List FrameIx} (hL : CstackInv s.view L) (hs : step s a = some s') {i : FrameIx}
    (hi : s.popped i = true) : s'.cs.record i = s.cs.record i := by
  cases a with
  | callPush k r =>
    cases hk : s.pusher k with
    | some x => simp [step, hk] at hs
    | none => obtain rfl : _ = s' := by simpa [step, hk] using hs
              rfl
  | push k =>
    cases hk : s.pusher k with
    | none => simp [step, hk] at hs
    | some x =>
      obtain ⟨r, pc⟩ := x
      have hrec : (pc.step s.cs r).1.record i = s.cs.record i :=
        Push.step_record fun hc => (hL.claimed k r pc i hk hc).2.2 hi
      rcases hstep : pc.step s.cs r with ⟨cs', pc' | b⟩ <;> rw [hstep] at hrec <;>
        obtain rfl : _ = s' := by simpa [step, hk, hstep] using hs
      all_goals exact hrec
  | callPop =>
    cases hp : s.popper with
    | some x => simp [step, hp] at hs
    | none => obtain rfl : _ = s' := by simpa [step, hp] using hs
              rfl
  | pop =>
    cases hp : s.popper with
    | none => simp [step, hp] at hs
    | some p =>
      have h := hL.popStep hp
      rcases hstep : p.step s.cs with ⟨cs', p' | _ | j⟩ <;> simp only [view, hstep] at h <;>
        obtain rfl : _ = s' := by simpa [step, hp, hstep] using hs
      · rw [h.2]
      · rw [h.2.2]
      · obtain ⟨L', -, hrec, -⟩ := h
        exact congrFun hrec i
  | release j =>
    by_cases hj : s.popped j = true
    · obtain rfl : _ = s' := by simpa [step, hj] using hs
      rfl
    · simp [step, hj] at hs

end Steps

/-! ## The laws of the stack -/

/-- How often `r` was pushed, in an order of operations. -/
def pushes (r : Record) (order : List (ℕ × StackOp × StackRes)) : ℕ :=
  order.countP fun e => e.2 = (.push r, .pushed true)

/-- How often `r` was returned by a pop. -/
def pops (r : Record) (order : List (ℕ × StackOp × StackRes)) : ℕ :=
  order.countP fun e => e.2 = (.pop, .popped (some r))

theorem exec_count {l l' : List Record} {order : List (ℕ × StackOp × StackRes)} (h : Exec Lifo l order l')
    (r : Record) : l.count r + pushes r order = pops r order + l'.count r := by
  induction h with
  | nil => simp [pushes, pops]
  | @snoc order t u n o res _ hs ih =>
    simp only [pushes, pops, List.countP_append, List.countP_singleton] at ih ⊢
    cases o with
    | push q =>
      cases res with
      | popped x => cases x <;> exact absurd hs id
      | pushed b =>
        cases b with
        | false =>
          obtain rfl : u = t := hs
          simpa using ih
        | true =>
          obtain rfl : u = q :: t := hs
          by_cases hq : q = r
          · simp [hq]; omega
          · simp [hq]; omega
    | pop =>
      cases res with
      | pushed b => cases b <;> exact absurd hs id
      | popped x =>
        cases x with
        | none =>
          obtain ⟨rfl, rfl⟩ := hs
          simpa using ih
        | some q =>
          obtain rfl : t = q :: u := hs
          rw [List.count_cons] at ih
          by_cases hq : q = r
          · simp [hq] at ih ⊢; omega
          · simp [hq] at ih ⊢; omega

/-- The laws of the stack, in a state `s` reached by the run `tr`. -/
structure StackLaws [DecidableEq κ] (tr : List (Client κ × ClientAct κ)) (s : Client κ) : Prop where
  /-- The list from `head` is acyclic, has no duplicates and only used frames; its records are what remains of an
  order of all operations that took effect, each push putting its record on top and each pop returning the top. -/
  lifo : ∃ L order, Chain s.cs.next s.cs.head L ∧ L.Nodup ∧ (∀ i ∈ L, s.cs.used i = true) ∧
    Linearization Lifo [] (hist tr) order (L.map s.cs.record) ∧
    ∀ r, pushes r order = pops r order + (L.map s.cs.record).count r
  /-- A pop returns 0 only at its load of `head`, and only if the list is empty there. -/
  popEmpty : ∀ t a n, (t, a) ∈ tr → event t a = some (.ret n (.popped none)) →
    t.popper = some .loadHead ∧ t.cs.head = none
  /-- The record of a popped frame does not change before the consumer gives the frame back. -/
  kept : ∀ a s' i, step s a = some s' → s.popped i = true → s'.cs.record i = s.cs.record i

theorem event_popEmpty {t : Client κ} {a : ClientAct κ} {n : ℕ}
    (h : event t a = some (.ret n (.popped none))) : t.popper = some .loadHead ∧ t.cs.head = none := by
  cases a with
  | callPush k r => simp [event] at h
  | push k =>
    simp only [event] at h
    split at h
    · simp at h
    · split at h <;> simp at h
  | callPop => simp [event] at h
  | release i => simp [event] at h
  | pop =>
    cases hp : t.popper with
    | none => simp [event, hp] at h
    | some p =>
      cases p with
      | loadHead =>
        cases hh : t.cs.head with
        | none => exact ⟨rfl, rfl⟩
        | some i => simp [event, hp, Pop.step, hh] at h
      | loadNext i => simp [event, hp, Pop.step] at h
      | casHead i m =>
        by_cases hh : t.cs.head = some i <;> simp [event, hp, Pop.step, hh] at h

/-- **The pending-signal stack is a linearizable LIFO stack** for any number of pushes and one consumer. -/
theorem cstack_linearizable [DecidableEq κ] {tr : List (Client κ × ClientAct κ)} {s : Client κ}
    (h : Path step free init tr s) : StackLaws tr s := by
  obtain ⟨L, order, hL, hl, -⟩ := h.inv_trace init_inv fun tr s a s' hI _ hs => step_inv hI hs
  refine ⟨⟨L, order, hL.chain, hL.nodup, hL.usedList, hl, fun r => ?_⟩, ?_, ?_⟩
  · simpa using exec_count hl.legal r
  · exact fun t a n _ he => event_popEmpty he
  · exact fun a s' i hs hi => popped_record hL hs hi

/-- Two callers push, the second one completely inside the first call, and the consumer pops: the run is possible
and has the laws. -/
theorem cstack_linearizable_pop : ∃ (tr : List (Client (Fin 2) × ClientAct (Fin 2))) (s : Client (Fin 2)),
    Path step free init tr s ∧ s.cs.head = some 1 ∧ s.popped 0 = true ∧ StackLaws tr s := by
  obtain ⟨s, hs, hhead, hpop⟩ := exists_path step free init
    ([.callPush 0 ⟨3, 4, 5⟩, .push 0, .callPush 1 ⟨6, 4, 7⟩] ++ List.replicate 9 (.push 1) ++
      List.replicate 7 (.push 0) ++ [.callPop] ++ List.replicate 3 .pop)
    (fun s : Client (Fin 2) => s.cs.head = some 1 ∧ s.popped 0 = true) (by decide)
  exact ⟨_, s, hs, hhead, hpop, cstack_linearizable hs⟩

end Client

end Xv6
