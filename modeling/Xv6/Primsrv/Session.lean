import Xv6.Primsrv.Machine

/-!
# No result of the prime server is lost

What happens to one worker is a *session*: it is found idle, is given a number, computes, answers, and the main process
handles its answer. `State.view` takes out of the state what concerns one worker, over all processes, and `Session`
lists the stages.
-/

namespace Xv6.Primsrv

open Lib
open Function (update update_of_ne update_self)

/-! ## Sessions -/

/-- At work on a request. -/
def WorkerAt.busy : WorkerAt → Option WorkerAt
  | .pause | .exited => none
  | pc => some pc

/-- At work on giving the worker `i` a request. -/
def MainAt.giving {n : ℕ} (i : Fin n) : MainAt n → Option (MainAt n)
  | .mark x j => if j = i then some (.mark x j) else none
  | .store x j => if j = i then some (.store x j) else none
  | .send x j => if j = i then some (.send x j) else none
  | _ => none

/-- What concerns one worker. -/
structure View (n : ℕ) where
  working : Bool
  inputX : Word
  given : Option Word
  requests : List Signal
  busy : Option WorkerAt
  results : List Signal
  handler : Option (Handler n)
  giving : Option (MainAt n)

/-- The part of the state that concerns the worker `i`. -/
def State.view (S : Server) (s : State S.n) (i : Fin S.n) : View S.n where
  working := s.working i
  inputX := s.inputX i
  given := s.given i
  requests := (s.pending (some i)).filter fun sig => sig.value ≠ 0
  busy := (s.worker i).busy
  results := (s.pending none).filter fun sig => sig.sender = S.pid i
  handler := s.handling.filter fun h => h.sig.sender = S.pid i
  giving := s.main.giving i

/-- The stages of a session of the worker `i`; `lossy` says whether results can be lost. -/
inductive Session (S : Server) (i : Fin S.n) (lossy : Prop) : View S.n → Prop
  | idle (x : Word) (g : Option Word) : Session S i lossy ⟨false, x, g, [], none, [], none, none⟩
  | found {y : Word} (hy : y ≠ 0) (x : Word) (g : Option Word) :
      Session S i lossy ⟨false, x, g, [], none, [], none, some (.mark y i)⟩
  | marked {y : Word} (hy : y ≠ 0) (x : Word) (g : Option Word) :
      Session S i lossy ⟨true, x, g, [], none, [], none, some (.store y i)⟩
  | stored {y : Word} (hy : y ≠ 0) (g : Option Word) :
      Session S i lossy ⟨true, y, g, [], none, [], none, some (.send y i)⟩
  | asked (x : Word) : Session S i lossy ⟨true, x, some x, [⟨S.mainPid, x⟩], none, [], none, none⟩
  | computing (x : Word) :
      Session S i lossy ⟨true, x, some x, [], some (.compute ⟨S.mainPid, x⟩), [], none, none⟩
  | answering {x c : Word} (hc : Computes x c) :
      Session S i lossy ⟨true, x, some x, [], some (.send S.mainPid c), [], none, none⟩
  | answered {x c : Word} (hc : Computes x c) :
      Session S i lossy ⟨true, x, some x, [], none, [⟨S.pid i, c⟩], none, none⟩
  | handling {x c : Word} (hc : Computes x c) {k : ℕ} (hk : k ≤ i) :
      Session S i lossy ⟨true, x, some x, [], none, [], some ⟨⟨S.pid i, c⟩, .look k⟩, none⟩
  | printed {x c : Word} (hc : Computes x c) :
      Session S i lossy ⟨true, x, some x, [], none, [], some ⟨⟨S.pid i, c⟩, .clear i⟩, none⟩
  | lost (hl : lossy) (x : Word) : Session S i lossy ⟨true, x, some x, [], none, [], none, none⟩

def MainAt.number {n : ℕ} : MainAt n → Option Word
  | .scan x _ | .mark x _ | .store x _ | .send x _ => some x
  | _ => none

/-- Before the input 0. -/
def MainAt.running {n : ℕ} : MainAt n → Bool
  | .quit _ | .wait => false
  | _ => true

structure Inv (S : Server) (lossy : Prop) (s : State S.n) : Prop where
  session : ∀ i, Session S i lossy (s.view S i)
  senders : ∀ sig ∈ s.pending none, ∃ i, sig.sender = S.pid i
  handler : ∀ h ∈ s.handling, ∃ i, h.sig.sender = S.pid i
  number : ∀ x ∈ s.main.number, x ≠ 0
  zeros : s.main.running = true → ∀ i, ∀ sig ∈ s.pending (some i), sig.value ≠ 0
  lines : ∀ l ∈ s.lines, l.given = some l.inputX ∧ Computes l.inputX l.value

/-! ### The course of a session -/

namespace Session

variable {S : Server} {lossy : Prop} {i : Fin S.n} {v : View S.n} {y c : Word} {sig : Signal} {k : ℕ}

theorem find (h : Session S i lossy v) (hw : v.working = false) (hg : v.giving = none) (hy : y ≠ 0) :
    Session S i lossy { v with giving := some (.mark y i) } := by
  cases h with
  | idle x g => exact .found hy x g
  | found => simp at hg
  | _ => simp at hw

theorem mark (h : Session S i lossy v) (hg : v.giving = some (.mark y i)) :
    Session S i lossy { v with working := true, giving := some (.store y i) } := by
  cases h with
  | found hy x g =>
    obtain rfl := by simpa using hg
    exact .marked hy x g
  | _ => simp at hg

theorem store (h : Session S i lossy v) (hg : v.giving = some (.store y i)) :
    Session S i lossy { v with inputX := y, giving := some (.send y i) } := by
  cases h with
  | marked hy x g =>
    obtain rfl := by simpa using hg
    exact .stored hy g
  | _ => simp at hg

theorem send (h : Session S i lossy v) (hg : v.giving = some (.send y i)) :
    v.requests = [] ∧
      Session S i lossy { v with given := some y, requests := [⟨S.mainPid, y⟩], giving := none } := by
  cases h with
  | stored hy g =>
    obtain rfl := by simpa using hg
    exact ⟨rfl, .asked _⟩
  | _ => simp at hg

theorem receive {rest : List Signal} (h : Session S i lossy v) (hr : v.requests = sig :: rest) :
    Session S i lossy { v with requests := rest, busy := some (.compute sig) } := by
  cases h with
  | asked x =>
    obtain ⟨rfl, rfl⟩ := by simpa using hr
    exact .computing x
  | _ => simp at hr

theorem compute (h : Session S i lossy v) (hb : v.busy = some (.compute sig)) (hc : Computes sig.value c) :
    Session S i lossy { v with busy := some (.send sig.sender c) } := by
  cases h with
  | computing x =>
    obtain rfl := by simpa using hb
    exact .answering hc
  | _ => simp at hb

theorem answer {m : Word} (h : Session S i lossy v) (hb : v.busy = some (.send m c)) :
    m = S.mainPid ∧ v.results = [] ∧ Session S i lossy { v with busy := none, results := [⟨S.pid i, c⟩] } ∧
      (lossy → Session S i lossy { v with busy := none }) := by
  cases h with
  | answering hc =>
    obtain ⟨rfl, rfl⟩ := by simpa using hb
    exact ⟨rfl, rfl, .answered hc, fun hl => .lost hl _⟩
  | _ => simp at hb

theorem deliver {rest : List Signal} (h : Session S i lossy v) (hr : v.results = sig :: rest) :
    Session S i lossy { v with results := rest, handler := some ⟨sig, .look 0⟩ } := by
  cases h with
  | answered hc =>
    obtain ⟨rfl, rfl⟩ := by simpa using hr
    exact .handling hc (Nat.zero_le _)
  | _ => simp at hr

theorem look (h : Session S i lossy v) (hh : v.handler = some ⟨sig, .look k⟩) :
    k ≤ i ∧ v.given = some v.inputX ∧ Computes v.inputX sig.value ∧
      (k < i → Session S i lossy { v with handler := some ⟨sig, .look (k + 1)⟩ }) ∧
      Session S i lossy { v with handler := some ⟨sig, .clear i⟩ } := by
  cases h with
  | handling hc hk =>
    obtain ⟨rfl, rfl⟩ := by simpa using hh
    exact ⟨hk, rfl, hc, fun hlt => .handling hc hlt, .printed hc⟩
  | _ => simp at hh

theorem clear {j : Fin S.n} (h : Session S i lossy v) (hh : v.handler = some ⟨sig, .clear j⟩) :
    j = i ∧ Session S i lossy { v with working := false, handler := none } := by
  cases h with
  | printed hc =>
    obtain ⟨-, rfl⟩ := by simpa using hh
    exact ⟨rfl, .idle _ _⟩
  | _ => simp at hh

end Session

section Proofs

variable {S : Server} {lossy : Prop} {s s' : State S.n} {i j : Fin S.n}

/-! ### `sigsend` -/

theorem find_main : S.find S.mainPid = some none := if_pos rfl

theorem find_pid (i : Fin S.n) : S.find (S.pid i) = some (some i) := by
  rw [Server.find, if_neg (S.pid_ne i), Option.map_eq_some_iff]
  refine ⟨i, ?_, rfl⟩
  have hpred : (fun j => decide (S.pid j = S.pid i)) = fun j => decide (j = i) := by
    funext j
    simp [S.pid_inj.eq_iff]
  rw [hpred]
  cases hf : (List.finRange S.n).find? fun j => decide (j = i) with
  | none => simpa using List.find?_eq_none.mp hf i (List.mem_finRange i)
  | some j => simpa using List.find?_some hf

theorem sigsend_eq {sender dest x : Word} {p : Option (Fin S.n)} (hp : S.find dest = some p)
    (h : (s.pending p).length < MAX_CSTACK_FRAMES) :
    sigsend S s sender dest x = { s with pending := update s.pending p (⟨sender, x⟩ :: s.pending p) } := by
  simp only [sigsend, hp, if_pos h]

theorem sigsend_full {sender dest x : Word} {p : Option (Fin S.n)} (hp : S.find dest = some p)
    (h : ¬ (s.pending p).length < MAX_CSTACK_FRAMES) : sigsend S s sender dest x = s := by
  simp only [sigsend, hp, if_neg h]

/-! ### Steps of the main process -/

theorem Inv.one (h : Inv S lossy s) (i : Fin S.n) (hother : ∀ j, j ≠ i → s'.view S j = s.view S j)
    (hself : Session S i lossy (s'.view S i)) : ∀ j, Session S j lossy (s'.view S j) := by
  intro j
  obtain rfl | hj := eq_or_ne j i
  · exact hself
  · rw [hother j hj]
    exact h.session j

theorem Inv.goto (h : Inv S lossy s) {pc : MainAt S.n} (hnow : ∀ j, s.main.giving j = none)
    (hnext : ∀ j, pc.giving j = none) (hnumber : ∀ x ∈ pc.number, x ≠ 0)
    (hrun : pc.running = true → s.main.running = true) : Inv S lossy { s with main := pc } := by
  refine ⟨fun j => ?_, h.senders, h.handler, hnumber, fun hr => h.zeros (hrun hr), h.lines⟩
  have hv : State.view S { s with main := pc } j = s.view S j := by simp only [State.view, hnow, hnext]
  rw [hv]
  exact h.session j

theorem mainStep_inv {line : Option Word} (h : Inv S lossy s) (hst : mainStep S s line = some s') :
    Inv S lossy s' := by
  unfold mainStep at hst
  cases hm : s.main with
  | read =>
    rw [hm] at hst
    have hnow : ∀ j, s.main.giving j = none := fun j => by rw [hm]; rfl
    cases line with
    | none =>
      obtain rfl := by simpa using hst
      exact h
    | some x =>
      obtain rfl := by simpa using hst
      split
      · exact h.goto hnow (fun _ => rfl) nofun nofun
      · next hx =>
        refine h.goto hnow (fun _ => rfl) (fun y hy => ?_) fun _ => by rw [hm]; rfl
        obtain rfl : x = y := by simpa [MainAt.number] using hy
        exact hx
  | scan x k =>
    rw [hm] at hst
    have hnow : ∀ j, s.main.giving j = none := fun j => by rw [hm]; rfl
    have hx : ∀ y ∈ (some x : Option Word), y ≠ 0 := fun y hy => h.number y (by rw [hm]; exact hy)
    have hrun : s.main.running = true := by rw [hm]; rfl
    by_cases hk : k < S.n
    · simp only [hk, dite_true, Option.some.injEq] at hst
      subst hst
      split
      · next hw =>
        refine ⟨h.one ⟨k, hk⟩ (fun j hj => ?_) ?_, h.senders, h.handler, hx, fun _ => h.zeros hrun, h.lines⟩
        · simp only [State.view, hm, MainAt.giving, if_neg hj.symm]
        · have hself := (h.session ⟨k, hk⟩).find hw (hnow _) (hx x rfl)
          simpa only [State.view, MainAt.giving, if_true] using hself
      · exact h.goto hnow (fun _ => rfl) hx fun _ => hrun
    · simp only [hk, dite_false, Option.some.injEq] at hst
      subst hst
      exact h.goto hnow (fun _ => rfl) nofun fun _ => hrun
  | mark x i =>
    rw [hm] at hst
    obtain rfl := by simpa using hst
    have hnow : (s.view S i).giving = some (.mark x i) := by simp [State.view, hm, MainAt.giving]
    have hx : ∀ y ∈ (some x : Option Word), y ≠ 0 := fun y hy => h.number y (by rw [hm]; exact hy)
    refine ⟨h.one i (fun j hj => ?_) ?_, h.senders, h.handler, hx, fun _ => h.zeros (by rw [hm]; rfl), h.lines⟩
    · simp only [State.view, hm, MainAt.giving, if_neg hj.symm, update_of_ne hj]
    · simpa only [State.view, MainAt.giving, if_true, update_self] using (h.session i).mark hnow
  | store x i =>
    rw [hm] at hst
    obtain rfl := by simpa using hst
    have hnow : (s.view S i).giving = some (.store x i) := by simp [State.view, hm, MainAt.giving]
    have hx : ∀ y ∈ (some x : Option Word), y ≠ 0 := fun y hy => h.number y (by rw [hm]; exact hy)
    refine ⟨h.one i (fun j hj => ?_) ?_, h.senders, h.handler, hx, fun _ => h.zeros (by rw [hm]; rfl), h.lines⟩
    · simp only [State.view, hm, MainAt.giving, if_neg hj.symm, update_of_ne hj]
    · simpa only [State.view, MainAt.giving, if_true, update_self] using (h.session i).store hnow
  | send x i =>
    rw [hm] at hst
    have hnow : (s.view S i).giving = some (.send x i) := by simp [State.view, hm, MainAt.giving]
    have hx : x ≠ 0 := h.number x (by rw [hm]; rfl)
    have hz := h.zeros (by rw [hm]; rfl)
    obtain ⟨hempty, hself⟩ := (h.session i).send hnow
    -- before the input 0 the only signals to a worker are requests
    have hnil : s.pending (some i) = [] := by
      refine List.eq_nil_iff_forall_not_mem.mpr fun sig hsig => ?_
      have : sig ∈ (s.view S i).requests := List.mem_filter.mpr ⟨hsig, by simpa using hz i sig hsig⟩
      simp [hempty] at this
    have hroom : (s.pending (some i)).length < MAX_CSTACK_FRAMES := by rw [hnil]; decide
    simp only [sigsend_eq (find_pid i) hroom, Option.some.injEq] at hst
    subst hst
    refine ⟨h.one i (fun j hj => ?_) ?_, ?_, h.handler, nofun, fun _ j sig hsig => ?_, h.lines⟩
    · have hne : (some j : Option (Fin S.n)) ≠ some i := fun e => hj (Option.some.inj e)
      simp only [State.view, hm, MainAt.giving, if_neg hj.symm, update_of_ne hj,
        update_of_ne hne, update_of_ne (Option.some_ne_none i).symm]
    · have hx0 : ¬ x = 0#32 := hx
      simpa [State.view, MainAt.giving, hnil, hx0, List.filter_cons,
        update_of_ne (Option.some_ne_none i).symm] using hself
    · simpa only [update_of_ne (Option.some_ne_none i).symm] using h.senders
    · obtain rfl | hj := eq_or_ne j i
      · obtain rfl : sig = ⟨S.mainPid, x⟩ := by simpa [hnil] using hsig
        exact hx
      · have hne : (some j : Option (Fin S.n)) ≠ some i := fun e => hj (Option.some.inj e)
        simp only [update_of_ne hne] at hsig
        exact hz j sig hsig
  | noIdle =>
    rw [hm] at hst
    obtain rfl := by simpa using hst
    exact h.goto (fun j => by rw [hm]; rfl) (fun _ => rfl) nofun fun _ => by rw [hm]; rfl
  | quit k =>
    rw [hm] at hst
    have hnow : ∀ j, s.main.giving j = none := fun j => by rw [hm]; rfl
    by_cases hk : k < S.n
    · simp only [hk, dite_true, Option.some.injEq] at hst
      subst hst
      by_cases hroom : (s.pending (some ⟨k, hk⟩)).length < MAX_CSTACK_FRAMES
      · simp only [sigsend_eq (find_pid _) hroom]
        refine ⟨fun j => ?_, ?_, h.handler, nofun, nofun, h.lines⟩
        · have hv : State.view S { s with
              pending := update s.pending (some ⟨k, hk⟩) (⟨S.mainPid, 0⟩ :: s.pending (some ⟨k, hk⟩))
              main := .quit (k + 1) } j = s.view S j := by
            obtain rfl | hj := eq_or_ne j ⟨k, hk⟩
            · simp [State.view, hm, MainAt.giving]
            · have hne : (some j : Option (Fin S.n)) ≠ some ⟨k, hk⟩ := fun e => hj (Option.some.inj e)
              simp only [State.view, hm, MainAt.giving, update_of_ne hne,
                update_of_ne (Option.some_ne_none _).symm]
          rw [hv]
          exact h.session j
        · simpa only [update_of_ne (Option.some_ne_none _).symm] using h.senders
      · simp only [sigsend_full (find_pid _) hroom]
        exact h.goto hnow (fun _ => rfl) nofun nofun
    · simp only [hk, dite_false, Option.some.injEq] at hst
      subst hst
      exact h.goto hnow (fun _ => rfl) nofun nofun
  | wait =>
    rw [hm] at hst
    simp at hst

/-! ### Steps of the handler -/

theorem handlerStep_inv (h : Inv S lossy s) (hst : handlerStep S s = some s') : Inv S lossy s' := by
  unfold handlerStep at hst
  cases hh : s.handling with
  | none =>
    cases hp : s.pending none with
    | nil => simp [hh, hp] at hst
    | cons sig rest =>
      simp only [hh, hp, Option.some.injEq] at hst
      subst hst
      obtain ⟨i, hi⟩ := h.senders sig (by rw [hp]; exact List.mem_cons_self)
      refine ⟨h.one i (fun j hj => ?_) ?_, fun sig' hsig => ?_, fun h' hh' => ?_, h.number, h.zeros, h.lines⟩
      · have hne : sig.sender ≠ S.pid j := fun e => hj (S.pid_inj (e.symm.trans hi))
        simp [State.view, hp, hh, hne, Option.filter_some]
      · have hr : (s.view S i).results = sig :: rest.filter fun sig => sig.sender = S.pid i := by
          simp [State.view, hp, hi]
        simpa [State.view, hi, Option.filter_some, update_of_ne (Option.some_ne_none _)] using (h.session i).deliver hr
      · refine h.senders sig' ?_
        rw [hp]
        exact List.mem_cons_of_mem sig (by simpa using hsig)
      · obtain rfl := by simpa using hh'
        exact ⟨i, hi⟩
  | some hd =>
    obtain ⟨sig, pc⟩ := hd
    obtain ⟨i, hi⟩ := h.handler _ hh
    have hview : (s.view S i).handler = some ⟨sig, pc⟩ := by
      simp only at hi
      simp [State.view, hh, hi, Option.filter_some]
    have hother : ∀ j, j ≠ i → sig.sender ≠ S.pid j := fun j hj e => hj (S.pid_inj (e.symm.trans hi))
    cases pc with
    | look k =>
      obtain ⟨hki, hgiven, hc, hgo, hprint⟩ := (h.session i).look hview
      have hk : k < S.n := lt_of_le_of_lt hki i.isLt
      simp only [hh, hk, dite_true] at hst
      split at hst
      · next hpid =>
        obtain rfl : ⟨k, hk⟩ = i := S.pid_inj (hpid.trans hi)
        obtain rfl := by simpa using hst
        refine ⟨h.one ⟨k, hk⟩ (fun j hj => ?_) ?_, h.senders, fun h' hh' => ?_, h.number, h.zeros, fun l hl => ?_⟩
        · simp [State.view, hh, hother j hj, Option.filter_some]
        · simp only at hi
          simpa [State.view, hi, Option.filter_some] using hprint
        · obtain rfl := by simpa using hh'
          exact ⟨_, hi⟩
        · rcases List.mem_append.mp hl with hl | hl
          · exact h.lines l hl
          · obtain rfl := List.mem_singleton.mp hl
            exact ⟨hgiven, hc⟩
      · next hpid =>
        obtain rfl := by simpa using hst
        have hlt : k < i := lt_of_le_of_ne hki fun e => hpid (by rw [hi]; congr 1; exact Fin.ext e)
        refine ⟨h.one i (fun j hj => ?_) ?_, h.senders, fun h' hh' => ?_, h.number, h.zeros, h.lines⟩
        · simp [State.view, hh, hother j hj, Option.filter_some]
        · simp only at hi
          simpa [State.view, hi, Option.filter_some] using hgo hlt
        · obtain rfl := by simpa using hh'
          exact ⟨i, hi⟩
    | clear j =>
      obtain ⟨rfl, hself⟩ := (h.session i).clear hview
      simp only [hh, Option.some.injEq] at hst
      subst hst
      refine ⟨h.one j (fun k hk => ?_) ?_, h.senders, nofun, h.number, h.zeros, h.lines⟩
      · simp [State.view, hh, hother k hk, Option.filter_some, update_of_ne hk]
      · simpa [State.view] using hself

/-! ### Steps of a worker -/

theorem workerStep_inv {fuel : ℕ} (h : Inv S lossy s) (hok : lossy ∨ Room S s (.worker i fuel))
    (hst : workerStep S s i fuel = some s') : Inv S lossy s' := by
  unfold workerStep at hst
  cases hw : s.worker i with
  | pause =>
    cases hp : s.pending (some i) with
    | nil => simp [hw, hp] at hst
    | cons sig rest =>
      simp only [hw, hp, Option.some.injEq] at hst
      subst hst
      refine ⟨h.one i (fun j hj => ?_) ?_, ?_, h.handler, h.number, fun hr j sig' hsig => ?_, h.lines⟩
      · have hne : (some j : Option (Fin S.n)) ≠ some i := fun e => hj (Option.some.inj e)
        simp [State.view, update_of_ne hj, update_of_ne hne]
      · by_cases hz : sig.value = 0
        · have hv : s.view S i = State.view S { s with
              pending := update s.pending (some i) rest
              worker := update s.worker i .exited } i := by
            simp [State.view, hp, hw, hz, WorkerAt.busy]
          simp only [if_pos hz]
          rw [← hv]
          exact h.session i
        · have hr : (s.view S i).requests = sig :: rest.filter fun sig => sig.value ≠ 0 := by
            rw [State.view, hp]
            exact List.filter_cons_of_pos (p := fun sig : Signal => decide (sig.value ≠ 0)) (by simpa using hz)
          simp only [if_neg hz]
          simpa [State.view, WorkerAt.busy, update_of_ne (Option.some_ne_none i).symm] using
            (h.session i).receive hr
      · simpa only [update_of_ne (Option.some_ne_none i).symm] using h.senders
      · obtain rfl | hj := eq_or_ne j i
        · refine h.zeros hr j sig' ?_
          rw [hp]
          exact List.mem_cons_of_mem sig (by simpa using hsig)
        · have hne : (some j : Option (Fin S.n)) ≠ some i := fun e => hj (Option.some.inj e)
          simp only [update_of_ne hne] at hsig
          exact h.zeros hr j sig' hsig
  | compute sig =>
    simp only [hw, Option.map_eq_some_iff] at hst
    obtain ⟨c, hc, rfl⟩ := hst
    have hb : (s.view S i).busy = some (.compute sig) := by simp [State.view, hw, WorkerAt.busy]
    refine ⟨h.one i (fun j hj => ?_) ?_, h.senders, h.handler, h.number, h.zeros, h.lines⟩
    · simp only [State.view, update_of_ne hj]
    · simpa [State.view, WorkerAt.busy] using (h.session i).compute hb ⟨fuel, hc⟩
  | send m c =>
    have hb : (s.view S i).busy = some (.send m c) := by simp [State.view, hw, WorkerAt.busy]
    obtain ⟨rfl, hempty, hsent, hlost⟩ := (h.session i).answer hb
    by_cases hroom : (s.pending none).length < MAX_CSTACK_FRAMES
    · simp only [hw, sigsend_eq find_main hroom, Option.some.injEq] at hst
      subst hst
      refine ⟨h.one i (fun j hj => ?_) ?_, fun sig hsig => ?_, h.handler, h.number, ?_, h.lines⟩
      · have hne : S.pid i ≠ S.pid j := fun e => hj (S.pid_inj e).symm
        simp [State.view, hne, update_of_ne hj]
      · have hres : (s.pending none).filter (fun sig => decide (sig.sender = S.pid i)) = [] := hempty
        simpa [State.view, hres, WorkerAt.busy, update_of_ne (Option.some_ne_none _)] using hsent
      · have hsig : sig = ⟨S.pid i, c⟩ ∨ sig ∈ s.pending none := by simpa using hsig
        rcases hsig with rfl | hsig
        · exact ⟨i, rfl⟩
        · exact h.senders sig hsig
      · simpa [update_of_ne (Option.some_ne_none _)] using h.zeros
    · simp only [hw, sigsend_full find_main hroom, Option.some.injEq] at hst
      subst hst
      have hl : lossy := hok.resolve_right fun hr => hroom (hr (by rw [hw]; rfl))
      refine ⟨h.one i (fun j hj => ?_) ?_, h.senders, h.handler, h.number, h.zeros, h.lines⟩
      · simp only [State.view, update_of_ne hj]
      · simpa [State.view, WorkerAt.busy] using hlost hl
  | exited => simp [hw] at hst

/-! ## Every run -/

theorem init_inv (S : Server) (lossy : Prop) : Inv S lossy (init S) :=
  ⟨fun _ => .idle _ _, nofun, nofun, nofun, nofun, nofun⟩

theorem step_inv {l : Label S.n} (h : Inv S lossy s) (hok : lossy ∨ Room S s l) (hst : step S s l = some s') :
    Inv S lossy s' := by
  cases l with
  | main line =>
    simp only [step, Option.ite_none_right_eq_some] at hst
    exact mainStep_inv h hst.2
  | handler => exact handlerStep_inv h hst
  | worker i fuel => exact workerStep_inv h hok hst

/-- The main process is between `workers[i].working = 1` and the end of `sigsend(workers[i].pid, input_x)`. -/
def State.gives (s : State S.n) (i : Fin S.n) : Prop := ∃ x, s.main = .store x i ∨ s.main = .send x i

/-- The request of the worker is undelivered. -/
def State.requested (S : Server) (s : State S.n) (i : Fin S.n) : Prop := ⟨S.mainPid, s.inputX i⟩ ∈ s.pending (some i)

/-- The worker is at work on its request. -/
def State.inProgress (S : Server) (s : State S.n) (i : Fin S.n) : Prop :=
  s.worker i = .compute ⟨S.mainPid, s.inputX i⟩ ∨ ∃ c, s.worker i = .send S.mainPid c ∧ Computes (s.inputX i) c

/-- The result of the worker is undelivered. -/
def State.answered (S : Server) (s : State S.n) (i : Fin S.n) : Prop :=
  ∃ c, ⟨S.pid i, c⟩ ∈ s.pending none ∧ Computes (s.inputX i) c

/-- The main process is handling the result of the worker. -/
def State.handles (S : Server) (s : State S.n) (i : Fin S.n) : Prop := ∃ h ∈ s.handling, h.sig.sender = S.pid i

theorem gives_of_giving {pc : MainAt S.n} (h : s.main.giving i = some pc) (hpc : ∀ x, pc ≠ .mark x i) : s.gives i := by
  cases hm : s.main with
  | store x j =>
    obtain ⟨rfl, -⟩ : j = i ∧ _ := by simpa [hm, MainAt.giving] using h
    exact ⟨x, .inl hm⟩
  | send x j =>
    obtain ⟨rfl, -⟩ : j = i ∧ _ := by simpa [hm, MainAt.giving] using h
    exact ⟨x, .inr hm⟩
  | mark x j =>
    obtain ⟨rfl, hp⟩ : j = i ∧ MainAt.mark x j = pc := by simpa [hm, MainAt.giving] using h
    exact absurd hp.symm (hpc x)
  | _ => simp [hm, MainAt.giving] at h

theorem busy_eq {pc pc' : WorkerAt} (h : pc.busy = some pc') : pc = pc' := by
  cases pc with
  | pause | exited => simp [WorkerAt.busy] at h
  | _ => simpa [WorkerAt.busy] using h

theorem Inv.working (h : Inv S False s) (hw : s.working i = true) :
    s.gives i ∨ s.requested S i ∨ s.inProgress S i ∨ s.answered S i ∨ s.handles S i := by
  have hsess := h.session i
  have hwork : (s.view S i).working = true := hw
  generalize hv : s.view S i = v at hsess hwork
  have hinput : s.inputX i = v.inputX := congrArg View.inputX hv
  have hgiving : s.main.giving i = v.giving := congrArg View.giving hv
  have hbusy : (s.worker i).busy = v.busy := congrArg View.busy hv
  have hreq : ∀ sig ∈ v.requests, sig ∈ s.pending (some i) := fun sig hsig =>
    (List.mem_filter.mp ((congrArg View.requests hv).symm ▸ hsig)).1
  have hres : ∀ sig ∈ v.results, sig ∈ s.pending none := fun sig hsig =>
    (List.mem_filter.mp ((congrArg View.results hv).symm ▸ hsig)).1
  have hhand : ∀ hd ∈ v.handler, hd ∈ s.handling ∧ hd.sig.sender = S.pid i := fun hd hhd => by
    rw [← hv] at hhd
    simpa [State.view, Option.filter_eq_some_iff] using hhd
  cases hsess with
  | idle | found => simp at hwork
  | marked | stored => exact .inl (gives_of_giving hgiving nofun)
  | asked x =>
    refine .inr (.inl ?_)
    rw [State.requested, hinput]
    exact hreq _ List.mem_cons_self
  | computing x => exact .inr (.inr (.inl (.inl (hinput ▸ busy_eq hbusy))))
  | answering hc => exact .inr (.inr (.inl (.inr ⟨_, busy_eq hbusy, hinput ▸ hc⟩)))
  | answered hc => exact .inr (.inr (.inr (.inl ⟨_, hres _ List.mem_cons_self, hinput ▸ hc⟩)))
  | handling | printed => exact .inr (.inr (.inr (.inr ⟨_, hhand _ rfl⟩)))
  | lost hl => exact hl.elim

theorem length_le_of_senders {l : List Signal} {is : List (Fin S.n)} (hmem : ∀ sig ∈ l, ∃ i ∈ is, sig.sender = S.pid i)
    (hone : ∀ i ∈ is, (l.filter fun sig => sig.sender = S.pid i).length ≤ 1) : l.length ≤ is.length := by
  induction is generalizing l with
  | nil =>
    cases l with
    | nil => exact le_rfl
    | cons sig l => simpa using hmem sig List.mem_cons_self
  | cons i is ih =>
    have hrest := ih (l := l.filter fun sig => ¬ sig.sender = S.pid i) (fun sig hsig => ?_) fun j hj => ?_
    · have hi := hone i List.mem_cons_self
      have hsplit := List.length_eq_length_filter_add (l := l) fun sig => decide (sig.sender = S.pid i)
      simp only [List.length_cons, decide_not] at *
      omega
    · obtain ⟨hl, hne⟩ := List.mem_filter.mp hsig
      obtain ⟨j, hj, hs⟩ := hmem sig hl
      rcases List.mem_cons.mp hj with rfl | hj
      · simp [hs] at hne
      · exact ⟨j, hj, hs⟩
    · refine le_trans ?_ (hone j (List.mem_cons_of_mem i hj))
      rw [List.filter_comm]
      exact List.length_filter_le _ _

theorem Session.results_le {v : View S.n} (h : Session S i lossy v) :
    v.results.length ≤ 1 ∧ ∀ m c, v.busy = some (.send m c) → v.results = [] := by
  cases h with
  | answered => exact ⟨le_rfl, nofun⟩
  | _ => exact ⟨Nat.zero_le 1, fun _ _ _ => rfl⟩

/-- **With few workers there is always room.** -/
theorem Inv.room (h : Inv S lossy s) (hn : S.n ≤ MAX_CSTACK_FRAMES) (l : Label S.n) : Room S s l := by
  cases l with
  | worker i fuel =>
    intro hsends
    have hnone : (s.view S i).results = [] := by
      cases hw : s.worker i with
      | send m c => exact (h.session i).results_le.2 m c (by simp [State.view, hw, WorkerAt.busy])
      | _ => simp [hw, WorkerAt.sends] at hsends
    have hle : (s.pending none).length ≤ ((List.finRange S.n).erase i).length := by
      refine length_le_of_senders (fun sig hsig => ?_) fun j _ => (h.session j).results_le.1
      obtain ⟨j, hj⟩ := h.senders sig hsig
      refine ⟨j, (List.mem_erase_of_ne ?_).mpr (List.mem_finRange j), hj⟩
      -- nothing of this worker is pending
      rintro rfl
      have : sig ∈ (s.view S j).results := List.mem_filter.mpr ⟨hsig, by simpa using hj⟩
      simp [hnone] at this
    rw [List.length_erase_of_mem (List.mem_finRange i), List.length_finRange] at hle
    have := i.isLt
    omega
  | _ => trivial

end Proofs

/-- **The prime server loses no result**, when every result finds room at the main process, which it does with at most
MAX_CSTACK_FRAMES workers: a worker that is marked as working has its request undelivered or in progress or its result
undelivered, unless the main process is just at the statements that send the request or handle the result. And every line
that is printed, room or no room, has the result of the worker for the input that it was last given. -/
theorem no_result_lost (S : Server) :
    (∀ (tr : List (State S.n × Label S.n)) (s : State S.n), Path (step S) (Room S) (init S) tr s →
      ∀ i, s.working i = true →
        s.gives i ∨ s.requested S i ∨ s.inProgress S i ∨ s.answered S i ∨ s.handles S i) ∧
    (∀ (tr : List (State S.n × Label S.n)) (s : State S.n), Path (step S) free (init S) tr s →
      (∀ l ∈ s.lines, l.given = some l.inputX ∧ Computes l.inputX l.value) ∧
        (S.n ≤ MAX_CSTACK_FRAMES → ∀ l, Room S s l)) := by
  refine ⟨fun tr s h i hw => ?_, fun tr s h => ?_⟩
  · have hinv : Inv S False s := h.inv (init_inv S False) fun _ _ _ hs hok hst => step_inv hs (.inr hok) hst
    exact hinv.working hw
  · have hinv : Inv S True s := h.inv (init_inv S True) fun _ _ _ hs _ hst => step_inv hs (.inl trivial) hst
    exact ⟨hinv.lines, fun hn => hinv.room hn⟩

/-- A server with `n` workers, whose pids follow that of the main process. -/
def server (n : ℕ) (hn : n < 100) : Server where
  n := n
  mainPid := 3
  pid i := BitVec.ofNat 32 (4 + i)
  pid_inj i j h := by
    have hi := i.isLt
    have hj := j.isLt
    have := congrArg BitVec.toNat h
    simp only [BitVec.toNat_ofNat] at this
    exact Fin.ext (by omega)
  pid_ne i h := by
    have hi := i.isLt
    have h3 : (4 + i.val) % 2 ^ 32 = 3 := by simpa using congrArg BitVec.toNat h
    omega

def one : Server := server 1 (by decide)

def eleven : Server := server 11 (by decide)

/-- The main process reads the number 5 and gives it to the worker `i`, before which all are working. -/
def give {n : ℕ} (i : ℕ) : List (Label n) := .main (some 5) :: List.replicate (i + 4) (.main none)

/-- The worker `i` gets its request and answers it. -/
def work {n : ℕ} (i : Fin n) : List (Label n) := List.replicate 3 (.worker i 4)

/-- The result of the only worker is undelivered. -/
theorem no_result_lost_one : ∃ (tr : List (State one.n × Label one.n)) (s : State one.n) (i : Fin one.n),
    Path (step one) (Room one) (init one) tr s ∧ s.working i = true ∧ s.pending none = [⟨4, 7⟩] ∧
      (s.gives i ∨ s.requested one i ∨ s.inProgress one i ∨ s.answered one i ∨ s.handles one i) := by
  let i : Fin one.n := ⟨0, by decide⟩
  obtain ⟨s, hs, hw, hp⟩ := exists_path (step one) (Room one) (init one) (give 0 ++ work i)
    (fun s => s.working i = true ∧ s.pending none = [⟨4, 7⟩]) (by decide +kernel)
  exact ⟨_, s, i, hs, hw, hp, (no_result_lost one).1 _ s hs i hw⟩

/-- All workers get a number, one after the other, and answer while the main process waits for input. -/
def busyAll : List (Label eleven.n) := (List.range 11).flatMap give ++ (List.finRange eleven.n).flatMap work

/-- **The eleventh result is lost**, and the worker is never given another number. -/
theorem eleventh_lost : ∃ (tr : List (State eleven.n × Label eleven.n)) (s : State eleven.n) (i : Fin eleven.n),
    Path (step eleven) free (init eleven) tr s ∧ s.main.running = true ∧ s.working i = true ∧ ¬ s.gives i ∧
      ¬ s.requested eleven i ∧ ¬ s.inProgress eleven i ∧ ¬ s.answered eleven i ∧ ¬ s.handles eleven i := by
  let i : Fin eleven.n := ⟨10, by decide⟩
  obtain ⟨s, hs, hw, hm, hp, hpc, hres, hh⟩ := exists_path (step eleven) free (init eleven) busyAll
    (fun s => s.working i = true ∧ s.main = .read ∧ s.pending (some i) = [] ∧ s.worker i = .pause ∧
      (∀ sig ∈ s.pending none, sig.sender ≠ eleven.pid i) ∧ s.handling = none)
    (by decide +kernel)
  refine ⟨_, s, i, hs, by rw [hm]; rfl, hw, ?_, ?_, ?_, ?_, ?_⟩
  · rintro ⟨x, h | h⟩ <;> simp [hm] at h
  · intro h
    rw [State.requested, hp] at h
    simp at h
  · rintro (h | ⟨c, h, -⟩) <;> simp [hpc] at h
  · rintro ⟨c, h, -⟩
    exact hres _ h rfl
  · rintro ⟨h, hmem, -⟩
    simp [hh] at hmem

end Xv6.Primsrv
