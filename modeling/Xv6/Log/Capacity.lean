import Xv6.Log.Commit

/-!
# The capacity of the log

`begin_op` admits an operation if `log.lh.n + (log.outstanding + 1) * MAXOPBLOCKS` does not exceed `LOGSIZE`, while
`log_write` panics as soon as `log.lh.n` is `log.size - 1`, one sector of the log being the header, and makes this test
before it takes the lock and before it looks whether the sector is in the log already.
-/

namespace Xv6.Log

open Function (update update_of_ne update_self)

variable {T : Type*}

/-- The sector of the log that `write_log` and `install_trans` use for the entry `tail`. -/
def Vars.block (L : Vars T) (tail : ℕ) : ℕ := L.start + tail + 1

/-- An operation logs at most `MAXOPBLOCKS` distinct sectors. -/
def Bounded (s : State T) : Label T → Prop
  | .logWrite q b => ((s.thread q).own.insert b).length ≤ MAXOPBLOCKS
  | .beginOp _ | .endOp _ | .step _ => True

instance (s : State T) (l : Label T) : Decidable (Bounded s l) :=
  match l with
  | .logWrite q b => inferInstanceAs (Decidable (((s.thread q).own.insert b).length ≤ MAXOPBLOCKS))
  | .beginOp _ | .endOp _ | .step _ => .isTrue trivial

/-! ## Three operations -/

/-- A whole `log_write` of a sector that is not among the `n` in the header. -/
def writeNew (q : T) (b n : ℕ) : List (Label T) := .logWrite q b :: List.replicate (8 + n) (.step q)

/-- Three operations are admitted; then the threads `who 0`, `who 1`, ... log one new sector each. -/
def fill (who : ℕ → Fin 3) (n : ℕ) : List (Label (Fin 3)) :=
  ([0, 1, 2].flatMap fun q => .beginOp q :: List.replicate 4 (.step q)) ++
    (List.range n).flatMap fun k => writeNew (who k) (100 + k) k

/-- Ten sectors each: the thirtieth is refused. -/
def overflow : List (Label (Fin 3)) :=
  fill (fun k => if k < 10 then 0 else if k < 20 then 1 else 2) 29 ++ [.logWrite 2 129, .step 2, .step 2]

/-- With 28 sectors logged, two threads pass the tests of `log_write` before either takes the lock. -/
def race : List (Label (Fin 3)) :=
  [fill (fun k => if k < 9 then 0 else if k < 18 then 1 else 2) 28, [.logWrite 0 200], .replicate 3 (.step 0),
    [.logWrite 1 201], .replicate 3 (.step 1), .replicate 33 (.step 0), .replicate 34 (.step 1)].flatten

theorem three_operations_overflow :
    (∃ tr s, Lib.Path step Bounded (boot 994 LOGSIZE : State (Fin 3)) tr s ∧ s.pc 2 = .panic .tooBig) ∧
      ∃ tr s, Lib.Path step Bounded (boot 994 LOGSIZE : State (Fin 3)) tr s ∧ s.log.lh.n = 30 ∧ s.log.size = 30 := by
  constructor
  · obtain ⟨s, hp, hs⟩ := Lib.exists_path step Bounded (boot 994 LOGSIZE : State (Fin 3)) overflow
      (fun s => s.pc 2 = .panic .tooBig) (by decide +kernel)
    exact ⟨_, s, hp, hs⟩
  · obtain ⟨s, hp, hs⟩ := Lib.exists_path step Bounded (boot 994 LOGSIZE : State (Fin 3)) race
      (fun s => s.log.lh.n = 30 ∧ s.log.size = 30) (by decide +kernel)
    exact ⟨_, s, hp, hs⟩

/-! ## Room for the open operations -/

/-- The number of sectors that a thread's open operation may still log. -/
def Thread.budget (th : Thread) : ℕ := if th.pc.isOpen then MAXOPBLOCKS - th.own.length else 0

section Room

variable [Fintype T]

/-- The number of sectors that the open operations may still log. -/
def State.reserved (s : State T) : ℕ := ∑ q, (s.thread q).budget

/-- `begin_op` admits an operation only if the log has room for all that the open operations and the new one may
still log, and one entry more. -/
def Room (s : State T) : Label T → Prop
  | .step q => s.pc q = .beginAdd → s.log.lh.n + (s.reserved + MAXOPBLOCKS) ≤ s.log.size - 2
  | .beginOp _ | .logWrite _ _ | .endOp _ => True

instance (s : State T) (l : Label T) : Decidable (Room s l) :=
  match l with
  | .step q => inferInstanceAs (Decidable (s.pc q = .beginAdd → _))
  | .beginOp _ | .logWrite _ _ | .endOp _ => .isTrue trivial

/-- What the operation of a thread has logged so far. -/
structure Thread.Fits (th : Thread) (lh : Logheader) : Prop where
  logged : th.pc.isOpen = true → ∀ b ∈ th.own, b ∈ lh.sectors
  bound : ∀ b, th.pc.logging = some b → (th.own.insert b).length ≤ MAXOPBLOCKS
  panic : th.pc ≠ .panic .tooBig

/-- What is logged and what may still be logged fits into the log, with one entry to spare. -/
structure Fits (s : State T) : Prop where
  size : s.log.size = LOGSIZE
  room : s.log.lh.n + s.reserved ≤ LOGSIZE - 2
  thread : ∀ q, (s.thread q).Fits s.log.lh

theorem Fits.boot (start : ℕ) : Fits (boot start LOGSIZE : State T) where
  size := rfl
  room := by simp [Log.boot, Logheader.empty, State.reserved, Thread.budget, Pc.isOpen]
  thread _ := ⟨fun h => by simp [Log.boot, Pc.isOpen] at h, fun b h => by simp [Log.boot, Pc.logging] at h,
    by simp [Log.boot]⟩

variable {s s' : State T} {q : T} {L' : Vars T} {pc' : Pc}

theorem Fits.lt_size (hf : Fits s) : s.log.lh.n < LOGSIZE - 1 := by
  have := hf.room
  simp only [LOGSIZE, MAXOPBLOCKS] at *
  omega

theorem reserved_update [DecidableEq T] {th : Thread} (h : s'.thread = update s.thread q th) :
    s'.reserved + (s.thread q).budget = s.reserved + th.budget := by
  have hsum := sum_change (q := q) (f := fun r => (s.thread r).budget) (g := fun r => (s'.thread r).budget)
    fun r hr => by rw [h, update_of_ne hr]
  simpa [State.reserved, h] using hsum

end Room

theorem Pc.step_logging [DecidableEq T] {q : T} {L L' : Vars T} {pc pc' : Pc} {b : ℕ}
    (h : pc.step q L = some (L', pc')) (hb : pc'.logging = some b) : pc.logging = some b := by
  cases pc with
  | idle | active | panic => simp [Pc.step] at h
  | beginTest =>
    simp only [Pc.step] at h
    split_ifs at h <;> obtain ⟨rfl, rfl⟩ := by simpa using h
    all_goals cases hb
  | beginAcquire | logAcquire | endAcquire | doneAcquire =>
    obtain ⟨-, rfl, rfl⟩ := by simpa [Pc.step] using h
    exact hb
  | beginAdd | beginRelease | logStore | logCount | logRelease | endDec | endSet | writeHead | clear | eraseHead
  | doneClear | doneRelease =>
    obtain ⟨rfl, rfl⟩ := by simpa [Pc.step] using h
    first | exact hb | cases hb
  | logScan | logFull | logSize | logOutstanding | endCheck | endTest | endRelease | commit | writeLog
  | installTrans =>
    obtain ⟨rfl, rfl⟩ := by simpa [Pc.step] using h
    split_ifs at hb <;> first | exact hb | cases hb

theorem Thread.budget_le {pc pc' : Pc} (own : List ℕ) (h : pc'.isOpen = true → pc.isOpen = true) :
    Thread.budget ⟨pc', own⟩ ≤ Thread.budget ⟨pc, own⟩ := by
  simp only [Thread.budget]
  split_ifs with h1 h2
  · exact le_rfl
  · exact absurd (h h1) h2
  · exact Nat.zero_le _
  · exact le_rfl

/-- **The balance.** What is logged and what a thread may still log grow together only when its operation is
admitted. -/
theorem Thread.Fits.balance [DecidableEq T] {th : Thread} {q : T} {L L' : Vars T} {pc' : Pc} (hf : th.Fits L.lh)
    (hs : th.pc.Sound L.lh) (hp : th.pc.step q L = some (L', pc')) (hne : th.pc ≠ .beginAdd) :
    L'.lh.n + Thread.budget ⟨pc', th.pc.owns th.own⟩ ≤ L.lh.n + th.budget := by
  obtain ⟨pc, own⟩ := th
  have hlh := Pc.step_lh hp
  have hopen : pc'.isOpen = true → pc.isOpen = true := fun h =>
    ((Pc.step_effect hp).open_before h).resolve_right hne
  have hle := Thread.budget_le own hopen
  simp only at *
  rw [hlh]
  cases pc with
  | beginAdd => exact absurd rfl hne
  | clear => simp only [Pc.header, Pc.owns]; omega
  | logCount b i =>
    obtain ⟨rfl, rfl⟩ := by simpa [Pc.step] using hp
    have hins := hf.bound b rfl
    simp only [Pc.header, Pc.owns, Logheader.count_n, Thread.budget, Pc.isOpen, if_true]
    split_ifs with hi
    · -- a new sector is new to the operation, too
      have hb : b ∉ own := fun h => Logheader.Stored.not_mem hs hi (hf.logged rfl b h)
      rw [List.insert_of_not_mem hb, List.length_cons] at *
      simp only [MAXOPBLOCKS] at *
      omega
    · have hlen : own.length ≤ (own.insert b).length := by
        by_cases h : b ∈ own <;> simp [h]
      omega
  | _ => simp only [Pc.header, Pc.owns, Logheader.store_n]; omega

theorem Pc.Sound.mem_header {pc : Pc} {lh : Logheader} {b : ℕ} (hs : pc.Sound lh) (hne : pc ≠ .clear)
    (hb : b ∈ lh.sectors) : b ∈ (pc.header lh).sectors := by
  cases pc with
  | clear => exact absurd rfl hne
  | logStore c i => rwa [Pc.header, Logheader.Found.sectors_store hs]
  | logCount c i => exact (Logheader.Stored.mem_count hs).mpr (.inr hb)
  | _ => exact hb

theorem Thread.Fits.step [DecidableEq T] {th : Thread} {q : T} {L L' : Vars T} {pc' : Pc} (hf : th.Fits L.lh)
    (hs : th.pc.Sound L.lh) (hn : L.lh.n < LOGSIZE - 1) (hsize : L.size = LOGSIZE)
    (hp : th.pc.step q L = some (L', pc')) : Thread.Fits ⟨pc', th.pc.owns th.own⟩ L'.lh := by
  obtain ⟨pc, own⟩ := th
  have hlh := Pc.step_lh hp
  refine ⟨fun ho b hb => ?_, fun b hb => ?_, fun hpanic => ?_⟩
  · simp only at ho hb hlh
    rw [hlh]
    by_cases hadd : pc = .beginAdd
    · simp [hadd, Pc.owns] at hb
    · have ho' : pc.isOpen = true := ((Pc.step_effect hp).open_before ho).resolve_right hadd
      have hclear : pc ≠ .clear := by rintro rfl; simp [Pc.isOpen] at ho'
      cases pc with
      | logCount c i =>
        refine (Logheader.Stored.mem_count hs).mpr ?_
        exact (List.mem_insert_iff.mp hb).imp_right fun h => hf.logged rfl b h
      | beginAdd => exact absurd rfl hadd
      | _ => exact Pc.Sound.mem_header hs hclear (hf.logged ho' b hb)
  · have hb' := Pc.step_logging hp hb
    cases pc with
    | logCount c i =>
      obtain ⟨rfl, rfl⟩ := by simpa [Pc.step] using hp
      cases hb
    | _ => first | exact hf.bound b hb' | cases hb'
  · obtain rfl : pc' = .panic .tooBig := hpanic
    have hfull := (Pc.step_effect hp).full
    simp only [Vars.Full, hsize, LOGSIZE, MAXOPBLOCKS] at *
    omega

section Step

variable [Fintype T] [DecidableEq T] {A : Ledger T} {s s' : State T} {q : T} {l : Label T}

theorem Fits.call {pc pc' : Pc} (hf : Fits s) (h : s.call q pc pc' = some s') (ho : pc'.isOpen = pc.isOpen)
    (hb : ∀ b, pc'.logging = some b → ((s.thread q).own.insert b).length ≤ MAXOPBLOCKS)
    (hp : pc' ≠ .panic .tooBig) : Fits s' := by
  obtain ⟨rfl, rfl⟩ := by simpa [State.call] using h
  refine ⟨hf.size, ?_, fun r => ?_⟩
  · have hres : State.reserved ⟨s.log, update s.thread q ⟨pc', (s.thread q).own⟩⟩ + (s.thread q).budget =
        s.reserved + Thread.budget ⟨pc', (s.thread q).own⟩ := reserved_update rfl
    have hbud : Thread.budget ⟨pc', (s.thread q).own⟩ = (s.thread q).budget := by
      simp only [Thread.budget, ho, State.pc]
    have := hf.room
    simp only [hbud] at *
    omega
  · by_cases hrq : r = q
    · subst hrq
      have hr := hf.thread r
      refine ⟨fun h => ?_, fun b h => ?_, ?_⟩
      · exact by simpa using hr.logged (by simpa [State.pc, ho] using h)
      · simpa using hb b (by simpa using h)
      · simpa using hp
    · simpa [hrq] using hf.thread r

theorem Fits.step (hf : Fits s) (hg : Grouped s) (hr : Recorded A s) (hb : Bounded s l) (hroom : Room s l)
    (h : step s l = some s') : Fits s' := by
  cases l with
  | beginOp q => exact hf.call h rfl (by simp [Pc.logging]) (by simp)
  | logWrite q b =>
    refine hf.call h rfl (fun c hc => ?_) (by simp)
    obtain rfl : b = c := by simpa [Pc.logging] using hc
    exact hb
  | endOp q => exact hf.call h rfl (by simp [Pc.logging]) (by simp)
  | step q =>
    simp only [Log.step, Option.map_eq_some_iff] at h
    obtain ⟨⟨L, pc'⟩, hp, hs'⟩ := h
    have ht : s'.thread = update s.thread q ⟨pc', (s.pc q).owns (s.thread q).own⟩ := by rw [← hs']
    obtain rfl : s'.log = L := by rw [← hs']
    refine ⟨(Pc.step_size hp).trans hf.size, ?_, fun r => ?_⟩
    · have hres := reserved_update ht
      have hold := hf.room
      by_cases hadd : s.pc q = .beginAdd
      · have hq := hroom hadd
        have hlh : s'.log.lh = s.log.lh := by rw [Pc.step_lh hp, hadd]; rfl
        have hbud : Thread.budget ⟨pc', (s.pc q).owns (s.thread q).own⟩ ≤ MAXOPBLOCKS := by
          simp only [Thread.budget]
          split_ifs <;> simp
        rw [hf.size] at hq
        rw [hlh]
        omega
      · have hbal := (hf.thread q).balance (hr.sound q) hp hadd
        simp only [State.pc] at *
        omega
    · by_cases hrq : r = q
      · subst hrq
        rw [ht, update_self]
        exact (hf.thread r).step (hr.sound r) hf.lt_size hf.size hp
      · rw [ht, update_of_ne hrq]
        have hfr := hf.thread r
        refine ⟨fun ho b hb => ?_, hfr.bound, hfr.panic⟩
        have hclear : s.pc q ≠ .clear := fun hc => by
          have := hg.apart q r (by rw [hc]; rfl)
          simp [show (s.pc r).isOpen = true from ho] at this
        rw [Pc.step_lh hp]
        exact (hr.sound q).mem_header hclear (hfr.logged ho b hb)

/-- **The log never overflows** with the image of `mkfs`, for any number of threads whose operations log at most
`MAXOPBLOCKS` distinct sectors each, if `begin_op` leaves room for what the open operations may still log:
`log_write` does not panic, `log.lh.n` stays below `log.size`, and `write_log` and `install_trans` stay inside the log
area. -/
theorem log_never_overflows {start : ℕ} {tr : List (State T × Label T)}
    (h : Lib.Path step (fun s l => Bounded s l ∧ Room s l) (boot start LOGSIZE) tr s) :
    (∀ q, s.pc q ≠ .panic .tooBig) ∧ (s.log.lh.n : ℤ) ≤ s.log.size - 1 ∧
      ∀ q tail, s.pc q = .writeLog tail ∨ s.pc q = .installTrans tail → tail < s.log.lh.n →
        s.log.start < s.log.block tail ∧ s.log.block tail < s.log.start + s.log.size := by
  have hinv : (Grouped s ∧ Recorded (ledger tr) s) ∧ Fits s :=
    h.inv_trace (I := fun tr s => (Grouped s ∧ Recorded (ledger tr) s) ∧ Fits s) ⟨⟨.boot _ _, .boot _ _⟩, .boot _⟩
      fun tr s l _ ⟨⟨hg, hr⟩, hf⟩ hok hs =>
        ⟨⟨hg.step hs, ledger_snoc tr s l ▸ hr.step hg hs⟩, hf.step hg hr hok.1 hok.2 hs⟩
  obtain ⟨-, hf⟩ := hinv
  have hlt := hf.lt_size
  have hsize := hf.size
  simp only [LOGSIZE, MAXOPBLOCKS] at hlt hsize
  refine ⟨fun q => (hf.thread q).panic, by omega, fun q tail _ htail => ?_⟩
  simp only [Vars.block]
  omega

/-- Two operations fit. -/
theorem log_never_overflows_two :
    ∃ tr s, Lib.Path step (fun s l => Bounded s l ∧ Room s l) (boot 994 LOGSIZE : State Bool) tr s ∧
      s.log.lh.sectors = [60, 61] ∧ s.pc false = .writeLog 1 ∧ s.log.block 1 < s.log.start + s.log.size := by
  obtain ⟨s, hp, hs, hpc⟩ := Lib.exists_path step (fun s l => Bounded s l ∧ Room s l) (boot 994 LOGSIZE : State Bool)
    (twoOps ++ [.step false, .step false]) (fun s => s.log.lh.sectors = [60, 61] ∧ s.pc false = .writeLog 1)
    (by decide +kernel)
  have hn : 1 < s.log.lh.n := by rw [← s.log.lh.length_sectors, hs]; decide
  obtain ⟨-, -, harea⟩ := log_never_overflows hp
  exact ⟨_, s, hp, hs, hpc, (harea false 1 (.inl hpc) hn).2⟩

end Step

end Xv6.Log
