import Xv6.Bio.Cache
import Xv6.Lib.Transition

/-!
# The buffer cache over a disk that reports errors

`iderw` of `ide.c` together with the interrupt that ends its request, for one request at a time, under the buffer cache
of `bio.c`. Each request has a status, which the disk reports afterwards: `ideintr` looks at it only when it has read
(`idewait(1)`), and it sets `B_VALID` and clears `B_DIRTY` in any case.
-/

namespace Xv6.Bio.Ide

open Lib
open Function (update update_of_ne update_self)

/-- The registers `0x1f3` to `0x1f6`: the drive and the sector. -/
@[irreducible] def address (dev sector : ℕ) : ℕ := dev % 2 * 2 ^ 28 + sector % 2 ^ 28

/-- `iderw`, `idestart` and `ideintr` for one request; `err` is the status after it. -/
def iderw (havedisk1 err : Bool) (m : Io) (i : BufIx) : Option Io :=
  let b := m.buf i
  if b.busy = false then none
  else if b.valid ∧ ¬ b.dirty then none
  else if b.dev ≠ 0 ∧ havedisk1 = false then none
  else if b.dirty then
    -- the status is not looked at
    some { m.set i { b with dirty := false, valid := true } with
      disk := if err then m.disk else update m.disk (address b.dev b.sector) b.data }
  else
    -- without `insl` the data stay
    some (m.set i { b with data := if err then b.data else m.disk (address b.dev b.sector), valid := true })

def bread (havedisk1 err : Bool) (m : Io) (dev sector : ℕ) : Option (Io × BufIx) :=
  (bget m dev sector).bind fun (m, i) =>
    if (m.buf i).valid then some (m, i) else (iderw havedisk1 err m i).map (·, i)

def bwrite (havedisk1 err : Bool) (m : Io) (i : BufIx) : Option Io :=
  if (m.buf i).busy = false then none else iderw havedisk1 err (m.mark i) i

/-! ## Calls -/

structure State where
  io : Io
  /-- what the kernel has stored in a buffer since it has its sector -/
  stored : BufIx → Option Block

inductive Call
  | bread (dev sector : ℕ) (err : Bool)
  | bwrite (i : BufIx) (err : Bool)
  | brelse (i : BufIx)
  /-- the kernel changes the data of a buffer that it has -/
  | store (i : BufIx) (d : Block)
  /-- `log_write` -/
  | mark (i : BufIx)

/-- A call that returns. -/
def step (havedisk1 : Bool) (s : State) : Call → Option State
  | .bread dev sector err => (bread havedisk1 err s.io dev sector).map fun (m, i) =>
      ⟨m, if (s.io.cached dev sector).isSome then s.stored else update s.stored i none⟩
  | .bwrite i err => (bwrite havedisk1 err s.io i).map fun m => { s with io := m }
  | .brelse i => (brelse s.io i).map fun m => { s with io := m }
  | .store i d =>
    if (s.io.buf i).busy then some ⟨s.io.modify i d, update s.stored i (some d)⟩ else none
  | .mark i => if (s.io.buf i).busy then some { s with io := s.io.mark i } else none

/-- After `binit`. -/
def start (disk : ℕ → Block) : State := ⟨binit disk, fun _ => none⟩

/-- No request ends with an error, and the sectors are on the disk. -/
def NoError (s : State) : Call → Prop
  | .bread dev sector err => dev ≤ 1 ∧ sector < 2 ^ 28 ∧ (err = true → (s.io.cached dev sector).isSome)
  | .bwrite _ err => err = false
  | _ => True

instance (s : State) : ∀ c, Decidable (NoError s c)
  | .bread _ _ _ => inferInstanceAs (Decidable (_ ∧ _ ∧ _))
  | .bwrite _ err => inferInstanceAs (Decidable (err = false))
  | .brelse _ | .store _ _ | .mark _ => .isTrue trivial

/-- The buffer has the contents of its sector, or newer ones that the kernel has stored. -/
def State.Current (s : State) (i : BufIx) : Prop :=
  (s.io.buf i).data = s.io.disk (address (s.io.buf i).dev (s.io.buf i).sector) ∨ s.stored i = some (s.io.buf i).data

instance (s : State) (i : BufIx) : Decidable (s.Current i) := inferInstanceAs (Decidable (_ ∨ _))

/-- The call clears `B_DIRTY` of the buffer; `bwrite` sets it itself before. -/
def Clears (s : State) (c : Call) (s' : State) (i : BufIx) : Prop :=
  ((s.io.buf i).dirty = true ∨ ∃ err, c = .bwrite i err) ∧ (s'.io.buf i).dirty = false

/-- A disk on which the sectors differ. -/
def marked : ℕ → Block := fun x _ => x

/-- All buffers are used once. -/
def fill : List Call := (List.finRange NBUF).flatMap fun i => [.bread 1 (100 + i.val) false, .brelse i]

/-- **Errors become data.** A sector that could not be read is returned as valid with the bytes of another one, and a
buffer that could not be written is clean. -/
theorem error_becomes_data :
    (∃ s ∈ run (step true) (start marked) (fill ++ [.bread 1 5 true]), (s.io.buf 0).valid = true ∧
      (s.io.buf 0).sector = 5 ∧ (s.io.buf 0).data = marked (address 1 100) ∧ ¬ s.Current 0) ∧
    ∃ s ∈ run (step true) (start marked) [.bread 1 5 false, .store 0 fun _ => 0, .bwrite 0 true],
      (s.io.buf 0).dirty = false ∧ (s.io.buf 0).sector = 5 ∧ s.io.disk (address 1 5) ≠ (s.io.buf 0).data := by
  decide +kernel

/-! ## Without errors -/

variable {s s' : State} {c : Call} {i j : BufIx} {havedisk1 : Bool} {disk : ℕ → Block}

/-- **The invariant.** A buffer that has a sector has its contents. -/
structure Inv (s : State) : Prop where
  lru : ∀ i, i ∈ s.io.lru
  uniq : ∀ i j, (s.io.buf i).dev = (s.io.buf j).dev → (s.io.buf i).sector = (s.io.buf j).sector →
    (s.io.buf i).dev ≤ 1 → i = j
  small : ∀ i, (s.io.buf i).dev ≤ 1 → (s.io.buf i).sector < 2 ^ 28
  used : ∀ i, (s.io.buf i).busy = true ∨ (s.io.buf i).dirty = true ∨ (s.io.buf i).valid = true → (s.io.buf i).dev ≤ 1
  valid : ∀ i, (s.io.buf i).dev ≤ 1 → (s.io.buf i).valid = true
  current : ∀ i, (s.io.buf i).dev ≤ 1 → s.Current i

theorem start_inv : Inv (start disk) := by
  constructor <;> simp [start, binit]

theorem address_inj {d₁ d₂ x₁ x₂ : ℕ} (h : address d₁ x₁ = address d₂ x₂) (hd₁ : d₁ ≤ 1) (hd₂ : d₂ ≤ 1)
    (hx₁ : x₁ < 2 ^ 28) (hx₂ : x₂ < 2 ^ 28) : d₁ = d₂ ∧ x₁ = x₂ := by
  unfold address at h
  omega

theorem Inv.set {b : Buf} {m : Io} {st : BufIx → Option Block} (h : Inv s) (hbuf : m.buf = update s.io.buf i b)
    (hlru : ∀ j, j ∈ m.lru) (hdev : b.dev ≤ 1) (hsector : b.sector < 2 ^ 28) (hvalid : b.valid = true)
    (huniq : ∀ j, j ≠ i → (s.io.buf j).dev = b.dev → (s.io.buf j).sector ≠ b.sector)
    (hdisk : ∀ j, j ≠ i → (s.io.buf j).dev ≤ 1 →
      m.disk (address (s.io.buf j).dev (s.io.buf j).sector) = s.io.disk (address (s.io.buf j).dev (s.io.buf j).sector))
    (hst : ∀ j, j ≠ i → st j = s.stored j)
    (hcur : b.data = m.disk (address b.dev b.sector) ∨ st i = some b.data) : Inv ⟨m, st⟩ := by
  have hself : m.buf i = b := by rw [hbuf, update_self]
  have hother : ∀ j, j ≠ i → m.buf j = s.io.buf j := fun j hj => by rw [hbuf, update_of_ne hj]
  -- every field: the buffer that changes, and the others
  refine ⟨hlru, fun j k hd hs hle => ?_, fun j hle => ?_, fun j hu => ?_, fun j hle => ?_, fun j hle => ?_⟩
  · by_cases hj : j = i
    · by_cases hk : k = i
      · rw [hj, hk]
      · simp only [hj, hself, hother k hk] at hd hs
        exact absurd hs.symm (huniq k hk hd.symm)
    · by_cases hk : k = i
      · simp only [hk, hself, hother j hj] at hd hs
        exact absurd hs (huniq j hj hd)
      · simp only [hother j hj, hother k hk] at hd hs hle
        exact h.uniq j k hd hs hle
  · by_cases hj : j = i
    · rw [hj, hself]
      exact hsector
    · simp only [hother j hj] at hle ⊢
      exact h.small j hle
  · by_cases hj : j = i
    · rw [hj, hself]
      exact hdev
    · simp only [hother j hj] at hu ⊢
      exact h.used j hu
  · by_cases hj : j = i
    · rw [hj, hself]
      exact hvalid
    · simp only [hother j hj] at hle ⊢
      exact h.valid j hle
  · by_cases hj : j = i
    · subst hj
      simpa only [State.Current, hself] using hcur
    · simp only [hother j hj] at hle
      simp only [State.Current, hother j hj, hst j hj, hdisk j hj hle]
      exact h.current j hle

theorem Inv.keep {b : Buf} {m : Io} {st : BufIx → Option Block} (h : Inv s) (hbuf : m.buf = update s.io.buf i b)
    (hlru : ∀ j, j ∈ m.lru) (hi : (s.io.buf i).dev ≤ 1) (hdev : b.dev = (s.io.buf i).dev)
    (hsector : b.sector = (s.io.buf i).sector) (hvalid : b.valid = true)
    (hdisk : ∀ j, j ≠ i → (s.io.buf j).dev ≤ 1 →
      m.disk (address (s.io.buf j).dev (s.io.buf j).sector) = s.io.disk (address (s.io.buf j).dev (s.io.buf j).sector))
    (hst : ∀ j, j ≠ i → st j = s.stored j)
    (hcur : b.data = m.disk (address b.dev b.sector) ∨ st i = some b.data) : Inv ⟨m, st⟩ := by
  refine h.set hbuf hlru (hdev ▸ hi) (hsector ▸ h.small i hi) hvalid (fun j hj hd hs => ?_) hdisk hst hcur
  exact hj (h.uniq j i (hd.trans hdev) (hs.trans hsector) (by omega))

theorem iderw_read {m m' : Io} (hc : (m.buf i).dirty = false) (h : iderw havedisk1 false m i = some m') :
    m' = m.set i { m.buf i with
      data := m.disk (address (m.buf i).dev (m.buf i).sector), valid := true, dirty := false } := by
  simp only [iderw, hc, Bool.false_eq_true, if_false] at h
  split_ifs at h
  exact (Option.some.inj h).symm

theorem iderw_write {m m' : Io} (hd : (m.buf i).dirty = true) (h : iderw havedisk1 false m i = some m') :
    m' = { m.set i { m.buf i with dirty := false, valid := true } with
      disk := update m.disk (address (m.buf i).dev (m.buf i).sector) (m.buf i).data } := by
  simp only [iderw, hd, Bool.false_eq_true, if_false, if_true] at h
  split_ifs at h
  exact (Option.some.inj h).symm

theorem bread_inv {m' : Io} {dev sector : ℕ} {err : Bool} (h : Inv s) (hdev : dev ≤ 1)
    (herr : err = true → (s.io.cached dev sector).isSome) (hb : bread havedisk1 err s.io dev sector = some (m', i)) :
    s.io.cached dev sector = some i ∧ (s.io.buf i).dev = dev ∧ (s.io.buf i).sector = sector ∧
        m' = s.io.set i { s.io.buf i with busy := true } ∨
      s.io.cached dev sector = none ∧ (s.io.buf i).dirty = false ∧
        m' = s.io.set i ⟨true, true, false, dev, sector, s.io.disk (address dev sector)⟩ := by
  simp only [bread, Option.bind_eq_some_iff] at hb
  obtain ⟨⟨m₁, k⟩, hget, hb⟩ := hb
  simp only [bget] at hget
  cases hc : s.io.cached dev sector with
  | some l =>
    rw [hc] at hget
    obtain ⟨-, rfl, rfl⟩ := by simpa using hget
    obtain ⟨hd, hs⟩ := Io.cached_some hc
    have hv := h.valid l (by omega)
    simp only [Io.set_buf_self, hv, if_true, Option.some.injEq, Prod.mk.injEq] at hb
    obtain ⟨rfl, rfl⟩ := hb
    exact .inl ⟨rfl, hd, hs, by simp only [hv]⟩
  | none =>
    rw [hc] at hget herr
    obtain rfl : err = false := by simpa using herr
    obtain ⟨l, hl, hm⟩ := Option.map_eq_some_iff.mp hget
    obtain ⟨rfl, rfl⟩ := Prod.mk.injEq .. ▸ hm
    obtain ⟨-, hclean⟩ := Io.victim_some hl
    simp only [Io.set_buf_self, Bool.false_eq_true, if_false, Option.map_eq_some_iff] at hb
    obtain ⟨m₂, hide, heq⟩ := hb
    obtain ⟨rfl, rfl⟩ := Prod.mk.injEq .. ▸ heq
    rw [iderw_read (by simp) hide]
    exact .inr ⟨rfl, hclean, by simp [Io.set]⟩

theorem bwrite_inv {m' : Io} (h : bwrite havedisk1 false s.io i = some m') :
    (s.io.buf i).busy = true ∧ m' = { s.io.set i { s.io.buf i with dirty := false, valid := true } with
      disk := update s.io.disk (address (s.io.buf i).dev (s.io.buf i).sector) (s.io.buf i).data } := by
  simp only [bwrite] at h
  split_ifs at h with hbusy
  refine ⟨by simpa using hbusy, ?_⟩
  rw [iderw_write (by simp [Io.mark]) h]
  simp [Io.mark, Io.set]

theorem Inv.step (h : Inv s) (hok : NoError s c) (hs : step havedisk1 s c = some s') : Inv s' := by
  cases c with
  | bread dev sector err =>
    simp only [Ide.step, Option.map_eq_some_iff] at hs
    obtain ⟨⟨m, i⟩, hb, rfl⟩ := hs
    obtain ⟨hdev, hsector, herr⟩ := hok
    obtain ⟨hc, hd, hx, rfl⟩ | ⟨hc, -, rfl⟩ := bread_inv h hdev herr hb
    · simp only [hc, Option.isSome_some, if_true]
      exact h.keep rfl h.lru (by omega) rfl rfl (h.valid i (by omega)) (fun _ _ _ => rfl) (fun _ _ => rfl)
        (h.current i (by omega))
    · simp only [hc, Option.isSome_none, Bool.false_eq_true, if_false]
      refine h.set rfl h.lru hdev hsector rfl (fun j _ hd => Io.cached_none h.lru hc j hd) (fun _ _ _ => rfl)
        (fun j hj => update_of_ne hj _ _) (.inl rfl)
  | bwrite i err =>
    obtain rfl : err = false := hok
    simp only [Ide.step, Option.map_eq_some_iff] at hs
    obtain ⟨m, hb, rfl⟩ := hs
    obtain ⟨hbusy, rfl⟩ := bwrite_inv hb
    have hdev := h.used i (.inl hbusy)
    refine h.keep rfl h.lru hdev rfl rfl rfl (fun j hj hle => ?_) (fun _ _ => rfl) (.inl ?_)
    · refine update_of_ne (fun ha => hj ?_) _ _
      obtain ⟨hd, hx⟩ := address_inj ha hle hdev (h.small j hle) (h.small i hdev)
      exact h.uniq j i hd hx hle
    · simp only [update_self]
  | brelse i =>
    simp only [Ide.step, brelse, Option.map_eq_some_iff] at hs
    obtain ⟨m, hb, rfl⟩ := hs
    split_ifs at hb with hbusy
    obtain rfl := Option.some.inj hb
    have hdev := h.used i (.inl (by simpa using hbusy))
    refine h.keep rfl (fun j => ?_) hdev rfl rfl (h.valid i hdev) (fun _ _ _ => rfl) (fun _ _ => rfl) (h.current i hdev)
    by_cases hj : j = i
    · simp [hj]
    · simp [hj, h.lru j]
  | store i d =>
    simp only [Ide.step] at hs
    split_ifs at hs with hbusy
    obtain rfl := Option.some.inj hs
    have hdev := h.used i (.inl hbusy)
    exact h.keep rfl h.lru hdev rfl rfl (h.valid i hdev) (fun _ _ _ => rfl) (fun j hj => update_of_ne hj _ _)
      (.inr (update_self _ _ _))
  | mark i =>
    simp only [Ide.step] at hs
    split_ifs at hs with hbusy
    obtain rfl := Option.some.inj hs
    have hdev := h.used i (.inl hbusy)
    exact h.keep rfl h.lru hdev rfl rfl (h.valid i hdev) (fun _ _ _ => rfl) (fun _ _ => rfl) (h.current i hdev)

theorem clears_written (h : Inv s) (hok : NoError s c) (hs : step havedisk1 s c = some s') (hc : Clears s c s' i) :
    s'.io.disk (address (s.io.buf i).dev (s.io.buf i).sector) = (s.io.buf i).data := by
  obtain ⟨hbefore, hafter⟩ := hc
  cases c with
  | bread dev sector err =>
    have hd : (s.io.buf i).dirty = true := by simpa using hbefore
    simp only [step, Option.map_eq_some_iff] at hs
    obtain ⟨⟨m, k⟩, hb, rfl⟩ := hs
    obtain ⟨-, -, -, rfl⟩ | ⟨-, hclean, rfl⟩ := bread_inv h hok.1 hok.2.2 hb
    · by_cases hi : i = k
      · subst hi
        simp [hd] at hafter
      · simp [hi, hd] at hafter
    · have hi : i ≠ k := fun e => by simp [← e, hd] at hclean
      simp [hi, hd] at hafter
  | bwrite k err =>
    obtain rfl : err = false := hok
    simp only [step, Option.map_eq_some_iff] at hs
    obtain ⟨m, hb, rfl⟩ := hs
    obtain ⟨-, rfl⟩ := bwrite_inv hb
    by_cases hi : i = k
    · subst hi
      exact update_self _ _ _
    · have hd : (s.io.buf i).dirty = true := by
        rcases hbefore with hd | ⟨err, he⟩
        · exact hd
        · cases he
          exact absurd rfl hi
      simp [hi, hd] at hafter
  | brelse k =>
    have hd : (s.io.buf i).dirty = true := by simpa using hbefore
    simp only [step, brelse, Option.map_eq_some_iff] at hs
    obtain ⟨m, hb, rfl⟩ := hs
    split_ifs at hb
    obtain rfl := Option.some.inj hb
    by_cases hi : i = k
    · subst hi
      simp [hd] at hafter
    · simp [hi, hd] at hafter
  | store k d | mark k =>
    have hd : (s.io.buf i).dirty = true := by simpa using hbefore
    simp only [step] at hs
    split_ifs at hs
    obtain rfl := Option.some.inj hs
    by_cases hi : i = k
    · subst hi
      simp [Io.modify, Io.mark, hd] at hafter
    · simp [Io.modify, Io.mark, hi, hd] at hafter

/-- **Disk errors.** In a run in which no request ends with an error and all sectors are on the disk, a buffer that
`bread` returns has the contents of its sector on the disk, or newer ones that the kernel has stored in it; and
`B_DIRTY` is only cleared when the sector has been written. -/
theorem errors_not_data {tr : List (State × Call)} (h : Path (step havedisk1) NoError (start disk) tr s)
    (hok : NoError s c) (hs : step havedisk1 s c = some s') :
    (∀ dev sector err m i, c = .bread dev sector err → bread havedisk1 err s.io dev sector = some (m, i) →
      s'.io = m ∧ (m.buf i).valid = true ∧ (m.buf i).dev = dev ∧ (m.buf i).sector = sector ∧ s'.Current i) ∧
    ∀ i, Clears s c s' i → s'.io.disk (address (s.io.buf i).dev (s.io.buf i).sector) = (s.io.buf i).data := by
  have hinv : Inv s := h.inv start_inv fun _ _ _ hi hok hs => hi.step hok hs
  refine ⟨?_, fun i hc => clears_written hinv hok hs hc⟩
  rintro dev sector err m i rfl hb
  have hinv' := hinv.step hok hs
  simp only [step, hb, Option.map_some, Option.some.injEq] at hs
  have hio : s'.io = m := by rw [← hs]
  have hat : (m.buf i).dev = dev ∧ (m.buf i).sector = sector := by
    obtain ⟨-, hd, hx, rfl⟩ | ⟨-, -, rfl⟩ := bread_inv hinv hok.1 hok.2.2 hb
    · simpa using ⟨hd, hx⟩
    · simp
  have hdev : (s'.io.buf i).dev ≤ 1 := by rw [hio, hat.1]; exact hok.1
  exact ⟨hio, hio ▸ hinv'.valid i hdev, hat.1, hat.2, hinv'.current i hdev⟩

theorem errors_not_data_write : ∃ tr s s', Path (step true) NoError (start marked) tr s ∧
    step true s (.bwrite 0 false) = some s' ∧ Clears s (.bwrite 0 false) s' 0 ∧
    s'.io.disk (address (s.io.buf 0).dev (s.io.buf 0).sector) = (s.io.buf 0).data := by
  obtain ⟨s, hpath, hs⟩ := exists_path (step true) NoError (start marked) [.bread 1 5 false, .store 0 fun _ => 0]
    (fun s => ∃ s' ∈ step true s (.bwrite 0 false), (s'.io.buf 0).dirty = false) (by decide +kernel)
  obtain ⟨s', hstep, hclean⟩ := hs
  have hc : Clears s (.bwrite 0 false) s' 0 := ⟨.inr ⟨false, rfl⟩, hclean⟩
  exact ⟨_, s, s', hpath, hstep, hc, (errors_not_data hpath (by rfl) hstep).2 0 hc⟩

end Xv6.Bio.Ide
